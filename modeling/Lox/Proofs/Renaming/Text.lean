import Lox.Proofs.Token.Lexeme
import Lox.Proofs.Token.Spelling
import Mathlib.Data.List.Forall2

/-!
Other names in the place of some of the names of a text. The scanner finds in the new text the spans of
the old one, with the new names.
-/

namespace Lox

/-- The spans of a text, of which those that are words with one of the numbers have another text. -/
def respellFrom (numbers : List Nat) (name : List Char) : Nat → List Span → List Span
  | _, [] => []
  | i, s :: rest =>
    match s.cls with
    | .token _ _ =>
      (if i ∈ numbers then { s with text := name } else s) :: respellFrom numbers name (i + 1) rest
    | _ => s :: respellFrom numbers name i rest

/-- The source with another name in the place of some of its words. -/
def respell (numbers : List Nat) (name source : String) : String :=
  String.ofList ((respellFrom numbers name.toList 0 (spans source.toList)).flatMap Span.text)

/-- The second text begins like the first one, as far as what stands before them can tell. -/
inductive BeginsLike : List Char → List Char → Prop
  | nil : BeginsLike [] []
  | word {c c' cs cs'} (h : isWordStart c = true) (h' : isWordStart c' = true) :
    BeginsLike (c :: cs) (c' :: cs')
  | same {c cs cs'} (h : ∀ d, d.isDigit = true → cs'.head? = some d → cs.head? = some d) :
    BeginsLike (c :: cs) (c :: cs')

section Extending

variable {P : List Char → Prop} {text rest rest' : List Char} {c : Char} {cs : List Char}

theorem isWordPart_of_start {c : Char} (h : isWordStart c = true) : isWordPart c = true := by
  unfold isWordStart at h
  unfold isWordPart Char.isAlphanum
  rcases Bool.or_eq_true _ _ ▸ h with h | h
  · rw [h, Bool.true_or, Bool.true_or]
  · rw [h, Bool.or_true]

/-- A word ends where no character of a word follows. -/
theorem longest_word_iff : Longest IsWord text rest ↔
    IsWord text ∧ ∀ c ∈ rest.head?, isWordPart c = false := by
  constructor
  · rintro ⟨⟨c, cs, rfl, hc, hcs⟩, hmaximal⟩
    refine ⟨⟨c, cs, rfl, hc, hcs⟩, fun d hd => Bool.eq_false_iff.2 fun hpart => ?_⟩
    obtain ⟨tail, rfl⟩ := List.head?_eq_some_iff.1 hd
    have hlonger : IsWord (c :: (cs ++ [d])) :=
      ⟨c, cs ++ [d], rfl, hc, List.forall_mem_append.2 ⟨hcs, List.forall_mem_singleton.2 hpart⟩⟩
    have hle := hmaximal _ hlonger ⟨tail, by simp⟩
    rw [List.length_cons, List.length_cons, List.length_append, List.length_singleton] at hle
    omega
  · rintro ⟨⟨c, cs, rfl, hc, hcs⟩, hrest⟩
    refine ⟨⟨c, cs, rfl, hc, hcs⟩, ?_⟩
    rintro longer ⟨c', cs', rfl, _, hcs'⟩ hpre
    refine Nat.le_of_not_lt fun hlt => ?_
    obtain ⟨ext, hext⟩ := List.prefix_of_prefix_length_le (List.prefix_append (c :: cs) rest) hpre
      (Nat.le_of_lt hlt)
    obtain ⟨rfl, rfl⟩ := List.cons.inj hext
    cases ext with
    | nil => simp at hlt
    | cons d ext =>
      obtain ⟨after, hafter⟩ := hpre
      have hhead : rest = d :: (ext ++ after) := by simpa using hafter.symm
      have hd := hrest d (by rw [hhead]; rfl)
      rw [hcs' d (by simp)] at hd
      cases hd

namespace BeginsLike

/-- Only a letter or an underscore may differ. -/
theorem head {d : Char} (h : BeginsLike rest rest') (hd : isWordStart d = false)
    (hrest' : rest'.head? = some d) : rest.head? = some d := by
  cases h with
  | nil => exact hrest'
  | word _ h' =>
    obtain rfl := Option.some.inj hrest'
    rw [h'] at hd
    cases hd
  | same _ => exact hrest'

theorem not_start_of_digit {d : Char} (hd : d.isDigit = true) : isWordStart d = false :=
  Bool.eq_false_iff.2 fun hstart => not_digit_of_wordStart hstart hd

theorem operator (h : BeginsLike rest rest') (hlongest : Longest IsOperator text rest) :
    Longest IsOperator text rest' := by
  refine hlongest.change fun d ext ⟨kind, hlonger⟩ hpre => ?_
  have hne : ∀ o ∈ operators, o.1 ≠ [] := by decide
  obtain ⟨kind', htext⟩ := hlongest.fits
  obtain ⟨c, tail, rfl⟩ := List.exists_cons_of_ne_nil (hne _ htext)
  rcases operators_long _ hlonger with hshort | ⟨htail, _⟩
  · simp at hshort
  · -- The longer operator is joined with an equals sign.
    have hjoined : tail ++ d :: ext = ['='] := htail
    cases tail with
    | cons _ _ => simp at hjoined
    | nil =>
    obtain ⟨rfl, rfl⟩ := List.cons.inj hjoined
    obtain ⟨after, rfl⟩ := hpre
    obtain ⟨cs, hrest⟩ := List.head?_eq_some_iff.1 (h.head (by decide) rfl)
    exact ⟨'=', [], ⟨kind, hlonger⟩, by rw [hrest]; exact List.prefix_append ['='] cs⟩

theorem boundary (h : BeginsLike rest rest') (hrest : ∀ c ∈ rest.head?, isWordPart c = false) :
    ∀ c ∈ rest'.head?, isWordPart c = false := by
  cases h with
  | nil => exact hrest
  | word hstart _ =>
    have hpart := isWordPart_of_start hstart
    rw [hrest _ rfl] at hpart
    cases hpart
  | same _ => exact hrest

theorem word_ends (h : BeginsLike rest rest') (hlongest : Longest IsWord text rest) :
    Longest IsWord text rest' :=
  let ⟨hword, hrest⟩ := longest_word_iff.1 hlongest
  longest_word_iff.2 ⟨hword, h.boundary hrest⟩

/-- A numeral goes on with a digit, or with a point and a digit behind its first digits. -/
theorem numeral_extends {d : Char} {ext : List Char}
    (h : IsNumeral (text ++ d :: ext)) :
    d.isDigit = true ∨ d = '.' ∧ IsDigits text ∧ ∃ e ds, ext = e :: ds ∧ e.isDigit = true := by
  rcases h with h | ⟨whole, fraction, hwhole, hfraction, heq⟩
  · exact .inl (h.2 d (by simp))
  · have hpoint (hd : '.' :: fraction = d :: ext) (hw : text = whole) : d.isDigit = true ∨
        d = '.' ∧ IsDigits text ∧ ∃ e ds, ext = e :: ds ∧ e.isDigit = true := by
      obtain ⟨rfl, rfl⟩ := List.cons.inj hd
      obtain ⟨e, ds, rfl⟩ := List.exists_cons_of_ne_nil hfraction.1
      exact .inr ⟨rfl, hw ▸ hwhole, e, ds, rfl, hfraction.2 e List.mem_cons_self⟩
    rcases List.append_eq_append_iff.1 heq with ⟨as, hw, hd⟩ | ⟨bs, hw, hd⟩
    · cases as with
      | nil => exact hpoint hd.symm (by simpa using hw.symm)
      | cons a as =>
        obtain ⟨rfl, _⟩ := List.cons.inj hd
        exact .inl (hwhole.2 d (by simp [hw]))
    · cases bs with
      | nil => exact hpoint hd (by simpa using hw)
      | cons b bs =>
        obtain ⟨_, rfl⟩ := List.cons.inj hd
        exact .inl (hfraction.2 d (by simp))

theorem numeral_digit {d : Char} (h : IsNumeral text) (hd : d.isDigit = true) :
    IsNumeral (text ++ [d]) := by
  have hsnoc {ds : List Char} (h : IsDigits ds) : IsDigits (ds ++ [d]) := by
    refine ⟨by simp, fun c hc => ?_⟩
    rcases List.mem_append.1 hc with hc | hc
    · exact h.2 c hc
    · exact List.mem_singleton.1 hc ▸ hd
  rcases h with h | ⟨whole, fraction, hwhole, hfraction, rfl⟩
  · exact .inl (hsnoc h)
  · exact .inr ⟨whole, fraction ++ [d], hwhole, hsnoc hfraction, by simp⟩

theorem numeral (h : BeginsLike rest rest') (hlongest : Longest IsNumeral text rest) :
    Longest IsNumeral text rest' := by
  refine hlongest.change fun d ext hlonger hpre => ?_
  obtain ⟨after, rfl⟩ := hpre
  rcases numeral_extends hlonger with hd | ⟨rfl, hdigits, e, ds, rfl, he⟩
  · obtain ⟨cs, hrest⟩ := List.head?_eq_some_iff.1 (h.head (not_start_of_digit hd) rfl)
    exact ⟨d, [], numeral_digit hlongest.fits hd, by rw [hrest]; exact List.prefix_append [d] cs⟩
  · cases h with
    | word _ h' => exact absurd h' (by decide)
    | @same _ cs _ hsame =>
      obtain ⟨cs, rfl⟩ := List.head?_eq_some_iff.1 (hsame e he rfl)
      have hfraction : IsNumeral (text ++ ['.', e]) :=
        .inr ⟨text, [e], hdigits, ⟨by simp, by simpa using he⟩, rfl⟩
      exact ⟨'.', [e], hfraction, List.prefix_append ['.', e] cs⟩

/-- A slash alone stays one. -/
theorem slash {kind : TokenKind} (h : BeginsLike rest rest') {d : Char} (hd : isWordStart d = false)
    (ht : (text, kind) ∈ operators) (hno : ¬ ['/', d] <+: text ++ rest) :
    ¬ ['/', d] <+: text ++ rest' := by
  have hne : ∀ o ∈ operators, o.1 ≠ [] := by decide
  obtain ⟨c, tail, rfl⟩ := List.exists_cons_of_ne_nil (hne _ ht)
  intro hpre
  obtain ⟨hc, hnext⟩ := List.cons_prefix_cons.1 hpre
  refine hno (List.cons_prefix_cons.2 ⟨hc, ?_⟩)
  cases tail with
  | cons e tail =>
    obtain ⟨he, _⟩ := List.cons_prefix_cons.1 hnext
    exact List.cons_prefix_cons.2 ⟨he, List.nil_prefix⟩
  | nil =>
    obtain ⟨after, hafter⟩ := hnext
    have hhead : rest'.head? = some d := congrArg List.head? (show rest' = d :: after from hafter.symm)
    obtain ⟨cs, rfl⟩ := List.head?_eq_some_iff.1 (h.head hd hhead)
    exact List.prefix_append [d] cs

/-- A lexeme is the same in front of a text that begins alike. -/
theorem lexeme {cls : SpanClass} (h : BeginsLike rest rest') (hl : Lexeme text rest cls) :
    Lexeme text rest' cls := by
  cases hl with
  | operator longest hmem hline hblock =>
    exact .operator (h.operator longest) hmem (h.slash (by decide) hmem hline)
      (h.slash (by decide) hmem hblock)
  | number longest => exact .number (h.numeral longest)
  | keyword longest hmem => exact .keyword (h.word_ends longest) hmem
  | identifier longest hno => exact .identifier (h.word_ends longest) hno
  | string hinside => exact .string hinside
  | blank hblank => exact .blank hblank
  | lineComment hinside hrest =>
    refine .lineComment hinside fun c hc => ?_
    cases h with
    | nil => cases hc
    | @word d _ _ _ hd _ =>
      obtain rfl := hrest d rfl
      exact absurd hd (by decide)
    | same _ => exact hrest c hc
  | blockComment hinside => exact .blockComment hinside
  | unexpected hc => exact .unexpected hc
  | openString hinside =>
    cases h
    exact .openString hinside
  | openComment hinside =>
    cases h
    exact .openComment hinside

end BeginsLike

end Extending

section Names

variable {name : List Char} {numbers : List Nat} {text rest : List Char} {cls : SpanClass}

/-- A lexeme that is spelled like a name is one. -/
theorem lexeme_name (hname : IsWord name) (hno : ∀ kind, (String.ofList name, kind) ∉ keywords)
    (hl : Lexeme name rest cls) : cls = .token .identifier none := by
  obtain ⟨c, cs, rfl, hc, hcs⟩ := hname
  have hplain {d : Char} (hd : isWordStart d = false) : c ≠ d := fun heq => by simp [← heq, hc] at hd
  cases hl with
  | operator longest hmem _ _ =>
    have hfirst : ∀ o ∈ operators, o.1.head?.all (!isWordStart ·) = true := by decide
    have hhead : (!isWordStart c) = true := hfirst _ hmem
    rw [hc] at hhead
    cases hhead
  | number longest =>
    obtain ⟨d, ds, heq, hd⟩ := numeral_first longest.fits
    obtain ⟨rfl, _⟩ := List.cons.inj heq
    exact absurd hd (not_digit_of_wordStart hc)
  | keyword _ hmem => exact absurd hmem (hno _)
  | identifier _ _ => rfl
  | string _ => exact absurd rfl (hplain (d := '"') (by decide))
  | blank hblank =>
    rcases blank_cases hblank with rfl | rfl | rfl | rfl <;> exact absurd hc (by decide)
  | lineComment _ _ => exact absurd rfl (hplain (d := '/') (by decide))
  | blockComment _ => exact absurd rfl (hplain (d := '/') (by decide))
  | unexpected hnothing => simp [hnothing.2.2.1] at hc
  | openString _ => exact absurd rfl (hplain (d := '"') (by decide))
  | openComment _ => exact absurd rfl (hplain (d := '/') (by decide))

theorem lexeme_identifier {literal : Option Literal}
    (hl : Lexeme text rest (.token .identifier literal)) :
    literal = none ∧ Longest IsWord text rest ∧ ∀ kind, (String.ofList text, kind) ∉ keywords := by
  generalize hcls : SpanClass.token .identifier literal = cls at hl
  cases hl with
  | operator _ hmem _ _ =>
    have hother : ∀ o ∈ operators, o.2 ≠ .identifier := by decide
    exact absurd (SpanClass.token.inj hcls).1.symm (hother _ hmem)
  | keyword _ hmem => exact absurd (SpanClass.token.inj hcls).1.symm (keywords_spelled _ hmem).1
  | identifier longest hno => exact ⟨(SpanClass.token.inj hcls).2, longest, hno⟩
  | _ => nomatch hcls

/-- The words of a source are spelled like names where they are names, and nowhere else. -/
theorem name_iff {source : String} {t : Token} (ht : t ∈ wordsOf source) :
    t.kind = .identifier ↔ IsWord t.lexeme.toList ∧ ∀ kind, (t.lexeme, kind) ∉ keywords := by
  obtain ⟨rest, hlexeme⟩ := wordsOf_lexeme ht
  constructor
  · intro hkind
    rw [hkind] at hlexeme
    obtain ⟨_, longest, hno⟩ := lexeme_identifier hlexeme
    exact ⟨longest.fits, by simpa using hno⟩
  · rintro ⟨hword, hno⟩
    exact (SpanClass.token.inj (lexeme_name hword (by simpa using hno) hlexeme)).1

theorem IsWord.unbroken (h : IsWord text) : text.count '\n' = 0 := by
  obtain ⟨c, cs, rfl, hc, hcs⟩ := h
  refine List.count_eq_zero.2 fun hmem => ?_
  rcases List.mem_cons.1 hmem with rfl | hmem
  · exact absurd hc (by decide)
  · exact absurd (hcs _ hmem) (by decide)

end Names

/-- The span itself, or the name in the place of another one. -/
inductive Span.Renamed (name : List Char) (s : Span) : Span → Prop where
  | same : Renamed name s s
  | word (hcls : s.cls = .token .identifier none) (hword : IsWord s.text) :
    Renamed name s { s with text := name }

/-- The tokens, of which those with one of the numbers have another lexeme. The first one has the
number `i`. -/
def respellTokens (numbers : List Nat) (name : String) (i : Nat) (ts : List Token) : List Token :=
  (ts.zipIdx i).map fun (t, j) => if j ∈ numbers then { t with lexeme := name } else t

section Spans

variable {name : List Char} {numbers : List Nat} {text : List Char} {s s' : Span} {ss ss' : List Span}

namespace Span.Renamed

theorem cls (h : s.Renamed name s') : s'.cls = s.cls := by
  cases h <;> rfl

theorem lineBreaks (hname : IsWord name) (h : s.Renamed name s') : s'.lineBreaks = s.lineBreaks := by
  cases h with
  | same => rfl
  | word _ hword => exact hname.unbroken.trans hword.unbroken.symm

end Span.Renamed

/-- What begins a span begins it still, or it is the beginning of a name. -/
theorem BeginsLike.span {rest rest' : List Char} (hname : IsWord name) (hne : s.text ≠ [])
    (h : s.Renamed name s') (hrest : BeginsLike rest rest') :
    BeginsLike (s.text ++ rest) (s'.text ++ rest') := by
  cases h with
  | word _ hword =>
    obtain ⟨c, cs, htext, hc, _⟩ := hword
    obtain ⟨c', cs', rfl, hc', _⟩ := hname
    rw [htext]
    exact .word hc hc'
  | same =>
    obtain ⟨c, cs, htext⟩ := List.exists_cons_of_ne_nil hne
    rw [htext]
    refine .same fun d hd hhead => ?_
    cases cs with
    | nil => exact hrest.head (BeginsLike.not_start_of_digit hd) hhead
    | cons _ _ => exact hhead

theorem lexeme_ne_nil {rest : List Char} {cls : SpanClass} (h : Lexeme text rest cls) : text ≠ [] := by
  obtain ⟨c, cs, _, hcut⟩ := lexeme_cut h
  have hne := Span.cut_text_ne_nil c cs
  rwa [hcut] at hne

/-- With other names in it a text is cut in the same places. -/
theorem Tiles.renamed (hname : IsWord name) (hno : ∀ kind, (String.ofList name, kind) ∉ keywords)
    (h : Tiles text ss) (hss : List.Forall₂ (Span.Renamed name) ss ss') :
    Tiles (ss'.flatMap Span.text) ss' ∧ BeginsLike text (ss'.flatMap Span.text) := by
  induction h generalizing ss' with
  | nil =>
    cases hss
    exact ⟨.nil, .nil⟩
  | @cons s rest ss hs _ ih =>
    obtain ⟨s', ss', hfirst, hrest, rfl⟩ := List.forall₂_cons_left_iff.1 hss
    obtain ⟨htiles, hbegins⟩ := ih hrest
    rw [List.flatMap_cons]
    refine ⟨.cons ?_ htiles, .span hname (lexeme_ne_nil hs) hfirst hbegins⟩
    have hs' := hbegins.lexeme hs
    cases hfirst with
    | same => exact hs'
    | word hcls _ =>
      rw [hcls] at hs
      have hboundary := hbegins.boundary (longest_word_iff.1 (lexeme_identifier hs).2.1).2
      rw [← hcls] at hs
      show Lexeme name _ s.cls
      rw [hcls]
      exact .identifier (longest_word_iff.2 ⟨hname, hboundary⟩) hno

theorem respellFrom_token {kind : TokenKind} {literal : Option Literal} {i : Nat}
    (hcls : s.cls = .token kind literal) : respellFrom numbers name i (s :: ss) =
      (if i ∈ numbers then { s with text := name } else s) :: respellFrom numbers name (i + 1) ss := by
  rw [respellFrom]
  simp only [hcls]

theorem respellFrom_other {i : Nat} (hcls : ∀ kind literal, s.cls ≠ .token kind literal) :
    respellFrom numbers name i (s :: ss) = s :: respellFrom numbers name i ss := by
  rw [respellFrom]
  cases hs : s.cls with
  | token kind literal => exact absurd hs (hcls kind literal)
  | _ => rfl

theorem respellFrom_renamed (h : Tiles text ss) {i line : Nat}
    (hkind : ∀ j t, (tokensOf (spanItems line ss))[j]? = some t → i + j ∈ numbers →
      t.kind = .identifier) :
    List.Forall₂ (Span.Renamed name) ss (respellFrom numbers name i ss) := by
  induction h generalizing i line with
  | nil => exact .nil
  | @cons s rest ss hs _ ih =>
    by_cases hcls : ∃ kind literal, s.cls = .token kind literal
    · obtain ⟨kind, literal, hcls⟩ := hcls
      rw [tokensOf_token hcls] at hkind
      rw [respellFrom_token hcls]
      refine .cons ?_ (@ih _ (line + s.lineBreaks) fun j t ht hj => ?_)
      · by_cases hi : i ∈ numbers
        · rw [if_pos hi]
          obtain rfl : kind = .identifier := hkind 0 _ rfl hi
          rw [hcls] at hs
          obtain ⟨rfl, longest, _⟩ := lexeme_identifier hs
          exact .word hcls longest.fits
        · rw [if_neg hi]
          exact .same
      · exact hkind (j + 1) t ht (by rwa [Nat.add_right_comm] at hj)
    · have hother : ∀ kind literal, s.cls ≠ .token kind literal := fun kind literal h =>
        hcls ⟨kind, literal, h⟩
      rw [tokensOf_other hother] at hkind
      rw [respellFrom_other hother]
      exact .cons .same (ih hkind)

theorem tokensOf_respellFrom (hname : IsWord name) {i line : Nat}
    (h : List.Forall₂ (Span.Renamed name) ss (respellFrom numbers name i ss)) :
    tokensOf (spanItems line (respellFrom numbers name i ss)) =
      respellTokens numbers (String.ofList name) i (tokensOf (spanItems line ss)) := by
  induction ss generalizing i line with
  | nil => rfl
  | cons s ss ih =>
    by_cases hcls : ∃ kind literal, s.cls = .token kind literal
    · obtain ⟨kind, literal, hcls⟩ := hcls
      rw [respellFrom_token hcls] at h ⊢
      obtain ⟨hs, hss⟩ := List.forall₂_cons.1 h
      rw [tokensOf_token hcls, tokensOf_token (hs.cls.trans hcls), hs.lineBreaks hname, ih hss]
      show _ = (if i ∈ numbers then _ else _) :: respellTokens numbers _ (i + 1) _
      congr 1
      by_cases hi : i ∈ numbers
      · rw [if_pos hi, if_pos hi]
      · rw [if_neg hi, if_neg hi]
    · have hother : ∀ kind literal, s.cls ≠ .token kind literal := fun kind literal h =>
        hcls ⟨kind, literal, h⟩
      rw [respellFrom_other hother] at h ⊢
      rw [tokensOf_other hother, tokensOf_other hother, ih (List.forall₂_cons.1 h).2]

theorem faultsOf_renamed (hname : IsWord name) {line : Nat}
    (h : List.Forall₂ (Span.Renamed name) ss ss') :
    faultsOf (spanItems line ss') = faultsOf (spanItems line ss) := by
  induction h generalizing line with
  | nil => rfl
  | @cons s s' ss ss' hs _ ih =>
    have hitem (line : Nat) : (s'.item? line).toList.filterMap ScanItem.diagnostic? =
        (s.item? line).toList.filterMap ScanItem.diagnostic? := by
      unfold Span.item?
      rw [hs.cls]
      cases s.cls <;> rfl
    unfold faultsOf at ih ⊢
    rw [spanItems, spanItems, List.filterMap_append, List.filterMap_append, hs.lineBreaks hname,
      hitem, ih]

theorem lineBreaks_renamed (hname : IsWord name) (h : List.Forall₂ (Span.Renamed name) ss ss') :
    (ss'.flatMap Span.text).count '\n' = (ss.flatMap Span.text).count '\n' := by
  induction h with
  | nil => rfl
  | cons hs _ ih =>
    have hfirst := hs.lineBreaks hname
    unfold Span.lineBreaks at hfirst
    rw [List.flatMap_cons, List.flatMap_cons, List.count_append, List.count_append, hfirst, ih]

end Spans

/-- With another name in the place of some of its names a source is scanned as before, but for these
names. -/
theorem scan_respell {numbers : List Nat} {name source : String} (hname : IsWord name.toList)
    (hno : ∀ kind, (name, kind) ∉ keywords)
    (hkind : ∀ j t, (wordsOf source)[j]? = some t → j ∈ numbers → t.kind = .identifier) :
    tokensOf (scan (respell numbers name source)) =
        respellTokens numbers name 0 (wordsOf source) ++ [endMark source] ∧
      faultsOf (scan (respell numbers name source)) = faultsOf (scan source) := by
  have htiles : Tiles source.toList (spans source.toList) := tiles_iff.2 rfl
  have hrenamed : List.Forall₂ (Span.Renamed name.toList) (spans source.toList)
      (respellFrom numbers name.toList 0 (spans source.toList)) :=
    respellFrom_renamed htiles fun j t ht hj => hkind j t ht (by rwa [Nat.zero_add] at hj)
  have hspans : spans (respell numbers name source).toList =
      respellFrom numbers name.toList 0 (spans source.toList) := by
    unfold respell
    rw [String.toList_ofList]
    exact tiles_iff.1 (htiles.renamed hname (by rwa [String.ofList_toList]) hrenamed).1
  have hmark : endMark (respell numbers name source) = endMark source := by
    have hbreaks := lineBreaks_renamed hname hrenamed
    rw [text_spans, ← hspans, text_spans] at hbreaks
    unfold endMark
    rw [hbreaks]
  constructor
  · rw [tokensOf_scan, hmark]
    unfold wordsOf
    rw [hspans, tokensOf_respellFrom hname hrenamed, String.ofList_toList]
  · rw [faultsOf_scan, faultsOf_scan, hspans, faultsOf_renamed hname hrenamed]

end Lox
