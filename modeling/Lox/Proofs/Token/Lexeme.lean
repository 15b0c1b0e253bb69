import Lox.Proofs.Token.Joining

/-!
The lexical grammar on its own: which text is a lexeme of which class in front of which other text. A
text is cut into lexemes in one way only, and that is how the scanner cuts it.
-/

namespace Lox

/-- Operators and punctuation. -/
def operators : List (List Char × TokenKind) :=
  [(['('], .leftParen), ([')'], .rightParen), (['\x7b'], .leftBrace), (['\x7d'], .rightBrace),
    ([','], .comma), (['.'], .dot), (['-'], .minus), (['+'], .plus), ([';'], .semicolon),
    (['*'], .star), (['?'], .question), ([':'], .colon), (['/'], .slash),
    (['!'], .bang), (['!', '='], .bangEqual), (['='], .equal), (['=', '='], .equalEqual),
    (['<'], .less), (['<', '='], .lessEqual), (['>'], .greater), (['>', '='], .greaterEqual)]

/-- A text of a kind in front of another one, such that no longer text of the kind stands there. -/
structure Longest (P : List Char → Prop) (text rest : List Char) : Prop where
  fits : P text
  maximal : ∀ longer, P longer → longer <+: text ++ rest → longer.length ≤ text.length

theorem Longest.unique {P : List Char → Prop} {text rest text' rest' : List Char}
    (h : Longest P text rest) (h' : Longest P text' rest') (heq : text ++ rest = text' ++ rest') :
    text = text' ∧ rest = rest' := by
  have hle := h.maximal text' h'.fits (heq ▸ List.prefix_append text' rest')
  have hge := h'.maximal text h.fits (heq ▸ List.prefix_append text rest)
  exact List.append_inj heq (Nat.le_antisymm hge hle)

/-- What is the longest in front of one text is so in front of another one in which nothing longer
begins. -/
theorem Longest.change {P : List Char → Prop} {text rest rest' : List Char} (h : Longest P text rest)
    (hP : ∀ d ext, P (text ++ d :: ext) → d :: ext <+: rest' →
      ∃ d' ext', P (text ++ d' :: ext') ∧ d' :: ext' <+: rest) : Longest P text rest' := by
  refine ⟨h.fits, fun longer hlonger hpre => Nat.le_of_not_lt fun hlt => ?_⟩
  obtain ⟨ext, rfl⟩ : text <+: longer :=
    List.prefix_of_prefix_length_le (List.prefix_append text rest') hpre (Nat.le_of_lt hlt)
  cases ext with
  | nil => simp at hlt
  | cons d ext =>
    obtain ⟨d', ext', hext, hpre'⟩ := hP d ext hlonger ((List.prefix_append_right_inj text).1 hpre)
    have hle := h.maximal _ hext ((List.prefix_append_right_inj text).2 hpre')
    rw [List.length_append, List.length_cons] at hle
    omega

/-- One or more digits. -/
def IsDigits (text : List Char) : Prop := text ≠ [] ∧ ∀ c ∈ text, c.isDigit = true

/-- Digits, and perhaps a point with other digits after it. -/
def IsNumeral (text : List Char) : Prop :=
  IsDigits text ∨ ∃ whole fraction, IsDigits whole ∧ IsDigits fraction ∧
    text = whole ++ '.' :: fraction

/-- A letter or an underscore, and then letters, digits and underscores. -/
def IsWord (text : List Char) : Prop :=
  ∃ c cs, text = c :: cs ∧ isWordStart c = true ∧ ∀ d ∈ cs, isWordPart d = true

def IsOperator (text : List Char) : Prop := ∃ kind, (text, kind) ∈ operators

/-- The number that a numeral stands for, to the nearest float. -/
def decimalValue (text : List Char) : Float :=
  let fraction := (text.dropWhile (· != '.')).drop 1
  Decimal.toFloat (Span.digitsValue (text.takeWhile (· != '.') ++ fraction)) (-(fraction.length : Int))

/-- The value of a word that is one by itself. -/
def wordLiteral : TokenKind → Option Literal
  | .true => some (.boolean true)
  | .false => some (.boolean false)
  | _ => none

/-- The text of a block comment ends here for the first time. -/
def EndsFirst (inside : List Char) : Prop := ¬ ['*', '/'] <:+: inside ++ ['*']

/-- What begins no token, no blank and no comment. -/
def BeginsNothing (c : Char) : Prop :=
  (∀ o ∈ operators, o.1.head? ≠ some c) ∧ c.isDigit = false ∧ isWordStart c = false ∧ c ≠ '"' ∧
    isBlank c = false

/-- The text is a span of the class where the rest follows. -/
inductive Lexeme : (text rest : List Char) → SpanClass → Prop
  | operator {text rest kind} (longest : Longest IsOperator text rest) (h : (text, kind) ∈ operators)
      (hline : ¬ ['/', '/'] <+: text ++ rest) (hblock : ¬ ['/', '*'] <+: text ++ rest) :
      Lexeme text rest (.token kind none)
  | number {text rest} (longest : Longest IsNumeral text rest) :
      Lexeme text rest (.token .number (some (.number (decimalValue text))))
  | keyword {text rest kind} (longest : Longest IsWord text rest)
      (h : (String.ofList text, kind) ∈ keywords) :
      Lexeme text rest (.token kind (wordLiteral kind))
  | identifier {text rest} (longest : Longest IsWord text rest)
      (h : ∀ kind, (String.ofList text, kind) ∉ keywords) :
      Lexeme text rest (.token .identifier none)
  | string {inside rest} (h : '"' ∉ inside) :
      Lexeme ('"' :: inside ++ ['"']) rest (.token .string (some (.string (String.ofList inside))))
  | blank {c rest} (h : isBlank c = true) : Lexeme [c] rest .blank
  | lineComment {inside rest} (h : '\n' ∉ inside) (hrest : ∀ c ∈ rest.head?, c = '\n') :
      Lexeme ('/' :: '/' :: inside) rest .lineComment
  | blockComment {inside rest} (h : EndsFirst inside) :
      Lexeme ('/' :: '*' :: inside ++ ['*', '/']) rest .blockComment
  | unexpected {c rest} (h : BeginsNothing c) :
      Lexeme [c] rest (.fault .unexpectedCharacter)
  | openString {inside} (h : '"' ∉ inside) :
      Lexeme ('"' :: inside) [] (.fault .unterminatedString)
  | openComment {inside} (h : ¬ ['*', '/'] <:+: inside) :
      Lexeme ('/' :: '*' :: inside) [] (.fault .unterminatedComment)

/-- The spans are the text piece by piece, each one a lexeme in front of those after it. -/
inductive Tiles : List Char → List Span → Prop
  | nil : Tiles [] []
  | cons {s rest ss} (h : Lexeme s.text rest s.cls) (tail : Tiles rest ss) :
      Tiles (s.text ++ rest) (s :: ss)

section Runs

variable {p : Char → Bool} {run cs : List Char}

theorem length_le_takeWhile (hrun : ∀ c ∈ run, p c = true) (h : run <+: cs) :
    run.length ≤ (cs.takeWhile p).length := by
  obtain ⟨tail, rfl⟩ := h
  rw [List.takeWhile_append_of_pos hrun, List.length_append]
  exact Nat.le_add_right _ _

/-- A run with a character after it that ends it. -/
theorem takeWhile_run {x : Char} (hrun : ∀ c ∈ run, p c = true) (hx : p x = false)
    (tail : List Char) : (run ++ x :: tail).takeWhile p = run ∧
      (run ++ x :: tail).dropWhile p = x :: tail := by
  rw [List.takeWhile_append_of_pos hrun, List.dropWhile_append_of_pos hrun]
  simp [hx]

theorem takeWhile_all (hrun : ∀ c ∈ run, p c = true) : run.takeWhile p = run ∧ run.dropWhile p = [] := by
  have htake := @List.takeWhile_append_of_pos _ p run [] hrun
  have hdrop := @List.dropWhile_append_of_pos _ p run [] hrun
  simpa using And.intro htake hdrop

theorem mem_takeWhile {c : Char} (h : c ∈ cs.takeWhile p) : p c = true :=
  List.all_eq_true.1 List.all_takeWhile c h

end Runs

section Operators

variable {c : Char} {cs : List Char} {kind alone joined : TokenKind}

theorem operators_long : ∀ o ∈ operators, o.1.length ≤ 1 ∨
    o.1.tail = ['='] ∧ (o.1.head?.bind comparison?).isSome = true := by
  decide

/-- How an operator begins. -/
theorem operators_first : ∀ o ∈ operators, (o.1.head?.bind punctuation?).isSome = true ∨
    (o.1.head?.bind comparison?).isSome = true ∨ o.1 = ['/'] := by
  decide

theorem punctuation_operator (h : punctuation? c = some kind) : ([c], kind) ∈ operators := by
  unfold punctuation? at h
  split at h <;> cases h <;> decide

theorem comparison_operator (h : comparison? c = some (alone, joined)) :
    ([c], alone) ∈ operators ∧ ([c, '='], joined) ∈ operators := by
  unfold comparison? at h
  split at h <;> cases h <;> decide

theorem longest_single (h : ([c], kind) ∈ operators)
    (hc : comparison? c = none ∨ ∀ d ∈ cs.head?, d ≠ '=') : Longest IsOperator [c] cs := by
  refine ⟨⟨kind, h⟩, fun longer ⟨kind', hlonger⟩ hpre => ?_⟩
  rcases operators_long _ hlonger with hshort | ⟨htail, hhead⟩
  · exact hshort
  · obtain ⟨d, ds, rfl⟩ : ∃ d ds, longer = d :: ds := by
      cases longer with
      | nil => cases htail
      | cons d ds => exact ⟨d, ds, rfl⟩
    obtain rfl : ds = ['='] := htail
    obtain ⟨rfl, hequal⟩ := List.cons_prefix_cons.1 hpre
    rcases hc with hnone | hother
    · simp [hnone] at hhead
    · obtain ⟨tail, rfl⟩ := hequal
      exact absurd rfl (hother '=' rfl)

theorem longest_joined (h : ([c, '='], kind) ∈ operators) : Longest IsOperator [c, '='] cs := by
  refine ⟨⟨kind, h⟩, fun longer ⟨kind', hlonger⟩ _ => ?_⟩
  have hmost : ∀ o ∈ operators, o.1.length ≤ 2 := by decide
  exact hmost _ hlonger

theorem lexeme_operator {text : List Char} (h : Longest IsOperator text cs)
    (hk : (text, kind) ∈ operators) (hslash : ∀ tail, text ≠ '/' :: tail) :
    Lexeme text cs (.token kind none) := by
  have hne : ∀ o ∈ operators, o.1 ≠ [] := by decide
  obtain ⟨c, tail, rfl⟩ := List.exists_cons_of_ne_nil (hne _ hk)
  have hc (d : Char) : ¬ ['/', d] <+: c :: tail ++ cs := by
    intro hpre
    obtain ⟨rfl, _⟩ := List.cons_prefix_cons.1 hpre
    exact hslash tail rfl
  exact .operator h hk (hc '/') (hc '*')

end Operators

section Numerals

variable {c : Char} {cs : List Char}

theorem not_point {d : Char} (hd : d.isDigit = true) : (d != '.') = true := by
  have hne : d ≠ '.' := by
    rintro rfl
    revert hd
    decide
  simpa using hne

theorem decimalValue_whole {whole : List Char} (h : ∀ d ∈ whole, d.isDigit = true) :
    decimalValue whole = Decimal.toFloat (Span.digitsValue (whole ++ [])) 0 := by
  have hrun := takeWhile_all fun d hd => not_point (h d hd)
  unfold decimalValue
  rw [hrun.1, hrun.2]
  rfl

theorem decimalValue_fraction {whole : List Char} (h : ∀ d ∈ whole, d.isDigit = true)
    (fraction : List Char) :
    decimalValue (whole ++ '.' :: fraction) =
      Decimal.toFloat (Span.digitsValue (whole ++ fraction)) (-(fraction.length : Int)) := by
  have hrun := takeWhile_run (fun d hd => not_point (h d hd))
    (show ('.' != '.') = false by decide) fraction
  unfold decimalValue
  rw [hrun.1, hrun.2]
  rfl

theorem isDigits_cons (hc : c.isDigit = true) (cs : List Char) :
    IsDigits (c :: cs.takeWhile Char.isDigit) := by
  refine ⟨by simp, fun d hd => ?_⟩
  rcases List.mem_cons.1 hd with rfl | hd
  · exact hc
  · exact mem_takeWhile hd

/-- A numeral in front of a text is made of its first digits, and of those after a point behind them. -/
theorem numeral_prefix {longer cs : List Char} (h : IsNumeral longer) (hpre : longer <+: cs) :
    longer.length ≤ (cs.takeWhile Char.isDigit).length ∨
      ∃ d rest fraction, cs.dropWhile Char.isDigit = '.' :: d :: rest ∧ d.isDigit = true ∧
        longer = cs.takeWhile Char.isDigit ++ '.' :: fraction ∧
        fraction.length ≤ ((d :: rest).takeWhile Char.isDigit).length := by
  rcases h with h | ⟨whole, fraction, hwhole, hfraction, rfl⟩
  · exact .inl (length_le_takeWhile h.2 hpre)
  · obtain ⟨tail, rfl⟩ := hpre
    have hrun := takeWhile_run hwhole.2 (show Char.isDigit '.' = false by decide) (fraction ++ tail)
    obtain ⟨d, ds, rfl⟩ := List.exists_cons_of_ne_nil hfraction.1
    simp only [List.append_assoc, List.cons_append] at hrun ⊢
    rw [hrun.1, hrun.2]
    refine .inr ⟨d, ds ++ tail, d :: ds, rfl, hfraction.2 d List.mem_cons_self, rfl, ?_⟩
    exact length_le_takeWhile hfraction.2 (List.prefix_append (d :: ds) tail)

theorem cutNumeral_fraction {d : Char} {rest : List Char}
    (h : cs.dropWhile Char.isDigit = '.' :: d :: rest) (hd : d.isDigit = true) :
    Span.cutNumeral c cs =
      let whole := c :: cs.takeWhile Char.isDigit
      let fraction := d :: rest.takeWhile Char.isDigit
      (Span.numeral whole fraction (whole ++ '.' :: fraction), rest.dropWhile Char.isDigit) := by
  unfold Span.cutNumeral
  rw [h]
  simp only [if_pos hd]

theorem cutNumeral_whole
    (h : ∀ d rest, cs.dropWhile Char.isDigit = '.' :: d :: rest → ¬ d.isDigit = true) :
    Span.cutNumeral c cs =
      let whole := c :: cs.takeWhile Char.isDigit
      (Span.numeral whole [] whole, cs.dropWhile Char.isDigit) := by
  unfold Span.cutNumeral
  split
  next d rest hrest => rw [if_neg (h d rest hrest), hrest]
  next => rfl

theorem cutNumeral_longest (hc : c.isDigit = true) (cs : List Char) :
    let cut := Span.cutNumeral c cs
    Longest IsNumeral cut.1.text cut.2 ∧
      cut.1.cls = .token .number (some (.number (decimalValue cut.1.text))) := by
  have happend := Span.cutNumeral_append c cs
  have hwhole := isDigits_cons hc cs
  have htake : (c :: cs).takeWhile Char.isDigit = c :: cs.takeWhile Char.isDigit := by simp [hc]
  have hdrop : (c :: cs).dropWhile Char.isDigit = cs.dropWhile Char.isDigit := by simp [hc]
  by_cases hpoint : ∃ d rest, cs.dropWhile Char.isDigit = '.' :: d :: rest ∧ d.isDigit = true
  · obtain ⟨d, rest, hrest, hd⟩ := hpoint
    rw [cutNumeral_fraction hrest hd] at happend ⊢
    have hvalue := decimalValue_fraction hwhole.2 (d :: rest.takeWhile Char.isDigit)
    refine ⟨⟨.inr ⟨_, _, hwhole, isDigits_cons hd rest, rfl⟩, fun longer hl hpre => ?_⟩, ?_⟩
    · have hpre : longer <+: c :: cs := happend ▸ hpre
      have hfraction : (d :: rest).takeWhile Char.isDigit = d :: rest.takeWhile Char.isDigit := by
        simp [hd]
      rcases numeral_prefix hl hpre with hle | ⟨d', rest', fraction, heq, _, rfl, hle⟩
      · rw [htake] at hle
        refine Nat.le_trans hle ?_
        show _ ≤ (_ ++ '.' :: d :: rest.takeWhile Char.isDigit).length
        rw [List.length_append]
        exact Nat.le_add_right _ _
      · rw [hdrop, hrest] at heq
        obtain ⟨rfl, rfl⟩ : d = d' ∧ rest = rest' := by simpa using heq
        rw [hfraction] at hle
        show _ ≤ (_ ++ '.' :: d :: rest.takeWhile Char.isDigit).length
        rw [htake, List.length_append, List.length_append]
        exact Nat.add_le_add_left (Nat.succ_le_succ hle) _
    · exact (congrArg (fun v => SpanClass.token .number (some (.number v))) hvalue).symm
  · have hnone (d : Char) (rest : List Char)
        (hrest : cs.dropWhile Char.isDigit = '.' :: d :: rest) : ¬ d.isDigit = true :=
      fun hd => hpoint ⟨d, rest, hrest, hd⟩
    rw [cutNumeral_whole hnone] at happend ⊢
    refine ⟨⟨.inl hwhole, fun longer hl hpre => ?_⟩, ?_⟩
    · have hpre : longer <+: c :: cs := happend ▸ hpre
      rcases numeral_prefix hl hpre with hle | ⟨d', rest', fraction, heq, hd', _⟩
      · rwa [htake] at hle
      · exact absurd hd' (hnone d' rest' (hdrop ▸ heq))
    · exact (congrArg (fun v => SpanClass.token .number (some (.number v)))
        (decimalValue_whole hwhole.2)).symm

end Numerals

section Words

variable {c : Char} {cs : List Char}

theorem longest_word (hc : isWordStart c = true) :
    Longest IsWord (c :: cs.takeWhile isWordPart) (cs.dropWhile isWordPart) := by
  refine ⟨⟨c, _, rfl, hc, fun d hd => mem_takeWhile hd⟩, ?_⟩
  rintro longer ⟨d, ds, rfl, _, hds⟩ hpre
  rw [List.cons_append, List.takeWhile_append_dropWhile] at hpre
  obtain ⟨rfl, hds'⟩ := List.cons_prefix_cons.1 hpre
  exact Nat.succ_le_succ (length_le_takeWhile hds hds')

theorem word_lexeme {text rest : List Char} (h : Longest IsWord text rest) :
    Lexeme text rest (Span.word text).cls := by
  have hmem (kind : TokenKind) (hl : keywords.lookup (String.ofList text) = some kind) :
      (String.ofList text, kind) ∈ keywords := by
    obtain ⟨before, after, hsplit, _⟩ := List.lookup_eq_some_iff.1 hl
    rw [hsplit]
    simp
  unfold Span.word
  split
  next hl => exact .keyword h (hmem _ hl)
  next hl => exact .keyword h (hmem _ hl)
  next kind htrue hfalse hl =>
    have hliteral : wordLiteral kind = none := by
      unfold wordLiteral
      split
      · exact absurd rfl htrue
      · exact absurd rfl hfalse
      · rfl
    have hkeyword := Lexeme.keyword h (hmem _ hl)
    rw [hliteral] at hkeyword
    exact hkeyword
  next hl =>
    refine .identifier h fun kind hk => ?_
    simpa using List.lookup_eq_none_iff.1 hl _ hk

end Words

section Marks

variable {cs : List Char}

theorem cutString_lexeme :
    Lexeme (Span.cutString cs).1.text (Span.cutString cs).2 (Span.cutString cs).1.cls := by
  have hinside : '"' ∉ cs.takeWhile (· != '"') := fun h => by simpa using mem_takeWhile h
  unfold Span.cutString
  split
  · exact .string hinside
  · exact .openString hinside

theorem closeComment?_cons {c : Char} (h : ¬ ['*', '/'] <+: c :: cs) :
    Span.closeComment? (c :: cs) = (Span.closeComment? cs).map fun r => (c :: r.1, r.2) := by
  rw [Span.closeComment?]
  rintro tail rfl rfl
  exact h (List.prefix_append ['*', '/'] tail)

theorem closeComment?_here {c : Char} (h : ['*', '/'] <+: c :: cs) :
    ∃ rest, cs = '/' :: rest ∧ Span.closeComment? (c :: cs) = some (['*', '/'], rest) := by
  obtain ⟨rest, heq⟩ := h
  obtain ⟨rfl, rfl⟩ := List.cons.inj heq
  exact ⟨rest, rfl, rfl⟩

/-- A comment is closed by the first closing mark there is. -/
theorem closeComment?_first {inside rest : List Char}
    (h : Span.closeComment? cs = some (inside, rest)) :
    ∃ body, inside = body ++ ['*', '/'] ∧ EndsFirst body := by
  induction cs generalizing inside rest with
  | nil => cases h
  | cons c cs ih =>
    by_cases hpre : ['*', '/'] <+: c :: cs
    · obtain ⟨rest', _, hclose⟩ := closeComment?_here hpre
      rw [hclose] at h
      obtain ⟨rfl, rfl⟩ := Prod.mk.inj (Option.some.inj h)
      refine ⟨[], rfl, fun hinfix => ?_⟩
      have := hinfix.length_le
      simp at this
    · rw [closeComment?_cons hpre] at h
      obtain ⟨⟨inside', rest'⟩, hclose, heq⟩ := Option.map_eq_some_iff.1 h
      obtain ⟨rfl, rfl⟩ := Prod.mk.inj heq
      obtain ⟨body, rfl, hbody⟩ := ih hclose
      refine ⟨c :: body, rfl, fun hinfix => ?_⟩
      rcases List.infix_cons_iff.1 hinfix with hfirst | hlater
      · -- The slash would stand in the text that the comment is cut from.
        obtain ⟨rfl, hslash⟩ := List.cons_prefix_cons.1 hfirst
        rw [← Span.closeComment?_append hclose] at hpre
        cases body with
        | nil =>
          obtain ⟨hne, _⟩ := List.cons_prefix_cons.1 hslash
          cases hne
        | cons d body =>
          obtain ⟨rfl, _⟩ := List.cons_prefix_cons.1 hslash
          exact hpre (List.prefix_append ['*', '/'] _)
      · exact hbody hlater

theorem closeComment?_none (h : Span.closeComment? cs = none) : ¬ ['*', '/'] <:+: cs := by
  induction cs with
  | nil =>
    intro hinfix
    have := hinfix.length_le
    simp at this
  | cons c cs ih =>
    by_cases hpre : ['*', '/'] <+: c :: cs
    · obtain ⟨rest', _, hclose⟩ := closeComment?_here hpre
      rw [hclose] at h
      cases h
    · rw [closeComment?_cons hpre] at h
      intro hinfix
      rcases List.infix_cons_iff.1 hinfix with hfirst | hlater
      · exact hpre hfirst
      · exact ih (Option.map_eq_none_iff.1 h) hlater

theorem cutSlash_lexeme :
    Lexeme (Span.cutSlash cs).1.text (Span.cutSlash cs).2 (Span.cutSlash cs).1.cls := by
  unfold Span.cutSlash
  split
  next cs =>
    refine .lineComment (fun h => by simpa using mem_takeWhile h) fun d hd => ?_
    have hhead := List.head?_dropWhile_not (· != '\n') cs
    rw [hd] at hhead
    simpa using hhead
  next cs =>
    split
    next inside rest hclose =>
      obtain ⟨body, rfl, hfirst⟩ := closeComment?_first hclose
      exact .blockComment hfirst
    next hclose => exact .openComment (closeComment?_none hclose)
  next hline hblock =>
    have hnext (d : Char) (hd : ['/', d] <+: ['/'] ++ cs) : ∃ rest, cs = d :: rest := by
      obtain ⟨_, rest, heq⟩ := List.cons_prefix_cons.1 hd
      exact ⟨rest, heq.symm⟩
    have hmem : (['/'], TokenKind.slash) ∈ operators := by decide
    refine .operator (longest_single hmem (.inl rfl)) hmem (fun h => ?_) fun h => ?_
    · obtain ⟨rest, rfl⟩ := hnext '/' h
      exact hline rest rfl
    · obtain ⟨rest, rfl⟩ := hnext '*' h
      exact hblock rest rfl

end Marks

section Cut

variable {c : Char} {cs : List Char}

/-- What is cut off a text is a lexeme in front of what is left. -/
theorem cut_lexeme (c : Char) (cs : List Char) :
    Lexeme (Span.cut c cs).1.text (Span.cut c cs).2 (Span.cut c cs).1.cls := by
  unfold Span.cut
  split
  next kind hpunctuation =>
    have hmem := punctuation_operator hpunctuation
    have hc : comparison? c = none ∧ c ≠ '/' := by
      unfold punctuation? at hpunctuation
      split at hpunctuation <;> first | exact ⟨rfl, by decide⟩ | cases hpunctuation
    exact lexeme_operator (longest_single hmem (.inl hc.1)) hmem fun _ h => hc.2 (List.cons.inj h).1
  split
  next hpunctuation _ alone joined hcomparison =>
    obtain ⟨halone, hjoined⟩ := comparison_operator hcomparison
    have hc : c ≠ '/' := by
      rintro rfl
      cases hcomparison
    split
    · exact lexeme_operator (longest_joined hjoined) hjoined fun _ h => hc (List.cons.inj h).1
    next hother =>
      refine lexeme_operator (longest_single halone (.inr fun d hd => ?_)) halone fun _ h =>
        hc (List.cons.inj h).1
      rintro rfl
      obtain ⟨rest, rfl⟩ : ∃ rest, cs = '=' :: rest := by
        cases cs with
        | nil => cases hd
        | cons e cs => exact ⟨cs, by simpa using hd⟩
      exact hother rest rfl
  split
  next hblank => exact .blank hblank
  split
  · exact cutSlash_lexeme
  split
  · exact cutString_lexeme
  split
  next hdigit =>
    obtain ⟨hlongest, hcls⟩ := cutNumeral_longest hdigit cs
    exact hcls ▸ .number hlongest
  split
  next hstart =>
    rw [Span.text_word]
    exact word_lexeme (longest_word hstart)
  next _ hpunctuation _ hcomparison hblank hslash hquote hdigit hstart =>
    refine .unexpected ⟨fun o ho hhead => ?_, by simpa using hdigit, by simpa using hstart,
      by simpa using hquote, by simpa using hblank⟩
    rcases operators_first o ho with h | h | h
    · simp [hhead, hpunctuation] at h
    · simp [hhead, hcomparison] at h
    · rw [h] at hhead
      obtain rfl : '/' = c := by simpa using hhead
      exact absurd rfl hslash

theorem cut_plain (hp : punctuation? c = none) (hc : comparison? c = none) : Span.cut c cs =
    if isBlank c then (⟨.blank, [c]⟩, cs)
    else if c == '/' then Span.cutSlash cs
    else if c == '"' then Span.cutString cs
    else if c.isDigit then Span.cutNumeral c cs
    else if isWordStart c then
      (Span.word (c :: cs.takeWhile isWordPart), cs.dropWhile isWordPart)
    else (⟨.fault .unexpectedCharacter, [c]⟩, cs) := by
  unfold Span.cut
  rw [hp, hc]

theorem comparison_plain {alone joined : TokenKind} (hc : comparison? c = some (alone, joined)) :
    punctuation? c = none ∧ c ≠ '\n' := by
  unfold comparison? at hc
  split at hc <;> first | exact ⟨rfl, by decide⟩ | cases hc

theorem cut_joined {alone joined : TokenKind} (hc : comparison? c = some (alone, joined)) :
    Span.cut c ('=' :: cs) = (Span.ofToken joined [c, '='], cs) := by
  unfold Span.cut
  rw [(comparison_plain hc).1, hc]
  rfl

theorem cut_alone {alone joined : TokenKind} (hc : comparison? c = some (alone, joined))
    (hcs : cs.head? ≠ some '=') : Span.cut c cs = (Span.ofToken alone [c], cs) := by
  unfold Span.cut
  rw [(comparison_plain hc).1, hc]
  simp only
  split
  · exact absurd rfl hcs
  · rfl

theorem nothing_plain (h : ∀ o ∈ operators, o.1.head? ≠ some c) :
    punctuation? c = none ∧ comparison? c = none ∧ c ≠ '/' := by
  refine ⟨?_, ?_, ?_⟩
  · cases hp : punctuation? c with
    | none => rfl
    | some kind => exact absurd rfl (h _ (punctuation_operator hp))
  · cases hc : comparison? c with
    | none => rfl
    | some kinds => exact absurd rfl (h _ (comparison_operator hc).1)
  · rintro rfl
    exact h (['/'], .slash) (by decide) rfl

/-- A character of another class is no operator. -/
theorem plain_of {p : Char → Bool} (hc : p c = true)
    (hp : ∀ o ∈ operators, (o.1.head?.any p) = false) :
    punctuation? c = none ∧ comparison? c = none ∧ c ≠ '/' := by
  refine nothing_plain fun o ho hhead => ?_
  simpa [hhead, hc] using hp o ho

theorem cut_operator {text rest : List Char} {kind : TokenKind} (h : Longest IsOperator text rest)
    (hk : (text, kind) ∈ operators) (hline : ¬ ['/', '/'] <+: text ++ rest)
    (hblock : ¬ ['/', '*'] <+: text ++ rest) (heq : text ++ rest = c :: cs) :
    Span.cut c cs = (Span.ofToken kind text, rest) := by
  have hkinds : ∀ o ∈ operators, ∀ o' ∈ operators, o.1 = o'.1 → o.2 = o'.2 := by decide
  have hother {text' rest' : List Char} {kind' : TokenKind} (h' : Longest IsOperator text' rest')
      (hk' : (text', kind') ∈ operators) (heq' : text' ++ rest' = c :: cs) :
      (Span.ofToken kind' text', rest') = (Span.ofToken kind text, rest) := by
    obtain ⟨rfl, rfl⟩ := h'.unique h (heq'.trans heq.symm)
    obtain rfl : kind' = kind := hkinds _ hk' _ hk rfl
    rfl
  unfold Span.cut
  split
  next kind' hpunctuation =>
    have hmem := punctuation_operator hpunctuation
    have hc : comparison? c = none := by
      unfold punctuation? at hpunctuation
      split at hpunctuation <;> first | rfl | cases hpunctuation
    exact hother (longest_single hmem (.inl hc)) hmem rfl
  next hpunctuation =>
  split
  next alone joined hcomparison =>
    obtain ⟨halone, hjoined⟩ := comparison_operator hcomparison
    split
    next cs => exact hother (longest_joined hjoined) hjoined rfl
    next hequal =>
      refine hother (longest_single halone (.inr fun d hd => ?_)) halone rfl
      rintro rfl
      obtain ⟨tail, rfl⟩ : ∃ tail, cs = '=' :: tail := by
        cases cs with
        | nil => cases hd
        | cons e cs => exact ⟨cs, by simpa using hd⟩
      exact hequal tail rfl
  next hcomparison =>
    -- What is left is the slash, which no comment begins with here.
    have hfirst : text.head? = some c := by
      have hne : ∀ o ∈ operators, o.1 ≠ [] := by decide
      obtain ⟨d, tail, rfl⟩ := List.exists_cons_of_ne_nil (hne _ hk)
      exact congrArg some (List.cons.inj heq).1
    rcases operators_first _ hk with h | h | h
    · simp [hfirst, hpunctuation] at h
    · simp [hfirst, hcomparison] at h
    · obtain rfl : text = ['/'] := h
      obtain ⟨rfl, rfl⟩ := List.cons.inj heq
      obtain rfl : TokenKind.slash = kind := hkinds (['/'], .slash) (by decide) _ hk rfl
      show Span.cutSlash rest = _
      rcases rest with _ | ⟨d, rest⟩
      · rfl
      · have hslash : d ≠ '/' := fun hd => hline (hd ▸ List.prefix_append ['/', '/'] rest)
        have hstar : d ≠ '*' := fun hd => hblock (hd ▸ List.prefix_append ['/', '*'] rest)
        simp [Span.cutSlash, hslash, hstar]

theorem blank_cases (h : isBlank c = true) : c = ' ' ∨ c = '\r' ∨ c = '\t' ∨ c = '\n' := by
  simpa [isBlank, or_assoc] using h

theorem not_digit_of_wordStart (hc : isWordStart c = true) : ¬ c.isDigit = true := by
  intro hdigit
  have hle : '0'.val ≤ c.val ∧ c.val ≤ '9'.val := by simpa [Char.isDigit] using hdigit
  have hupper (h : c.isUpper = true) : 'A'.val ≤ c.val := (of_decide_eq_true h).1
  have hlower (h : c.isLower = true) : 'a'.val ≤ c.val :=
    of_decide_eq_true ((Bool.and_eq_true _ _).mp h).1
  rcases (Bool.or_eq_true _ _).mp hc with hc | hc
  · have h9 : '9'.val < 'A'.val ∧ '9'.val < 'a'.val := by decide
    rcases (Bool.or_eq_true _ _).mp hc with hc | hc
    · exact UInt32.lt_irrefl _ (UInt32.lt_of_lt_of_le h9.1 (UInt32.le_trans (hupper hc) hle.2))
    · exact UInt32.lt_irrefl _ (UInt32.lt_of_lt_of_le h9.2 (UInt32.le_trans (hlower hc) hle.2))
  · obtain rfl := eq_of_beq hc
    revert hdigit
    decide

theorem cut_blank (hc : isBlank c = true) : Span.cut c cs = (⟨.blank, [c]⟩, cs) := by
  obtain ⟨hp, hcomparison, _⟩ := plain_of hc (by decide)
  rw [cut_plain hp hcomparison, if_pos hc]

theorem cut_digit (hc : c.isDigit = true) : Span.cut c cs = Span.cutNumeral c cs := by
  obtain ⟨hp, hcomparison, hslash⟩ := plain_of hc (by decide)
  have hblank : ¬ isBlank c = true := by
    intro hblank
    rcases blank_cases hblank with rfl | rfl | rfl | rfl <;> revert hc <;> decide
  have hquote : c ≠ '"' := by
    rintro rfl
    revert hc
    decide
  rw [cut_plain hp hcomparison, if_neg hblank, if_neg (by simpa using hslash),
    if_neg (by simpa using hquote), if_pos hc]

theorem cut_word (hc : isWordStart c = true) : Span.cut c cs =
    (Span.word (c :: cs.takeWhile isWordPart), cs.dropWhile isWordPart) := by
  obtain ⟨hp, hcomparison, hslash⟩ := plain_of hc (by decide)
  have hblank : ¬ isBlank c = true := by
    intro hblank
    rcases blank_cases hblank with rfl | rfl | rfl | rfl <;> revert hc <;> decide
  have hquote : c ≠ '"' := by
    rintro rfl
    revert hc
    decide
  rw [cut_plain hp hcomparison, if_neg hblank, if_neg (by simpa using hslash),
    if_neg (by simpa using hquote), if_neg (not_digit_of_wordStart hc), if_pos hc]

theorem closeComment?_body {inside rest : List Char} (h : EndsFirst inside) :
    Span.closeComment? (inside ++ '*' :: '/' :: rest) = some (inside ++ ['*', '/'], rest) := by
  induction inside with
  | nil => rfl
  | cons c inside ih =>
    have hpre : ¬ ['*', '/'] <+: c :: (inside ++ '*' :: '/' :: rest) := by
      intro hpre
      obtain ⟨rfl, hslash⟩ := List.cons_prefix_cons.1 hpre
      cases inside with
      | nil =>
        obtain ⟨hne, _⟩ := List.cons_prefix_cons.1 hslash
        cases hne
      | cons d inside =>
        obtain ⟨rfl, _⟩ := List.cons_prefix_cons.1 hslash
        exact h (List.prefix_append ['*', '/'] (inside ++ ['*'])).isInfix
    have hinside : EndsFirst inside := fun hinfix => h (List.infix_cons_iff.2 (.inr hinfix))
    rw [List.cons_append, closeComment?_cons hpre, ih hinside]
    rfl

theorem closeComment?_open (h : ¬ ['*', '/'] <:+: cs) : Span.closeComment? cs = none := by
  cases hclose : Span.closeComment? cs with
  | none => rfl
  | some found =>
    obtain ⟨inside, rest⟩ := found
    obtain ⟨body, rfl, _⟩ := closeComment?_first hclose
    rw [← Span.closeComment?_append hclose] at h
    exact absurd ⟨body, rest, rfl⟩ h

theorem numeral_first {text : List Char} (h : IsNumeral text) :
    ∃ c tail, text = c :: tail ∧ c.isDigit = true := by
  have hfirst {digits : List Char} (h : IsDigits digits) (more : List Char) :
      ∃ c tail, digits ++ more = c :: tail ∧ c.isDigit = true := by
    obtain ⟨c, tail, rfl⟩ := List.exists_cons_of_ne_nil h.1
    exact ⟨c, tail ++ more, rfl, h.2 c List.mem_cons_self⟩
  rcases h with h | ⟨whole, fraction, hwhole, _, rfl⟩
  · simpa using hfirst h []
  · exact hfirst hwhole _

/-- A word is cut off as long as it is. -/
theorem cut_longest_word {text rest : List Char} (h : Longest IsWord text rest) :
    ∃ c cs, text ++ rest = c :: cs ∧ Span.cut c cs = (Span.word text, rest) := by
  obtain ⟨c, tail, rfl, hc, _⟩ := h.fits
  refine ⟨c, tail ++ rest, rfl, ?_⟩
  have hall : c :: (tail ++ rest).takeWhile isWordPart ++ (tail ++ rest).dropWhile isWordPart =
      c :: tail ++ rest := by simp
  obtain ⟨htext, hrest⟩ := (longest_word hc).unique h hall
  rw [cut_word hc, htext, hrest]

theorem word_keyword {text : List Char} {kind : TokenKind}
    (h : (String.ofList text, kind) ∈ keywords) :
    Span.word text = ⟨.token kind (wordLiteral kind), text⟩ := by
  have hkeywords : ∀ p ∈ keywords, keywords.lookup p.1 = some p.2 := by decide
  unfold Span.word
  rw [hkeywords _ h]
  cases kind <;> rfl

theorem word_identifier {text : List Char} (h : ∀ kind, (String.ofList text, kind) ∉ keywords) :
    Span.word text = ⟨.token .identifier none, text⟩ := by
  have hnone : keywords.lookup (String.ofList text) = none := by
    rw [List.lookup_eq_none_iff]
    intro p hp
    rw [bne_iff_ne]
    rintro heq
    exact h p.2 (heq ▸ hp)
  unfold Span.word
  rw [hnone]
  rfl

theorem cut_nothing (h : BeginsNothing c) :
    Span.cut c cs = (⟨.fault .unexpectedCharacter, [c]⟩, cs) := by
  obtain ⟨hoperator, hdigit, hword, hquote, hblank⟩ := h
  obtain ⟨hp, hcomparison, hslash⟩ := nothing_plain hoperator
  rw [cut_plain hp hcomparison]
  simp [hdigit, hword, hquote, hblank, hslash]

/-- In front of a given text there is only one lexeme. -/
theorem lexeme_cut {text rest : List Char} {cls : SpanClass} (h : Lexeme text rest cls) :
    ∃ c cs, text ++ rest = c :: cs ∧ Span.cut c cs = (⟨cls, text⟩, rest) := by
  have hquote {inside : List Char} (h : '"' ∉ inside) : ∀ d ∈ inside, (d != '"') = true := by
    intro d hd
    rw [bne_iff_ne]
    rintro rfl
    exact h hd
  cases h with
  | operator longest hk hline hblock =>
    have hne : ∀ o ∈ operators, o.1 ≠ [] := by decide
    obtain ⟨c, tail, rfl⟩ := List.exists_cons_of_ne_nil (hne _ hk)
    exact ⟨c, tail ++ rest, rfl, cut_operator longest hk hline hblock rfl⟩
  | number longest =>
    obtain ⟨c, tail, rfl, hc⟩ := numeral_first longest.fits
    refine ⟨c, tail ++ rest, rfl, ?_⟩
    have hcut := cutNumeral_longest hc (tail ++ rest)
    have happend := Span.cutNumeral_append c (tail ++ rest)
    rw [cut_digit hc]
    generalize Span.cutNumeral c (tail ++ rest) = cut at hcut happend
    obtain ⟨⟨cls, text⟩, rest'⟩ := cut
    obtain ⟨hlongest, hcls⟩ := hcut
    obtain ⟨rfl, rfl⟩ := hlongest.unique longest happend
    rw [show cls = _ from hcls]
  | keyword longest hk =>
    rw [← word_keyword hk]
    exact cut_longest_word longest
  | identifier longest hk =>
    rw [← word_identifier hk]
    exact cut_longest_word longest
  | @string inside _ hinside =>
    have hrun := takeWhile_run (hquote hinside) (show ('"' != '"') = false by decide) rest
    refine ⟨'"', inside ++ '"' :: rest, by simp, ?_⟩
    show Span.cutString (inside ++ '"' :: rest) = _
    unfold Span.cutString
    rw [hrun.1, hrun.2]
  | blank hc => exact ⟨_, _, rfl, cut_blank hc⟩
  | @lineComment inside _ hinside hrest =>
    refine ⟨'/', '/' :: (inside ++ rest), rfl, ?_⟩
    show Span.cutSlash ('/' :: (inside ++ rest)) = _
    have hrun : ∀ d ∈ inside, (d != '\n') = true := by
      intro d hd
      rw [bne_iff_ne]
      rintro rfl
      exact hinside hd
    rcases rest with _ | ⟨d, rest⟩
    · rw [List.append_nil]
      simp only [Span.cutSlash, takeWhile_all hrun]
    · obtain rfl : d = '\n' := hrest d rfl
      have hsplit := takeWhile_run hrun (show ('\n' != '\n') = false by decide) rest
      simp only [Span.cutSlash, hsplit]
  | @blockComment inside _ hinside =>
    refine ⟨'/', '*' :: (inside ++ '*' :: '/' :: rest), by simp, ?_⟩
    show Span.cutSlash ('*' :: (inside ++ '*' :: '/' :: rest)) = _
    simp only [Span.cutSlash, closeComment?_body hinside, List.cons_append]
  | unexpected hc => exact ⟨_, _, rfl, cut_nothing hc⟩
  | @openString inside hinside =>
    refine ⟨'"', inside, by simp, ?_⟩
    show Span.cutString inside = _
    unfold Span.cutString
    have hrun := takeWhile_all (hquote hinside)
    rw [hrun.1, hrun.2]
  | @openComment inside hinside =>
    refine ⟨'/', '*' :: inside, by simp, ?_⟩
    show Span.cutSlash ('*' :: inside) = _
    simp only [Span.cutSlash, closeComment?_open hinside]

end Cut

/-- The scanner cuts a text into lexemes, and there is no other way to do so. -/
theorem tiles_iff {text : List Char} {ss : List Span} : Tiles text ss ↔ spans text = ss := by
  constructor
  · intro h
    induction h with
    | nil => rw [spans]
    | @cons s rest ss hs _ ih =>
      obtain ⟨c, cs, htext, hcut⟩ := lexeme_cut hs
      rw [htext, spans, hcut, ih]
  · rintro rfl
    induction text using spans.induct with
    | case1 =>
      rw [spans]
      exact .nil
    | case2 c cs ih =>
      rw [spans]
      have htiles := Tiles.cons (cut_lexeme c cs) ih
      rwa [Span.cut_append] at htiles

section Tokens

variable {s : Span} {ss : List Span} {line : Nat}

theorem tokensOf_token {kind : TokenKind} {literal : Option Literal}
    (hcls : s.cls = .token kind literal) : tokensOf (spanItems line (s :: ss)) =
      ⟨kind, String.ofList s.text, literal, line + s.lineBreaks⟩ ::
        tokensOf (spanItems (line + s.lineBreaks) ss) := by
  have hitem : (s.item? (line + s.lineBreaks)).toList.filterMap ScanItem.token? =
      [⟨kind, String.ofList s.text, literal, line + s.lineBreaks⟩] := by
    unfold Span.item?
    rw [hcls]
    rfl
  unfold tokensOf
  rw [spanItems, List.filterMap_append, hitem, List.singleton_append]

theorem tokensOf_other (hcls : ∀ kind literal, s.cls ≠ .token kind literal) :
    tokensOf (spanItems line (s :: ss)) = tokensOf (spanItems (line + s.lineBreaks) ss) := by
  have hitem : (s.item? (line + s.lineBreaks)).toList.filterMap ScanItem.token? = [] := by
    unfold Span.item?
    cases hs : s.cls with
    | token kind literal => exact absurd hs (hcls kind literal)
    | _ => rfl
  unfold tokensOf
  rw [spanItems, List.filterMap_append, hitem, List.nil_append]

/-- Every word of a source is a lexeme of its kind, with the literal that it stands for. -/
theorem wordsOf_lexeme {source : String} {t : Token} (ht : t ∈ wordsOf source) :
    ∃ rest, Lexeme t.lexeme.toList rest (.token t.kind t.literal) := by
  have htiles : Tiles source.toList (spans source.toList) := tiles_iff.2 rfl
  unfold wordsOf at ht
  generalize spans source.toList = ss at ht htiles
  generalize source.toList = text at htiles
  generalize 1 = line at ht
  induction htiles generalizing line with
  | nil => exact absurd ht List.not_mem_nil
  | @cons s rest ss hs _ ih =>
    by_cases hcls : ∃ kind literal, s.cls = .token kind literal
    · obtain ⟨kind, literal, hcls⟩ := hcls
      rw [tokensOf_token hcls] at ht
      rcases List.mem_cons.1 ht with rfl | ht
      · rw [hcls] at hs
        exact ⟨rest, by rwa [String.toList_ofList]⟩
      · exact ih _ ht
    · rw [tokensOf_other fun kind literal h => hcls ⟨kind, literal, h⟩] at ht
      exact ih _ ht

end Tokens

end Lox
