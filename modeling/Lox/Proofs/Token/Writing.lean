import Lox.Proofs.Token.Lexeme

/-!
Writing tokens out with a space between one and the next. No lexeme but a string reaches over a space,
so that scanning finds the tokens again.
-/

namespace Lox

/-- The text is one that the lexical grammar has for a token of the kind, and it denotes the literal. -/
inductive Denotes : List Char → TokenKind → Option Literal → Prop
  | operator {text kind} (h : (text, kind) ∈ operators) : Denotes text kind none
  | keyword {text kind} (h : (String.ofList text, kind) ∈ keywords) :
      Denotes text kind (wordLiteral kind)
  | identifier {text} (hword : IsWord text) (h : ∀ kind, (String.ofList text, kind) ∉ keywords) :
      Denotes text .identifier none
  | number {text} (h : IsNumeral text) : Denotes text .number (some (.number (decimalValue text)))
  | string {inside} (h : '"' ∉ inside) :
      Denotes ('"' :: inside ++ ['"']) .string (some (.string (String.ofList inside)))

namespace Token

/-- The token is one that can be written. -/
def Written (t : Token) : Prop := Denotes t.lexeme.toList t.kind t.literal

/-- The tokens one after the other from the line on, each on the line on which its lexeme ends. -/
def relined (line : Nat) : List Token → List Token
  | [] => []
  | t :: ts =>
    let ending := line + t.lexeme.toList.count '\n'
    { t with line := ending } :: relined ending ts

end Token

/-- The lexemes with a space between one and the next. -/
def spaced (ts : List Token) : String := " ".intercalate (ts.map Token.lexeme)

theorem Lexeme.denotes {text rest : List Char} {kind : TokenKind} {literal : Option Literal}
    (h : Lexeme text rest (.token kind literal)) : Denotes text kind literal := by
  generalize hcls : SpanClass.token kind literal = cls at h
  cases h with
  | operator _ hmem _ _ => cases hcls; exact .operator hmem
  | number longest => cases hcls; exact .number longest.fits
  | keyword _ hmem => cases hcls; exact .keyword hmem
  | identifier longest hno => cases hcls; exact .identifier longest.fits hno
  | string hinside => cases hcls; exact .string hinside
  | _ => cases hcls

/-- Every word of a source can be written again. -/
theorem wordsOf_written (source : String) : ∀ t ∈ wordsOf source, t.Written := fun _ ht =>
  let ⟨_, hlexeme⟩ := wordsOf_lexeme ht
  hlexeme.denotes

section Spaceless

variable {text : List Char}

theorem operator_spaceless (h : IsOperator text) : ' ' ∉ text := by
  have hnone : ∀ o ∈ operators, ' ' ∉ o.1 := by decide
  obtain ⟨kind, hmem⟩ := h
  exact hnone _ hmem

theorem word_spaceless (h : IsWord text) : ' ' ∉ text := by
  obtain ⟨c, cs, rfl, hc, hcs⟩ := h
  intro hmem
  rcases List.mem_cons.1 hmem with rfl | hmem
  · exact absurd hc (by decide)
  · exact absurd (hcs _ hmem) (by decide)

theorem numeral_spaceless (h : IsNumeral text) : ' ' ∉ text := by
  have hdigits {ds : List Char} (h : IsDigits ds) : ' ' ∉ ds := fun hmem =>
    absurd (h.2 _ hmem) (by decide)
  rcases h with h | ⟨whole, fraction, hwhole, hfraction, rfl⟩
  · exact hdigits h
  · simp [hdigits hwhole, hdigits hfraction]

end Spaceless

theorem keyword_isWord {text : List Char} {kind : TokenKind}
    (h : (String.ofList text, kind) ∈ keywords) : IsWord text := by
  have hwords : ∀ p ∈ keywords, p.1.toList.head?.any isWordStart = true ∧
      p.1.toList.tail.all isWordPart = true := by
    decide
  obtain ⟨hfirst, hothers⟩ := hwords _ h
  rw [String.toList_ofList] at hfirst hothers
  cases text with
  | nil => cases hfirst
  | cons c cs => exact ⟨c, cs, rfl, hfirst, List.all_eq_true.1 hothers⟩

section Separate

variable {P : List Char → Prop} {text rest : List Char} (hrest : ∀ c ∈ rest.head?, c = ' ')
include hrest

/-- What never has a space in it ends in front of one. -/
theorem longest_of_spaceless (hP : ∀ {text}, P text → ' ' ∉ text) (h : P text) :
    Longest P text rest := by
  have halone : Longest P text [] :=
    ⟨h, fun longer _ hpre => by simpa using hpre.length_le⟩
  refine halone.change fun d ext hlonger hpre => ?_
  obtain ⟨after, rfl⟩ := hpre
  obtain rfl : d = ' ' := hrest d rfl
  exact absurd (by simp) (hP hlonger)

/-- In front of a space a text is the lexeme that it is by itself. A slash begins no comment there. -/
theorem Denotes.lexeme {kind : TokenKind} {literal : Option Literal} (h : Denotes text kind literal) :
    Lexeme text rest (.token kind literal) := by
  cases h with
  | operator hmem =>
    have hslashes : ∀ o ∈ operators, o.1 = ['/'] ∨ o.1.head? ≠ some '/' := by decide
    have hlongest := longest_of_spaceless hrest operator_spaceless ⟨kind, hmem⟩
    rcases hslashes _ hmem with hslash | hother
    · obtain rfl : text = ['/'] := hslash
      have hcomment (d : Char) (hd : d ≠ ' ') : ¬ ['/', d] <+: ['/'] ++ rest := by
        rintro ⟨after, heq⟩
        obtain rfl : rest = d :: after := by simpa using heq.symm
        exact hd (hrest d rfl)
      exact .operator hlongest hmem (hcomment '/' (by decide)) (hcomment '*' (by decide))
    · refine lexeme_operator hlongest hmem fun tail htext => hother ?_
      rw [htext]
      rfl
  | keyword hmem => exact .keyword (longest_of_spaceless hrest word_spaceless (keyword_isWord hmem)) hmem
  | identifier hword hno =>
    exact .identifier (longest_of_spaceless hrest word_spaceless hword) hno
  | number hnumeral => exact .number (longest_of_spaceless hrest numeral_spaceless hnumeral)
  | string hinside => exact .string hinside

end Separate

def Token.span (t : Token) : Span := ⟨.token t.kind t.literal, t.lexeme.toList⟩

/-- The spans of the tokens and of the spaces between them. -/
def spacedSpans : List Token → List Span
  | [] => []
  | [t] => [t.span]
  | t :: t' :: ts => t.span :: ⟨.blank, [' ']⟩ :: spacedSpans (t' :: ts)

section Spaced

variable {ts : List Token}

theorem spaced_singleton (t : Token) : (spaced [t]).toList = t.lexeme.toList := by
  unfold spaced
  rw [String.toList_intercalate]
  exact List.append_nil _

theorem spaced_cons_cons (t t' : Token) (ts : List Token) :
    (spaced (t :: t' :: ts)).toList = t.lexeme.toList ++ ' ' :: (spaced (t' :: ts)).toList := by
  have hspace : " ".toList = [' '] := rfl
  unfold spaced
  rw [String.toList_intercalate, String.toList_intercalate, hspace]
  simp only [List.map_cons, List.intercalate_cons_cons, List.append_assoc, List.singleton_append]

theorem spaced_toList (ts : List Token) : (spaced ts).toList = (spacedSpans ts).flatMap Span.text := by
  induction ts using spacedSpans.induct with
  | case1 => rfl
  | case2 t => rw [spaced_singleton, spacedSpans, List.flatMap_singleton, Token.span]
  | case3 t t' ts ih =>
    rw [spaced_cons_cons, ih, spacedSpans, List.flatMap_cons, List.flatMap_cons]
    rfl

/-- The spaced tokens are cut where the spaces are, also in front of another space. -/
theorem tiles_spaced (h : ∀ t ∈ ts, t.Written) {tail : List Char} {ss : List Span}
    (htail : Tiles tail ss) (hspace : ∀ c ∈ tail.head?, c = ' ') :
    Tiles ((spacedSpans ts).flatMap Span.text ++ tail) (spacedSpans ts ++ ss) := by
  have hword {t : Token} {rest : List Char} (ht : t.Written) (hrest : ∀ c ∈ rest.head?, c = ' ') :
      Lexeme t.span.text rest t.span.cls := Denotes.lexeme hrest ht
  induction ts using spacedSpans.induct with
  | case1 => exact htail
  | case2 t =>
    rw [spacedSpans, List.flatMap_singleton]
    exact .cons (hword (h t List.mem_cons_self) hspace) htail
  | case3 t t' ts ih =>
    obtain ⟨ht, hts⟩ := List.forall_mem_cons.1 h
    have hblank : Tiles (' ' :: ((spacedSpans (t' :: ts)).flatMap Span.text ++ tail))
        (⟨.blank, [' ']⟩ :: (spacedSpans (t' :: ts) ++ ss)) :=
      Tiles.cons (s := ⟨.blank, [' ']⟩) (.blank rfl) (ih hts)
    have hfirst : ∀ c ∈ (' ' :: ((spacedSpans (t' :: ts)).flatMap Span.text ++ tail)).head?, c = ' ' :=
      fun c hc => (Option.some.inj hc).symm
    have htiles := Tiles.cons (hword ht hfirst) hblank
    rw [spacedSpans, List.flatMap_cons, List.flatMap_cons, List.append_assoc, List.append_assoc]
    exact htiles

section Items

variable (line : Nat) (ss : List Span)

theorem itemsFrom_word (t : Token) : itemsFrom line (t.span :: ss) =
    .token { t with line := line + t.lexeme.toList.count '\n' } ::
      itemsFrom (line + t.lexeme.toList.count '\n') ss := by
  show .token ⟨t.kind, String.ofList t.lexeme.toList, t.literal, _⟩ :: itemsFrom _ ss = _
  rw [String.ofList_toList]
  rfl

theorem itemsFrom_space : itemsFrom line (⟨.blank, [' ']⟩ :: ss) = itemsFrom line ss := rfl

end Items

theorem itemsFrom_spaced (line number : Nat) {blanks : List Span}
    (hblanks : ∀ line, itemsFrom line blanks = [.token (.synthetic .eof "" line)]) :
    itemsFrom line (spacedSpans ts ++ blanks) =
      (Token.relined line (ts ++ [.synthetic .eof "" number])).map .token := by
  induction ts using spacedSpans.induct generalizing line with
  | case1 => exact hblanks line
  | case2 t =>
    rw [spacedSpans, List.singleton_append, itemsFrom_word, hblanks]
    rfl
  | case3 t t' ts ih =>
    rw [spacedSpans, List.cons_append, List.cons_append, itemsFrom_word, itemsFrom_space, ih]
    rfl

/-- The spaces behind the last token are no part of any. -/
theorem scan_of_spaced (h : ∀ t ∈ ts, t.Written) {source : String} {tail : List Char}
    (htail : tail = [] ∨ tail = [' ']) (hsource : source.toList = (spaced ts).toList ++ tail)
    (number : Nat) :
    scan source = (Token.relined 1 (ts ++ [.synthetic .eof "" number])).map .token := by
  have hblanks : ∃ blanks, Tiles tail blanks ∧ (∀ c ∈ tail.head?, c = ' ') ∧
      ∀ line, itemsFrom line blanks = [.token (.synthetic .eof "" line)] := by
    rcases htail with rfl | rfl
    · exact ⟨[], .nil, nofun, fun _ => rfl⟩
    · exact ⟨[⟨.blank, [' ']⟩], Tiles.cons (s := ⟨.blank, [' ']⟩) (.blank rfl) .nil,
        fun c hc => (Option.some.inj hc).symm, fun _ => rfl⟩
  obtain ⟨blanks, htiles, hspace, hitems⟩ := hblanks
  have hspans : spans source.toList = spacedSpans ts ++ blanks := by
    rw [hsource, spaced_toList]
    exact tiles_iff.1 (tiles_spaced h htiles hspace)
  unfold scan
  rw [hspans]
  exact itemsFrom_spaced 1 number hitems

/-- A token without a text at the end is one more space, unless nothing stands before it. -/
theorem spaced_empty (ts : List Token) {e : Token} (he : e.lexeme = "") :
    ∃ tail, (tail = [] ∨ tail = [' ']) ∧ (spaced (ts ++ [e])).toList = (spaced ts).toList ++ tail := by
  have hempty : e.lexeme.toList = [] := by rw [he]; rfl
  cases ts with
  | nil => exact ⟨[], .inl rfl, (spaced_singleton e).trans hempty⟩
  | cons t ts =>
    refine ⟨[' '], .inr rfl, ?_⟩
    induction ts generalizing t with
    | nil =>
      show (spaced [t, e]).toList = _
      rw [spaced_cons_cons, spaced_singleton, spaced_singleton, hempty]
    | cons t' ts ih =>
      show (spaced (t :: t' :: (ts ++ [e]))).toList = _
      have hrest : (spaced (t' :: (ts ++ [e]))).toList = _ := ih t'
      rw [spaced_cons_cons, spaced_cons_cons, hrest, List.append_assoc, List.cons_append]

end Spaced

/-- Tokens that are written out with single spaces between their lexemes are found again as they are,
without a fault, and after them the end mark. That holds for the tokens of every source, and only the
lines on which they stand are other ones. -/
theorem scan_spaced {ts : List Token} (h : ∀ t ∈ ts, t.Written) (source : String) :
    scan (spaced ts) = (Token.relined 1 (ts ++ [endMark (spaced ts)])).map .token ∧
      (∀ t ∈ wordsOf source, t.Written) ∧
      scan (spaced (tokensOf (scan source))) =
        (Token.relined 1 (tokensOf (scan source))).map .token := by
  refine ⟨scan_of_spaced h (.inl rfl) (List.append_nil _).symm _, wordsOf_written source, ?_⟩
  rw [tokensOf_scan]
  obtain ⟨tail, htail, hsource⟩ := spaced_empty (wordsOf source) (e := endMark source) rfl
  exact scan_of_spaced (wordsOf_written source) htail hsource _

/-- Two equals signs, a fraction in three pieces, a name like `or`, and a string over two lines. -/
theorem scan_spaced_unlike :
    scan "/ = = 1 . 5 orchid \"a\nb\" or" =
      [.token ⟨.slash, "/", none, 1⟩, .token ⟨.equal, "=", none, 1⟩, .token ⟨.equal, "=", none, 1⟩,
        .token ⟨.number, "1", some (.number (decimalValue ['1'])), 1⟩, .token ⟨.dot, ".", none, 1⟩,
        .token ⟨.number, "5", some (.number (decimalValue ['5'])), 1⟩,
        .token ⟨.identifier, "orchid", none, 1⟩,
        .token ⟨.string, "\"a\nb\"", some (.string "a\nb"), 2⟩, .token ⟨.or, "or", none, 2⟩,
        .token ⟨.eof, "", none, 2⟩] := by
  let ts : List Token :=
    [⟨.slash, "/", none, 0⟩, ⟨.equal, "=", none, 0⟩, ⟨.equal, "=", none, 0⟩,
      ⟨.number, "1", some (.number (decimalValue ['1'])), 0⟩, ⟨.dot, ".", none, 0⟩,
      ⟨.number, "5", some (.number (decimalValue ['5'])), 0⟩, ⟨.identifier, "orchid", none, 0⟩,
      ⟨.string, "\"a\nb\"", some (.string "a\nb"), 0⟩, ⟨.or, "or", none, 0⟩]
  have hdigit (c : Char) (hc : c.isDigit = true) : IsNumeral [c] :=
    .inl ⟨List.cons_ne_nil _ _, fun d hd => List.mem_singleton.1 hd ▸ hc⟩
  have horchid : IsWord "orchid".toList :=
    ⟨'o', "rchid".toList, rfl, rfl, List.all_eq_true.1 rfl⟩
  have hname : ∀ p ∈ keywords, p.1 ≠ "orchid" := by decide
  have hwritten : ∀ t ∈ ts, t.Written := by
    simp only [ts, List.forall_mem_cons]
    exact ⟨.operator (by decide), .operator (by decide), .operator (by decide),
      .number (hdigit '1' rfl), .operator (by decide), .number (hdigit '5' rfl),
      .identifier horchid fun kind hmem => hname _ hmem rfl, @Denotes.string ['a', '\n', 'b'] (by decide),
      .keyword (by decide), List.forall_mem_nil _⟩
  exact (scan_spaced hwritten "").1

end Lox
