import Lox.Proofs.Syntax.Parts
import Lox.Proofs.Syntax.RoundTrip

/-!
Single words of a printed expression. A word that stands apart from others is scanned as the token that
it comes from, and an expression that is printed as one word is read off it.
-/

namespace Lox

/-- What stands between the words of a printed expression. -/
def delimiters : List Char := [' ', '(', ')']

/-- A text that spaces and parentheses set apart. -/
def Bare (text : List Char) : Prop := text ≠ [] ∧ ∀ c ∈ text, c ∉ delimiters

section Bare

variable {text : List Char}

theorem bare_of_all (h : text ≠ [] ∧ text.all fun c => !delimiters.contains c) : Bare text :=
  ⟨h.1, fun c hc => by simpa using List.all_eq_true.1 h.2 c hc⟩

theorem not_delimiter {p : Char → Bool} (hp : delimiters.all fun c => !p c) {c : Char}
    (hc : p c = true) : c ∉ delimiters := fun hmem => by
  simpa [hc] using List.all_eq_true.1 hp c hmem

theorem word_bare (h : IsWord text) : Bare text := by
  obtain ⟨c, cs, rfl, hc, hcs⟩ := h
  exact ⟨List.cons_ne_nil _ _, List.forall_mem_cons.2
    ⟨not_delimiter (by decide) hc, fun d hd => not_delimiter (by decide) (hcs d hd)⟩⟩

theorem numeral_bare (h : IsNumeral text) : Bare text := by
  have hdigits {ds : List Char} (h : IsDigits ds) : ∀ c ∈ ds, c ∉ delimiters := fun c hc =>
    not_delimiter (by decide) (h.2 c hc)
  rcases h with h | ⟨whole, fraction, hwhole, hfraction, rfl⟩
  · exact ⟨h.1, hdigits h⟩
  · exact ⟨List.append_ne_nil_of_left_ne_nil hwhole.1 _, List.forall_mem_append.2
      ⟨hdigits hwhole, List.forall_mem_cons.2 ⟨by decide, hdigits hfraction⟩⟩⟩

/-- All lexemes are bare but strings and the parentheses themselves. -/
theorem Denotes.bare {kind : TokenKind} {literal : Option Literal} (h : Denotes text kind literal)
    (hkind : kind ∉ [.leftParen, .rightParen, .string]) : Bare text := by
  cases h with
  | operator hmem =>
    have hbare : ∀ o ∈ operators, o.2 ∈ [.leftParen, .rightParen] ∨
        o.1 ≠ [] ∧ o.1.all fun c => !delimiters.contains c := by
      decide
    rcases hbare _ hmem with hparen | hbare
    · exact absurd (List.mem_append_left [TokenKind.string] hparen) hkind
    · exact bare_of_all hbare
  | keyword hmem => exact word_bare (keyword_isWord hmem)
  | identifier hword _ => exact word_bare hword
  | number hnumeral => exact numeral_bare hnumeral
  | string _ => simp at hkind

end Bare

namespace Token

/-- The token that a text begins with, apart from its line. -/
def ofText (text : String) : Token := ((tokensOf (scan text)).headD (endMark text)).unlined

theorem ofText_denotes {text : String} {kind : TokenKind} {literal : Option Literal}
    (h : Denotes text.toList kind literal) : ofText text = ⟨kind, text, literal, 0⟩ := by
  let t : Token := ⟨kind, text, literal, 0⟩
  have hwritten : ∀ t' ∈ [t], t'.Written := List.forall_mem_singleton.2 h
  have hsource : text.toList = (spaced [t]).toList ++ [] := by
    rw [spaced_singleton, List.append_nil]
  have hscan : scan text = (relined 1 ([t] ++ [.synthetic .eof "" 0])).map .token :=
    scan_of_spaced hwritten (.inl rfl) hsource 0
  unfold ofText
  rw [hscan]
  rfl

theorem ofText_keyword {text : String} {kind : TokenKind} (h : (text, kind) ∈ keywords) :
    ofText text = ⟨kind, text, wordLiteral kind, 0⟩ :=
  ofText_denotes (.keyword (by rwa [String.ofList_toList]))

variable {t : Token}

theorem ofText_lexeme (h : t.Written) : ofText t.lexeme = t.unlined := ofText_denotes h

/-- The number that a token stands for has no sign. -/
theorem Written.unsigned (h : t.Written) {x : Float} (hx : t.literal = some (.number x)) :
    Decimal.Unsigned x.toBits := by
  unfold Written at h
  generalize t.lexeme.toList = text, t.kind = kind, t.literal = literal at h hx
  cases h with
  | number h =>
    cases hx
    exact Decimal.toFloat_unsigned _ _
  | @keyword _ kind h => cases kind <;> cases hx
  | _ => cases hx

end Token

theorem Token.Among.bare {t : Token} {kinds : List TokenKind} (h : t.Among Token.Written kinds)
    (hkinds : ∀ kind ∈ kinds, kind ∉ [.leftParen, .rightParen, .string]) : Bare t.lexeme.toList :=
  Denotes.bare h.word (hkinds _ h.kind)

/-- The words that are always the same. -/
def fixedWords : List (String × TokenKind) :=
  operators.map (fun o => (String.ofList o.1, o.2)) ++ keywords

theorem Denotes.fixed {text : List Char} {kind : TokenKind} {literal : Option Literal}
    (h : Denotes text kind literal) (hkind : kind ∉ [.identifier, .number, .string]) :
    (String.ofList text, kind) ∈ fixedWords := by
  cases h with
  | operator hmem => exact List.mem_append_left _ (List.mem_map_of_mem hmem)
  | keyword hmem => exact List.mem_append_right _ hmem
  | _ => simp at hkind

/-- Different ones of the numbers are printed differently. -/
def PrintedApart (xs : List Float) : Prop :=
  ∀ x ∈ xs, ∀ y ∈ xs, (Value.number x).text = (Value.number y).text → x = y

/-- One number is printed in one way. -/
theorem PrintedApart.of_eq {xs : List Float} {x : Float} (h : ∀ y ∈ xs, y = x) : PrintedApart xs :=
  fun y hy z hz _ => (h y hy).trans (h z hz).symm

namespace Expr

/-- The expression that is printed as a word, where the numbers are some of `xs`. Words of other kinds
are taken for names. -/
def ofText (xs : List Float) (text : String) : Expr :=
  let t := Token.ofText text
  match t.kind with
  | .number => ((xs.find? fun x => (Value.number x).text = text).map fun x =>
      .literal (.number x)).getD (.literal .nil)
  | .nil => .literal .nil
  | .true => .literal (.boolean true)
  | .false => .literal (.boolean false)
  | .this => .this ⟨0, t⟩
  | _ => .variable ⟨0, t⟩

section Words

variable {xs : List Float}

theorem ofText_number {x : Float} (hx : x ∈ xs) (happart : PrintedApart xs)
    (hunsigned : Decimal.Unsigned x.toBits) (hlimited : Limited x) :
    ofText xs (Value.number x).text = .literal (.number x) := by
  have hfind : xs.find? (fun y => (Value.number y).text = (Value.number x).text) = some x := by
    cases hy : xs.find? fun y => decide ((Value.number y).text = (Value.number x).text) with
    | none => simpa using List.find?_eq_none.1 hy x hx
    | some y =>
      have htext : (Value.number y).text = (Value.number x).text := by simpa using List.find?_some hy
      rw [happart y (List.mem_of_find?_eq_some hy) x hx htext]
  unfold ofText
  rw [Token.ofText_denotes (.number (text_numeral hunsigned hlimited))]
  simp only [hfind]
  rfl

theorem ofText_nil : ofText xs "nil" = .literal .nil := by
  unfold ofText
  rw [@Token.ofText_keyword "nil" .nil (by decide)]

theorem ofText_boolean (b : Bool) : ofText xs (Value.boolean b).text = .literal (.boolean b) := by
  have htrue : ofText xs "true" = .literal (.boolean true) := by
    unfold ofText
    rw [@Token.ofText_keyword "true" .true (by decide)]
  have hfalse : ofText xs "false" = .literal (.boolean false) := by
    unfold ofText
    rw [@Token.ofText_keyword "false" .false (by decide)]
  cases b with
  | true => exact htrue
  | false => exact hfalse

theorem ofText_this : ofText xs "this" = .this ⟨0, Token.ofText "this"⟩ := by
  unfold ofText
  rw [@Token.ofText_keyword "this" .this (by decide)]

/-- Other words are names, also where they are not so in a text. -/
theorem ofText_name {t : Token} {kinds : List TokenKind} (h : t.Among Token.Written kinds)
    (hkinds : ∀ kind ∈ kinds, kind ∉ [.number, .nil, .true, .false, .this]) :
    ofText xs t.lexeme = .variable ⟨0, t.unlined⟩ := by
  have hkind := hkinds _ h.kind
  simp only [List.mem_cons, List.not_mem_nil, or_false, not_or] at hkind
  obtain ⟨hnumber, hnil, htrue, hfalse, hthis⟩ := hkind
  have hsame : t.unlined.kind = t.kind := rfl
  unfold ofText
  rw [Token.ofText_lexeme h.word]
  simp only [hsame]

end Words

end Expr

theorem numeral_point (whole fraction : List Char)
    (hwhole : whole ≠ [] ∧ whole.all Char.isDigit = true)
    (hfraction : fraction ≠ [] ∧ fraction.all Char.isDigit = true) :
    IsNumeral (whole ++ '.' :: fraction) :=
  .inr ⟨whole, fraction, ⟨hwhole.1, List.all_eq_true.1 hwhole.2⟩,
    ⟨hfraction.1, List.all_eq_true.1 hfraction.2⟩, rfl⟩

theorem Token.written_name {word : String}
    (h : word.toList.head?.any isWordStart = true ∧ word.toList.tail.all isWordPart = true)
    (hno : ∀ p ∈ keywords, p.1 ≠ word) : (Token.fixed .identifier word).Written := by
  have hword : IsWord word.toList := by
    cases htext : word.toList with
    | nil => simp [htext] at h
    | cons c cs =>
      rw [htext] at h
      exact ⟨c, cs, rfl, h.1, List.all_eq_true.1 h.2⟩
  exact .identifier hword fun kind hmem => hno _ hmem String.ofList_toList

/-- What is read of a source that is tokens with spaces between them. -/
theorem Expr.ReadFrom.of_spaced {ts : List Token} {source : String} {e : Expr}
    (hsource : spaced ts = source) (hts : ∀ t ∈ ts, t.Written) (allowExpression : Bool)
    (nextId : NodeId)
    (h : e ∈ (parse (Token.relined 1 (ts ++ [.fixed .eof ""])) allowExpression nextId).program.parts) :
    e.ReadFrom source := by
  subst hsource
  have hitems := scan_of_spaced hts (.inl rfl) (List.append_nil _).symm 0
  have htokens : tokensOf (scan (spaced ts)) = Token.relined 1 (ts ++ [.fixed .eof ""]) := by
    rw [hitems, tokensOf, List.filterMap_map]
    exact List.filterMap_some
  exact ⟨allowExpression, nextId, by rwa [htokens]⟩

end Lox
