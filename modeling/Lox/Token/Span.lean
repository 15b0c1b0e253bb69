import Lox.Diagnostic

namespace Lox

/-- Only letters of ASCII and the underscore begin a word. -/
def isWordStart (c : Char) : Bool := c.isAlpha || c == '_'

def isWordPart (c : Char) : Bool := c.isAlphanum || c == '_'

def isBlank (c : Char) : Bool := c == ' ' || c == '\r' || c == '\t' || c == '\n'

/-- The characters that are tokens whatever follows them. -/
def punctuation? : Char → Option TokenKind
  | '(' => some .leftParen
  | ')' => some .rightParen
  | '\x7b' => some .leftBrace
  | '\x7d' => some .rightBrace
  | ',' => some .comma
  | '.' => some .dot
  | '-' => some .minus
  | '+' => some .plus
  | ';' => some .semicolon
  | '*' => some .star
  | '?' => some .question
  | ':' => some .colon
  | _ => none

/-- The characters that an equals sign may join: their kinds without it and with it. -/
def comparison? : Char → Option (TokenKind × TokenKind)
  | '!' => some (.bang, .bangEqual)
  | '=' => some (.equal, .equalEqual)
  | '<' => some (.less, .lessEqual)
  | '>' => some (.greater, .greaterEqual)
  | _ => none

inductive SpanClass where
  | token (kind : TokenKind) (literal : Option Literal)
  | blank
  | lineComment
  | blockComment
  | fault (fault : LexicalFault)

/-- A piece of the text with what it is. -/
structure Span where
  cls : SpanClass
  text : List Char

namespace Span

def ofToken (kind : TokenKind) (text : List Char) : Span := ⟨.token kind none, text⟩

def word (text : List Char) : Span :=
  match keywords.lookup (String.ofList text) with
  | some .true => ⟨.token .true (some (.boolean true)), text⟩
  | some .false => ⟨.token .false (some (.boolean false)), text⟩
  | some kind => ofToken kind text
  | none => ofToken .identifier text

def digitsValue (digits : List Char) : Nat :=
  digits.foldl (fun n c => 10 * n + (c.toNat - '0'.toNat)) 0

/-- A numeral, from its digits before and after the point. -/
def numeral (whole fraction text : List Char) : Span :=
  let value := Decimal.toFloat (digitsValue (whole ++ fraction)) (-(fraction.length : Int))
  ⟨.token .number (some (.number value)), text⟩

/-- The numeral that begins with the digit `c`. A point belongs to it only before a digit. -/
def cutNumeral (c : Char) (cs : List Char) : Span × List Char :=
  let whole := c :: cs.takeWhile Char.isDigit
  match cs.dropWhile Char.isDigit with
  | '.' :: d :: rest =>
    if d.isDigit then
      let fraction := d :: rest.takeWhile Char.isDigit
      (numeral whole fraction (whole ++ '.' :: fraction), rest.dropWhile Char.isDigit)
    else (numeral whole [] whole, '.' :: d :: rest)
  | rest => (numeral whole [] whole, rest)

/-- The string whose opening quote has been read. There is no escape in it. -/
def cutString (cs : List Char) : Span × List Char :=
  let inside := cs.takeWhile (· != '"')
  match cs.dropWhile (· != '"') with
  | _ :: rest =>
    (⟨.token .string (some (.string (String.ofList inside))), '"' :: inside ++ ['"']⟩, rest)
  | [] => (⟨.fault .unterminatedString, '"' :: inside⟩, [])

/-- The text up to and including the first closing mark of a block comment, and what follows it. -/
def closeComment? : List Char → Option (List Char × List Char)
  | [] => none
  | c :: cs =>
    match c, cs with
    | '*', '/' :: rest => some (['*', '/'], rest)
    | _, _ => (closeComment? cs).map fun (inside, rest) => (c :: inside, rest)

/-- A comment, or the slash alone. The line end belongs to no line comment. -/
def cutSlash : List Char → Span × List Char
  | '/' :: cs => (⟨.lineComment, '/' :: '/' :: cs.takeWhile (· != '\n')⟩, cs.dropWhile (· != '\n'))
  | '*' :: cs =>
    match closeComment? cs with
    | some (inside, rest) => (⟨.blockComment, '/' :: '*' :: inside⟩, rest)
    | none => (⟨.fault .unterminatedComment, '/' :: '*' :: cs⟩, [])
  | cs => (ofToken .slash ['/'], cs)

/-- The span that begins with `c`, and the text after it. -/
def cut (c : Char) (cs : List Char) : Span × List Char :=
  match punctuation? c with
  | some kind => (ofToken kind [c], cs)
  | none =>
    match comparison? c with
    | some (alone, joined) =>
      match cs with
      | '=' :: rest => (ofToken joined [c, '='], rest)
      | _ => (ofToken alone [c], cs)
    | none =>
      if isBlank c then (⟨.blank, [c]⟩, cs)
      else if c == '/' then cutSlash cs
      else if c == '"' then cutString cs
      else if c.isDigit then cutNumeral c cs
      else if isWordStart c then (word (c :: cs.takeWhile isWordPart), cs.dropWhile isWordPart)
      else (⟨.fault .unexpectedCharacter, [c]⟩, cs)

@[simp] theorem text_word (text : List Char) : (word text).text = text := by
  unfold word; split <;> rfl

theorem cutNumeral_append (c : Char) (cs : List Char) :
    (cutNumeral c cs).1.text ++ (cutNumeral c cs).2 = c :: cs := by
  have h := List.takeWhile_append_dropWhile (p := Char.isDigit) (l := cs)
  unfold cutNumeral
  split
  next d rest eq =>
    rw [eq] at h
    split <;> simpa [numeral] using h
  next => simp [numeral, h]

theorem cutString_append (cs : List Char) :
    (cutString cs).1.text ++ (cutString cs).2 = '"' :: cs := by
  have h := List.takeWhile_append_dropWhile (p := (· != '"')) (l := cs)
  unfold cutString
  split
  next q rest eq =>
    have hq : q = '"' := by
      have := List.head?_dropWhile_not (· != '"') cs
      simp_all
    rw [eq, hq] at h
    simpa using h
  next eq => rw [eq] at h; simpa using h

theorem closeComment?_append {cs inside rest : List Char} (h : closeComment? cs = some (inside, rest)) :
    inside ++ rest = cs := by
  induction cs generalizing inside rest with
  | nil => simp [closeComment?] at h
  | cons c cs ih =>
    unfold closeComment? at h
    split at h
    · obtain ⟨rfl, rfl⟩ := Prod.mk.inj (Option.some.inj h)
      rfl
    · obtain ⟨⟨i, r⟩, hi, he⟩ := Option.map_eq_some_iff.1 h
      simp only [Prod.mk.injEq] at he
      obtain ⟨rfl, rfl⟩ := he
      simp [ih hi]

theorem cutSlash_append (cs : List Char) :
    (cutSlash cs).1.text ++ (cutSlash cs).2 = '/' :: cs := by
  unfold cutSlash
  split
  · simp
  · split
    next h => simp [closeComment?_append h]
    · simp
  · rfl

/-- Nothing is lost and nothing is added. -/
theorem cut_append (c : Char) (cs : List Char) : (cut c cs).1.text ++ (cut c cs).2 = c :: cs := by
  unfold cut
  split
  · rfl
  split
  · split <;> rfl
  split
  · rfl
  split
  next h => simp only [beq_iff_eq] at h; subst h; exact cutSlash_append cs
  split
  next h => simp only [beq_iff_eq] at h; subst h; exact cutString_append cs
  split
  · exact cutNumeral_append c cs
  split
  · simp
  · rfl

theorem cut_text_ne_nil (c : Char) (cs : List Char) : (cut c cs).1.text ≠ [] := by
  unfold cut
  split
  · simp [ofToken]
  split
  · split <;> simp [ofToken]
  split
  · simp
  split
  · unfold cutSlash; split
    · simp
    · split <;> simp
    · simp [ofToken]
  split
  · unfold cutString; split <;> simp
  split
  · unfold cutNumeral; split
    · split <;> simp [numeral]
    · simp [numeral]
  split <;> simp

theorem cut_length (c : Char) (cs : List Char) : (cut c cs).2.length < (c :: cs).length := by
  have h := congrArg List.length (cut_append c cs)
  have := List.length_pos_iff.2 (cut_text_ne_nil c cs)
  rw [List.length_append] at h
  omega

end Span

/-- The text as consecutive spans. -/
def spans : List Char → List Span
  | [] => []
  | c :: cs => (Span.cut c cs).1 :: spans (Span.cut c cs).2
termination_by text => text.length
decreasing_by exact Span.cut_length c cs

end Lox
