import Lox.Proofs.Token.Bytes
import Lox.Proofs.Token.Lexeme

/-!
Scanning with an index into the bytes of a text. Every access can miss the bytes here, and every piece
of text that is taken out can have an end within a character.
-/

namespace Lox

/-- Why scanning of bytes comes to no end of its own. -/
inductive PointerStop where
  /-- There is no byte at the index, or no such piece. -/
  | outside
  /-- An end of the piece is not between two characters. -/
  | withinCharacter
  | outOfFuel

/-- The bytes of a text with an index into them. `cuts` are the pieces so far as pairs of indices, the
latest first. -/
structure Pointer where
  bytes : List UInt8
  start : Nat
  curr : Nat
  line : Nat
  pending : Option (TokenKind × Option Literal)
  cuts : List (Nat × Nat)

namespace Pointer

def ofSource (source : String) : Pointer := ⟨source.toByteArray.data.toList, 0, 0, 1, none, []⟩

/-- What has not been passed yet. -/
def ahead (p : Pointer) : List UInt8 := p.bytes.drop p.curr

/-- The index is at an end of the bytes or at a byte that goes on with no character. -/
def isBoundary (p : Pointer) (i : Nat) : Bool :=
  i == 0 || i == p.bytes.length || p.bytes[i]?.any fun b => b < 0x80 || 0xC0 ≤ b

end Pointer

abbrev Pointing (α : Type) := EStateM PointerStop Pointer α

namespace Pointing

def byteAt (i : Nat) : Pointing UInt8 := fun p =>
  match p.bytes[i]? with
  | some b => .ok b p
  | none => .error .outside p

def atEnd : Pointing Bool := fun p => .ok (p.bytes.length ≤ p.curr) p

def move (k : Nat) : Pointing Unit := fun p => .ok () { p with curr := p.curr + k }

def moveTo (i : Nat) : Pointing Unit := fun p => .ok () { p with curr := i }

def advance : Pointing UInt8 := do
  let b ← fun p => byteAt p.curr p
  move 1
  pure b

/-- The next byte, or zero past the end. -/
def peek : Pointing UInt8 := do if ← atEnd then pure 0 else fun p => byteAt p.curr p

def peekNext : Pointing UInt8 := fun p =>
  if p.bytes.length ≤ p.curr + 1 then .ok 0 p else byteAt (p.curr + 1) p

def accept (b : UInt8) : Pointing Bool := do
  if ← atEnd then pure false
  else if (← peek) == b then
    let _ ← advance
    pure true
  else pure false

/-- The bytes from one index up to another. -/
def bytesBetween (i j : Nat) : Pointing (List UInt8) := fun p =>
  if i ≤ j ∧ j ≤ p.bytes.length then .ok ((p.bytes.drop i).take (j - i)) p else .error .outside p

/-- The characters that some bytes are, if both ends of them are between characters. -/
def asText (i j : Nat) (bytes : List UInt8) : Pointing String := fun p =>
  if p.isBoundary i && p.isBoundary j then
    match String.fromUTF8? bytes.toByteArray with
    | some text => .ok text p
    | none => .error .withinCharacter p
  else .error .withinCharacter p

/-- The characters from one index up to another. -/
def textBetween (i j : Nat) : Pointing String := do asText i j (← bytesBetween i j)

def addLines (k : Nat) : Pointing Unit := fun p => .ok () { p with line := p.line + k }

def emit (kind : TokenKind) (literal : Option Literal) : Pointing Unit := fun p =>
  .ok () { p with pending := some (kind, literal) }

/-- Passes the bytes of which a test holds. -/
def passWhile (test : UInt8 → Bool) : Nat → Pointing Unit
  | 0 => throw .outOfFuel
  | n + 1 => do
    if test (← peek) then
      let _ ← advance
      passWhile test n

/-- Passes everything up to a quote, and counts the lines. -/
def passString : Nat → Pointing Unit
  | 0 => throw .outOfFuel
  | n + 1 => do
    if ← atEnd then pure ()
    else if (← peek) == '"'.toUInt8 then pure ()
    else
      if (← advance) == '\n'.toUInt8 then addLines 1
      passString n

/-- The index of the first closing mark of a comment. -/
def closingMark? : List UInt8 → Option Nat
  | [] => none
  | b :: bs =>
    if b == '*'.toUInt8 && bs.head? == some '/'.toUInt8 then some 0
    else (closingMark? bs).map (· + 1)

def lineComment : Pointing (Option LexicalFault) := do
  let p ← get
  match (← bytesBetween p.curr p.bytes.length).idxOf? '\n'.toUInt8 with
  | some k => move k
  | none => move (p.bytes.length - p.curr)
  pure none

def blockComment : Pointing (Option LexicalFault) := do
  let p ← get
  let rest ← bytesBetween p.curr p.bytes.length
  match closingMark? rest with
  | some k =>
    addLines ((rest.take k).count '\n'.toUInt8)
    move (k + 2)
    pure none
  | none =>
    addLines (rest.count '\n'.toUInt8)
    move (p.bytes.length - p.curr)
    pure (some .unterminatedComment)

def slash : Pointing (Option LexicalFault) := do
  if ← accept '/'.toUInt8 then lineComment
  else if ← accept '*'.toUInt8 then blockComment
  else
    emit .slash none
    pure none

def string (n : Nat) : Pointing (Option LexicalFault) := do
  passString n
  if ← atEnd then pure (some .unterminatedString)
  else
    let _ ← advance
    let p ← get
    let inside ← textBetween (p.start + 1) (p.curr - 1)
    emit .string (some (.string inside))
    pure none

def isDigitByte (b : UInt8) : Bool := (byteChar b).isDigit

def isWordByte (b : UInt8) : Bool := isWordPart (byteChar b)

/-- A point is passed only with a digit behind it. -/
def fraction (n : Nat) : Pointing Unit := do
  if (← peek) == '.'.toUInt8 then
    if isDigitByte (← peekNext) then
      let _ ← advance
      passWhile isDigitByte n

def number (n : Nat) : Pointing (Option LexicalFault) := do
  passWhile isDigitByte n
  fraction n
  let p ← get
  let text ← textBetween p.start p.curr
  emit .number (some (.number (decimalValue text.toList)))
  pure none

def word (n : Nat) : Pointing (Option LexicalFault) := do
  passWhile isWordByte n
  let p ← get
  let bytes ← bytesBetween p.start p.curr
  match keywords.find? fun k => utf8 k.1.toList == bytes with
  | some (_, kind) => emit kind (wordLiteral kind)
  | none => emit .identifier none
  pure none

/-- A whole character is passed, however many bytes it has. -/
def unexpected : Pointing (Option LexicalFault) := do
  let p ← get
  let rest ← textBetween p.start p.bytes.length
  let width := (rest.toList.head?.map Char.utf8Size).getD 1
  moveTo (p.start + width)
  pure (some .unexpectedCharacter)

/-- Passes one span and leaves its token pending, if it is one. -/
def span (n : Nat) : Pointing (Option LexicalFault) := do
  let c := byteChar (← advance)
  match punctuation? c with
  | some kind =>
    emit kind none
    pure none
  | none =>
    match comparison? c with
    | some (alone, joined) =>
      if ← accept '='.toUInt8 then emit joined none else emit alone none
      pure none
    | none =>
      if c == ' ' || c == '\r' || c == '\t' then pure none
      else if c == '\n' then
        addLines 1
        pure none
      else if c == '/' then slash
      else if c == '"' then string n
      else if c.isDigit then number n
      else if isWordStart c then word n
      else unexpected

/-- The item of the span that was passed, or what comes then if it has none. -/
def report (fault? : Option LexicalFault) (others : Pointing (Option ScanItem)) :
    Pointing (Option ScanItem) := do
  let p ← get
  set { p with cuts := (p.start, p.curr) :: p.cuts }
  match fault?, p.pending with
  | some fault, _ => pure (some (.fault fault p.line))
  | none, some (kind, literal) =>
    let lexeme ← textBetween p.start p.curr
    pure (some (.token ⟨kind, lexeme, literal, p.line⟩))
  | none, none => others

/-- The next token or fault, the end mark once, and nothing after that. -/
def next (n : Nat) : Nat → Pointing (Option ScanItem)
  | 0 => throw .outOfFuel
  | k + 1 => do
    let p ← get
    if p.bytes.length < p.curr then pure none
    else if p.curr = p.bytes.length then
      move 1
      pure (some (.token (.synthetic .eof "" p.line)))
    else
      set { p with start := p.curr, pending := none }
      report (← span n) (next n k)

/-- The results of asking for the next item again and again. -/
def items (n : Nat) : Nat → Pointing (List (Option ScanItem))
  | 0 => pure []
  | k + 1 => do
    let item ← next n n
    return item :: (← items n k)

end Pointing

end Lox
