import Lox.Diagnostic
import Lox.Syntax

namespace Lox

/-- Why reading a construct ends without one. -/
inductive ReadStop where
  /-- The fault has been reported; reading goes on at the next declaration. -/
  | syntaxError
  | outOfFuel
deriving DecidableEq, Repr

/-- A place in the text: the tokens still to be read, without the end mark, the end mark, the next
unused node number and the diagnostics so far, latest first. -/
structure Cursor where
  rest : List Token
  last : Token
  nextId : NodeId
  log : List Diagnostic

namespace Cursor

/-- The text ends at the first end mark. Without one it ends on the line of its last token. -/
def ofTokens (tokens : List Token) (nextId : NodeId) : Cursor :=
  let isWord := fun t : Token => t.kind != .eof
  let line := (tokens.getLast?.map Token.line).getD 1
  { rest := tokens.takeWhile isWord
    last := (tokens.find? (!isWord ·)).getD (.synthetic .eof "" line)
    nextId
    log := [] }

/-- The token that a fault found here is reported at. -/
def here (c : Cursor) : Token := c.rest.head?.getD c.last

def report (c : Cursor) (t : Token) (fault : SyntaxFault) : Cursor :=
  { c with log := .atToken t (.syntactic fault) :: c.log }

end Cursor

/-- The kinds of token at which reading goes on after a fault. -/
def resumptionKinds : List TokenKind :=
  [.class, .fun, .var, .for, .if, .while, .print, .return]

/-- Drops tokens up to a likely start of a declaration, given the token dropped last. -/
def dropToResumption (dropped : Token) : List Token → List Token
  | [] => []
  | t :: rest =>
    if dropped.kind = .semicolon ∨ t.kind ∈ resumptionKinds then t :: rest
    else dropToResumption t rest

/-- At least one token is dropped, so that a fault is not met twice. -/
def Cursor.resume (c : Cursor) : Cursor :=
  match c.rest with
  | [] => c
  | t :: rest => { c with rest := dropToResumption t rest }

/-- A reader of one kind of construct. The cursor is kept when it stops. -/
abbrev Reader (α : Type) := EStateM ReadStop Cursor α

namespace Reader

def outOfFuel {α : Type} : Reader α := fun c => .error .outOfFuel c

/-- Whether the text ends here, or a token of one of the kinds comes next. -/
def ended (closers : List TokenKind) : Reader Bool := fun c =>
  .ok (c.rest.head?.all (·.kind ∈ closers)) c

def here : Reader Token := fun c => .ok c.here c

/-- Whether the next token is of the kind. -/
def sees (kind : TokenKind) : Reader Bool := fun c =>
  .ok (c.rest.head?.any (·.kind == kind)) c

/-- The next token, when it is of one of the kinds. -/
def accept (kinds : List TokenKind) : Reader (Option Token) := fun c =>
  match c.rest with
  | [] => .ok none c
  | t :: rest => if t.kind ∈ kinds then .ok (some t) { c with rest } else .ok none c

def report (t : Token) (fault : SyntaxFault) : Reader Unit := fun c => .ok () (c.report t fault)

def reportHere (fault : SyntaxFault) : Reader Unit := fun c => .ok () (c.report c.here fault)

/-- Reports that something is missing here, and gives the construct up. -/
def missing {α : Type} (what : Expected) : Reader α := fun c =>
  .error .syntaxError (c.report c.here (.missing what))

def expect (kind : TokenKind) (what : Expected) : Reader Token := do
  match ← accept [kind] with
  | some t => pure t
  | none => missing what

def reference (name : Token) : Reader Reference := fun c =>
  .ok ⟨c.nextId, name⟩ { c with nextId := c.nextId + 1 }

/-- Reads a construct, or nothing if there is a fault in it. -/
def recovering {α : Type} (construct : Reader α) : Reader (Option α) := fun c =>
  match construct c with
  | .ok a c => .ok (some a) c
  | .error .syntaxError c => .ok none c.resume
  | .error .outOfFuel c => .error .outOfFuel c

/-- Any number of operands that follow, each after an operator, grouped from the left. -/
def operands (operators : List TokenKind) (operand : Reader Expr) : Nat → Expr → Reader Expr
  | 0, _ => outOfFuel
  | n + 1, left => do
    match ← accept operators with
    | none => pure left
    | some operator =>
      let right ← operand
      operands operators operand n (.binary left operator right)

def leftAssociative (n : Nat) (operators : List TokenKind) (operand : Reader Expr) : Reader Expr := do
  let left ← operand
  operands operators operand n left

/-- Lists of parameters and of arguments are no longer than this. -/
def maxListed : Nat := 255

/-- One or more items with commas between them, of which `count` have been read before. -/
def listed {α : Type} (tooMany : SyntaxFault) (item : Reader α) : Nat → Nat → Reader (List α)
  | 0, _ => outOfFuel
  | n + 1, count => do
    if maxListed ≤ count then reportHere tooMany
    let first ← item
    match ← accept [.comma] with
    | none => pure [first]
    | some _ => return first :: (← listed tooMany item n (count + 1))

/-- No item, or as many as `listed` reads, before a closing parenthesis. -/
def listedOrNone {α : Type} (n : Nat) (tooMany : SyntaxFault) (item : Reader α) :
    Reader (List α) := do
  if ← sees .rightParen then pure [] else listed tooMany item n 0

end Reader

end Lox
