import Lox.Syntax.Reader

/-!
The grammar, from the loosest construct to the tightest:

    declaration  class, named function, variable or statement
    statement    for, if, while, return, break, continue, block, print or series;
    series       operands with commas between them
    expression   (call ".")? name "=" expression | conditional
    conditional  binary ("?" conditional ":" conditional)?
    binary       or, and, equality, comparison, sum, product
    unary        ("!" | "-") unary | call
    call         primary (arguments | "." name)*

Every reader takes fuel and spends some of it before it calls another one.
-/

namespace Lox

namespace Reader

/-- The operators with two operands, the loosest first. -/
def operatorLevels : List (List TokenKind) :=
  [[.or], [.and], [.bangEqual, .equalEqual], [.greater, .greaterEqual, .less, .lessEqual],
    [.minus, .plus], [.slash, .star]]

/-- The operators that are reported when nothing stands before them. A minus may stand there. -/
def danglingOperators : List TokenKind :=
  [.slash, .star, .plus, .greater, .greaterEqual, .less, .lessEqual, .bangEqual, .equalEqual]

def binary (n : Nat) (operand : Reader Expr) : Reader Expr :=
  operatorLevels.foldr (leftAssociative n) operand

/-- An expression, or an operator that lacks its left operand with the right one. -/
def seriesOperand (expression : Reader Expr) : Reader Expr := do
  match ← accept danglingOperators with
  | none => expression
  | some operator =>
    let right ← expression
    report operator .noLeftOperand
    pure (.binaryError operator right)

def series (n : Nat) (expression : Reader Expr) : Reader Expr :=
  leftAssociative n [.comma] (seriesOperand expression)

/-- The calls and property reads that follow an expression. -/
def callTail (expression : Reader Expr) : Nat → Expr → Reader Expr
  | 0, _ => outOfFuel
  | n + 1, callee => do
    match ← accept [.leftParen, .dot] with
    | none => pure callee
    | some opener =>
      if opener.kind = .leftParen then
        let arguments ← listedOrNone n .tooManyArguments expression
        let paren ← expect .rightParen .parenAfterArguments
        callTail expression n (.call callee paren arguments)
      else
        let name ← expect .identifier .propertyName
        callTail expression n (.get callee name)

/-- Parameters and body of a function whose opening parenthesis has been read. -/
def lambda (n : Nat) (role : FunctionRole) (declarations : Reader (List Stmt)) : Reader Lambda := do
  let params ← listedOrNone n .tooManyParameters (expect .identifier .parameterName)
  let _ ← expect .rightParen .parenAfterParameters
  let _ ← expect .leftBrace (.braceBeforeBody role)
  let body ← declarations
  let _ ← expect .rightBrace .braceAfterBlock
  pure (.mk params body)

def function (n : Nat) (role : FunctionRole) (declarations : Reader (List Stmt)) :
    Reader FunctionDecl := do
  let name ← expect .identifier (.functionName role)
  let _ ← expect .leftParen (.parenAfterName role)
  return .mk name (← lambda n role declarations)

/-- The methods up to the closing brace, those of the class itself apart from those of its
instances. -/
def methods (declarations : Reader (List Stmt)) :
    Nat → Reader (List FunctionDecl × List FunctionDecl)
  | 0 => outOfFuel
  | n + 1 => do
    if ← ended [.rightBrace] then pure ([], [])
    else
      match ← accept [.class] with
      | some _ =>
        let first ← function n .staticMethod declarations
        let (own, statics) ← methods declarations n
        pure (own, first :: statics)
      | none =>
        let first ← function n .method declarations
        let (own, statics) ← methods declarations n
        pure (first :: own, statics)

def superclass : Reader (Option Reference) := do
  match ← accept [.less] with
  | none => pure none
  | some _ =>
    let name ← expect .identifier .superclassName
    return some (← reference name)

def classDeclaration (n : Nat) (declarations : Reader (List Stmt)) : Reader Stmt := do
  let name ← expect .identifier .className
  let superclass ← superclass
  let _ ← expect .leftBrace .braceBeforeClassBody
  let (own, statics) ← methods declarations n
  let _ ← expect .rightBrace .braceAfterClassBody
  pure (.class name superclass own statics)

def varDeclaration (expression : Reader Expr) : Reader Stmt := do
  let name ← expect .identifier .variableName
  let initializer ← match ← accept [.equal] with
    | none => pure none
    | some _ => some <$> expression
  let _ ← expect .semicolon .semicolonAfterVariable
  pure (.var name initializer)

/-- An expression, unless the token that closes its place comes at once. -/
def unlessSees (closer : TokenKind) (expression : Reader Expr) : Reader (Option Expr) := do
  if ← sees closer then pure none else some <$> expression

def expressionStatement (n : Nat) (expression : Reader Expr) : Reader Stmt := do
  let e ← series n expression
  let _ ← expect .semicolon .semicolonAfterExpression
  pure (.expression e)

def printStatement (n : Nat) (expression : Reader Expr) : Reader Stmt := do
  let e ← series n expression
  let _ ← expect .semicolon .semicolonAfterPrinted
  pure (.print e)

def returnStatement (keyword : Token) (expression : Reader Expr) : Reader Stmt := do
  let value ← unlessSees .semicolon expression
  let _ ← expect .semicolon .semicolonAfterReturn
  pure (.return keyword value)

def breakStatement (keyword : Token) (inLoop : Bool) : Reader Stmt := do
  let _ ← expect .semicolon .semicolonAfterBreak
  if inLoop then pure (.break keyword)
  else
    report keyword .misplacedBreak
    pure (.breakError keyword)

def continueStatement (keyword : Token) (inLoop : Bool) : Reader Stmt := do
  let _ ← expect .semicolon .semicolonAfterContinue
  if inLoop then pure (.continue keyword)
  else
    report keyword .misplacedContinue
    pure (.continueError keyword)

def forInitializer (n : Nat) (expression : Reader Expr) : Reader (Option Stmt) := do
  match ← accept [.semicolon, .var] with
  | none => some <$> expressionStatement n expression
  | some t => if t.kind = .semicolon then pure none else some <$> varDeclaration expression

/-- A `for` is a loop with an increment, in a block with its initializer if it has one. A missing
condition holds always. -/
def forStatement (n : Nat) (expression : Reader Expr) (body : Reader Stmt) : Reader Stmt := do
  let _ ← expect .leftParen .parenAfterFor
  let initializer ← forInitializer n expression
  let condition ← unlessSees .semicolon expression
  let _ ← expect .semicolon .semicolonAfterLoopCondition
  let increment ← unlessSees .rightParen expression
  let _ ← expect .rightParen .parenAfterForClauses
  let loop := Stmt.loop (condition.getD (.literal (.boolean true))) (← body) increment
  pure (match initializer with
    | none => loop
    | some first => .block [first, loop])

def whileStatement (expression : Reader Expr) (body : Reader Stmt) : Reader Stmt := do
  let _ ← expect .leftParen .parenAfterWhile
  let condition ← expression
  let _ ← expect .rightParen .parenAfterLoopCondition
  return .loop condition (← body) none

/-- An `else` belongs to the nearest `if`. -/
def ifStatement (expression : Reader Expr) (branch : Reader Stmt) : Reader Stmt := do
  let _ ← expect .leftParen .parenAfterIf
  let condition ← expression
  let _ ← expect .rightParen .parenAfterIfCondition
  let thenBranch ← branch
  match ← accept [.else] with
  | none => pure (.ite condition thenBranch none)
  | some _ => return .ite condition thenBranch (some (← branch))

/-- Whether a named function begins here. Without the name `fun` begins an expression. -/
def seesNamedFunction : Reader Bool := fun c =>
  match c.rest with
  | first :: second :: _ => .ok (first.kind == .fun && second.kind == .identifier) c
  | _ => .ok false c

def superExpression (keyword : Token) : Reader Expr := do
  let _ ← expect .dot .dotAfterSuper
  let method ← expect .identifier .superclassMethodName
  return .super (← reference keyword) method

def anonymousFunction (n : Nat) (declarations : Reader (List Stmt)) : Reader Expr := do
  let _ ← expect .leftParen .parenAfterFun
  return .lambda (← lambda n .function declarations)

def groupingExpression (expression : Reader Expr) : Reader Expr := do
  let inner ← expression
  let _ ← expect .rightParen .parenAfterExpression
  pure (.grouping inner)

def primaryKinds : List TokenKind :=
  [.false, .true, .nil, .number, .string, .super, .this, .identifier, .fun, .leftParen]

/-- The rest of a primary expression after its first token. -/
def primaryFrom (n : Nat) (expression : Reader Expr) (declarations : Reader (List Stmt))
    (t : Token) : Reader Expr :=
  match t.kind with
  | .false => pure (.literal (.boolean false))
  | .true => pure (.literal (.boolean true))
  | .number | .string => pure (.literal (t.literal.getD .nil))
  | .super => superExpression t
  | .this => .this <$> reference t
  | .identifier => .variable <$> reference t
  | .fun => anonymousFunction n declarations
  | .leftParen => groupingExpression expression
  | _ => pure (.literal .nil)

/-- What an expression becomes when a value is assigned to it. -/
def assignment (target : Expr) (equals : Token) (value : Expr) : Reader Expr :=
  match target with
  | .variable ref => do return .assign (← reference ref.name) value
  | .get object name => pure (.set object name value)
  | other => do
    report equals .invalidAssignmentTarget
    pure other

mutual

def expression : Nat → Reader Expr
  | 0 => outOfFuel
  | n + 1 => do
    let target ← conditional n
    match ← accept [.equal] with
    | none => pure target
    | some equals => assignment target equals (← expression n)

def conditional : Nat → Reader Expr
  | 0 => outOfFuel
  | n + 1 => do
    let condition ← binary n (unary n)
    match ← accept [.question] with
    | none => pure condition
    | some _ =>
      let thenBranch ← conditional n
      let _ ← expect .colon .colonAfterConditional
      return .conditional condition thenBranch (← conditional n)

def unary : Nat → Reader Expr
  | 0 => outOfFuel
  | n + 1 => do
    match ← accept [.bang, .minus] with
    | some operator => return .unary operator (← unary n)
    | none =>
      match ← accept primaryKinds with
      | none => missing .expression
      | some t =>
        let callee ← primaryFrom n (expression n) (declarations n false [.rightBrace]) t
        callTail (expression n) n callee

/-- The declarations up to the end, or up to a token of one of the kinds. A faulty one is left out. -/
def declarations : Nat → (inLoop : Bool) → (closers : List TokenKind) → Reader (List Stmt)
  | 0, _, _ => outOfFuel
  | n + 1, inLoop, closers => do
    if ← ended closers then pure []
    else
      let first ← recovering (declaration n inLoop)
      let others ← declarations n inLoop closers
      pure (first.toList ++ others)

def declaration : Nat → (inLoop : Bool) → Reader Stmt
  | 0, _ => outOfFuel
  | n + 1, inLoop => do
    if ← seesNamedFunction then
      let _ ← accept [.fun]
      return .function (← function n .function (declarations n false [.rightBrace]))
    else
      match ← accept [.class, .var] with
      | none => statement n inLoop
      | some t =>
        if t.kind = .class then classDeclaration n (declarations n false [.rightBrace])
        else varDeclaration (expression n)

def statement : Nat → (inLoop : Bool) → Reader Stmt
  | 0, _ => outOfFuel
  | n + 1, inLoop => do
    match ← accept [.for, .if, .while, .return, .break, .continue, .leftBrace, .print] with
    | none => expressionStatement n (expression n)
    | some t =>
      match t.kind with
      | .for => forStatement n (expression n) (statement n true)
      | .if => ifStatement (expression n) (statement n inLoop)
      | .while => whileStatement (expression n) (statement n true)
      | .return => returnStatement t (expression n)
      | .break => breakStatement t inLoop
      | .continue => continueStatement t inLoop
      | .leftBrace =>
        let body ← declarations n inLoop [.rightBrace]
        let _ ← expect .rightBrace .braceAfterBlock
        pure (.block body)
      | _ => printStatement n (expression n)

end

/-- The kinds of token that begin a declaration or statement other than an expression. -/
def statementKinds : List TokenKind :=
  [.class, .var, .print, .leftBrace, .if, .while, .for, .return, .break, .continue]

/-- One declaration, or a series that no semicolon closes and that ends the text. -/
def entry (n : Nat) : Reader (Stmt ⊕ Expr) := do
  let t ← here
  if t.kind ∈ statementKinds ∨ (← seesNamedFunction) then
    return .inl (← declaration n false)
  else
    let e ← series n (expression n)
    match ← accept [.semicolon] with
    | some _ => pure (.inl (.expression e))
    | none => if ← ended [] then pure (.inr e) else missing .semicolonAfterExpression

/-- A whole text. With `allowExpression` it may be a single expression. -/
def program (n : Nat) (allowExpression : Bool) : Reader Program := do
  if allowExpression && !(← ended []) then
    match ← recovering (entry n) with
    | some (.inr e) => pure (.expression e)
    | some (.inl first) => return .statements (first :: (← declarations n false []))
    | none => return .statements (← declarations n false [])
  else return .statements (← declarations n false [])

end Reader

/-- What reading a text gives. -/
structure Parse where
  program : Program
  diagnostics : List Diagnostic
  nextId : NodeId

/-- A reader spends less than this for each token. -/
def fuelPerToken : Nat := 16

/-- Reads a program. Its occurrences of names are numbered from `nextId`. -/
def parse (tokens : List Token) (allowExpression : Bool) (nextId : NodeId) : Parse :=
  let start := Cursor.ofTokens tokens nextId
  match Reader.program (fuelPerToken * (start.rest.length + 1)) allowExpression start with
  | .ok program c => ⟨program, c.log.reverse, c.nextId⟩
  | .error _ c => ⟨.statements [], c.log.reverse, c.nextId⟩

end Lox
