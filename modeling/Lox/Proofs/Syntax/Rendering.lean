import Lox.Proofs.Syntax.Phrase
import Lox.Proofs.Syntax.Relabel

/-!
Programs written out as tokens. Marks that the tree does not keep are made up, and the line of a token
does not count.
-/

namespace Lox

/-- The token without its line. -/
def Token.unlined (t : Token) : Token := { t with line := 0 }

/-- A mark that no tree keeps. -/
def Token.fixed (kind : TokenKind) (lexeme : String) : Token := .synthetic kind lexeme 0

/-- A word that stands for a value by itself. -/
def Literal.token : Literal → Token
  | .nil => .fixed .nil "nil"
  | .boolean true => .fixed .true "true"
  | .boolean false => .fixed .false "false"
  | .number value => ⟨.number, (Literal.number value).text, some (.number value), 0⟩
  | .string text => ⟨.string, (Literal.string text).text, some (.string text), 0⟩

def commaSeparated : List (List Token) → List Token
  | [] => []
  | [ts] => ts
  | ts :: us :: rest => ts ++ .fixed .comma "," :: commaSeparated (us :: rest)

mutual

def Expr.render : Expr → List Token
  | .literal value => [value.token]
  | .grouping inner => .fixed .leftParen "(" :: (inner.render ++ [.fixed .rightParen ")"])
  | .unary operator right => operator :: right.render
  | .binary left operator right => left.render ++ operator :: right.render
  | .binaryError operator right => operator :: right.render
  | .conditional condition thenBranch elseBranch =>
    condition.render ++ .fixed .question "?" ::
      (thenBranch.render ++ .fixed .colon ":" :: elseBranch.render)
  | .variable ref => [ref.name]
  | .assign target value => target.name :: .fixed .equal "=" :: value.render
  | .call callee paren arguments =>
    callee.render ++ .fixed .leftParen "(" ::
      (commaSeparated (Expr.renderAll arguments) ++ [paren])
  | .get object name => object.render ++ [.fixed .dot ".", name]
  | .set object name value =>
    object.render ++ .fixed .dot "." :: name :: .fixed .equal "=" :: value.render
  | .this ref => [ref.name]
  | .super ref method => [ref.name, .fixed .dot ".", method]
  | .lambda function => .fixed .fun "fun" :: function.render

def Expr.renderAll : List Expr → List (List Token)
  | [] => []
  | e :: rest => e.render :: Expr.renderAll rest

def Expr.render? : Option Expr → List Token
  | none => []
  | some e => e.render

/-- A loop with an increment is a `for`, another one a `while`. -/
def Stmt.render : Stmt → List Token
  | .expression e => e.render ++ [.fixed .semicolon ";"]
  | .print e => .fixed .print "print" :: (e.render ++ [.fixed .semicolon ";"])
  | .var name none => [.fixed .var "var", name, .fixed .semicolon ";"]
  | .var name (some e) =>
    .fixed .var "var" :: name :: .fixed .equal "=" :: (e.render ++ [.fixed .semicolon ";"])
  | .block body => .fixed .leftBrace "\x7b" :: (Stmt.renderAll body ++ [.fixed .rightBrace "\x7d"])
  | .ite condition thenBranch none =>
    .fixed .if "if" :: .fixed .leftParen "(" ::
      (condition.render ++ .fixed .rightParen ")" :: thenBranch.render)
  | .ite condition thenBranch (some elseBranch) =>
    .fixed .if "if" :: .fixed .leftParen "(" ::
      (condition.render ++ .fixed .rightParen ")" ::
        (thenBranch.render ++ .fixed .else "else" :: elseBranch.render))
  | .loop condition body none =>
    .fixed .while "while" :: .fixed .leftParen "(" ::
      (condition.render ++ .fixed .rightParen ")" :: body.render)
  | .loop condition body (some increment) =>
    .fixed .for "for" :: .fixed .leftParen "(" :: .fixed .semicolon ";" ::
      (condition.render ++ .fixed .semicolon ";" ::
        (increment.render ++ .fixed .rightParen ")" :: body.render))
  | .break keyword | .breakError keyword | .continue keyword | .continueError keyword =>
    [keyword, .fixed .semicolon ";"]
  | .function decl => .fixed .fun "fun" :: decl.render
  | .return keyword value => keyword :: (Expr.render? value ++ [.fixed .semicolon ";"])
  | .class name superclass methods statics =>
    .fixed .class "class" :: name ::
      ((superclass.map fun ref => [.fixed .less "<", ref.name]).getD [] ++
        .fixed .leftBrace "\x7b" :: (FunctionDecl.renderAll [] methods ++
          (FunctionDecl.renderAll [.fixed .class "class"] statics ++ [.fixed .rightBrace "\x7d"])))

def Stmt.renderAll : List Stmt → List Token
  | [] => []
  | s :: rest => s.render ++ Stmt.renderAll rest

def FunctionDecl.render : FunctionDecl → List Token
  | .mk name function => name :: function.render

/-- Each one has the words `before` it. -/
def FunctionDecl.renderAll (before : List Token) : List FunctionDecl → List Token
  | [] => []
  | decl :: rest => before ++ (decl.render ++ FunctionDecl.renderAll before rest)

def Lambda.render : Lambda → List Token
  | .mk params body =>
    .fixed .leftParen "(" :: (commaSeparated (params.map fun t => [t]) ++
      .fixed .rightParen ")" :: .fixed .leftBrace "\x7b" ::
        (Stmt.renderAll body ++ [.fixed .rightBrace "\x7d"]))

end

/-- How tight an expression is: 0 for a series with commas, then assignments, conditionals, the
levels of operators, unary operators, calls and primary expressions. -/
def Expr.level : Expr → Nat
  | .binary _ operator _ =>
    if operator.kind = .comma then 0 else 3 + Phrase.precedence.findIdx (operator.kind ∈ ·)
  | .assign .. | .set .. => 1
  | .conditional .. => 2
  | .unary .. => 9
  | .call .. | .get .. => 10
  | _ => 11

/-- Whether the words of the statement would take an `else` that follows them. -/
def Stmt.dangles : Stmt → Bool
  | .ite _ _ none => true
  | .ite _ _ (some elseBranch) => elseBranch.dangles
  | .loop _ body _ => body.dangles
  | _ => false

mutual

/-- Whether the expression can be written where only expressions of at least some level may stand. -/
def Expr.renderable (least : Nat) : Expr → Bool
  | .literal _ => least ≤ 11
  | .grouping inner => least ≤ 11 && inner.renderable 1
  | .unary operator right =>
    least ≤ 9 && (operator.kind == .bang || operator.kind == .minus) && right.renderable 9
  | .binary left operator right =>
    let level := Expr.level (.binary left operator right)
    least ≤ level && level < 9 && left.renderable level && right.renderable (level + 1)
  | .binaryError .. => false
  | .conditional condition thenBranch elseBranch =>
    least ≤ 2 && condition.renderable 3 && thenBranch.renderable 2 && elseBranch.renderable 2
  | .variable ref => least ≤ 11 && ref.name.kind == .identifier
  | .assign target value =>
    least ≤ 1 && target.name.kind == .identifier && value.renderable 1
  | .call callee paren arguments =>
    least ≤ 10 && callee.renderable 10 && paren.kind == .rightParen && arguments.length ≤ 255 &&
      Expr.renderableAll arguments
  | .get object name => least ≤ 10 && object.renderable 10 && name.kind == .identifier
  | .set object name value =>
    least ≤ 1 && object.renderable 10 && name.kind == .identifier && value.renderable 1
  | .this ref => least ≤ 11 && ref.name.kind == .this
  | .super ref method => least ≤ 11 && ref.name.kind == .super && method.kind == .identifier
  | .lambda function => least ≤ 11 && function.renderable

def Expr.renderableAll : List Expr → Bool
  | [] => true
  | e :: rest => e.renderable 1 && Expr.renderableAll rest

def Expr.renderable? : Option Expr → Bool
  | none => true
  | some e => e.renderable 1

/-- Whether the statement can be written in a loop of its function or outside one, where
declarations may stand or only statements. -/
def Stmt.renderable (inLoop declares : Bool) : Stmt → Bool
  | .expression e | .print e => e.renderable 0
  | .var name initializer => declares && name.kind == .identifier && Expr.renderable? initializer
  | .block body => Stmt.renderableAll inLoop body
  | .ite condition thenBranch none =>
    condition.renderable 1 && thenBranch.renderable inLoop false
  | .ite condition thenBranch (some elseBranch) =>
    condition.renderable 1 && thenBranch.renderable inLoop false && !thenBranch.dangles &&
      elseBranch.renderable inLoop false
  | .loop condition body increment =>
    condition.renderable 1 && body.renderable true false && Expr.renderable? increment
  | .break keyword => inLoop && keyword.kind == .break
  | .continue keyword => inLoop && keyword.kind == .continue
  | .breakError _ | .continueError _ => false
  | .function decl => declares && decl.renderable
  | .return keyword value => keyword.kind == .return && Expr.renderable? value
  | .class name superclass methods statics =>
    declares && name.kind == .identifier && superclass.all (·.name.kind == .identifier) &&
      FunctionDecl.renderableAll methods && FunctionDecl.renderableAll statics

def Stmt.renderableAll (inLoop : Bool) : List Stmt → Bool
  | [] => true
  | s :: rest => s.renderable inLoop true && Stmt.renderableAll inLoop rest

def FunctionDecl.renderable : FunctionDecl → Bool
  | .mk name function => name.kind == .identifier && function.renderable

def FunctionDecl.renderableAll : List FunctionDecl → Bool
  | [] => true
  | decl :: rest => decl.renderable && FunctionDecl.renderableAll rest

/-- No loop around a function is one of its body. -/
def Lambda.renderable : Lambda → Bool
  | .mk params body =>
    params.all (·.kind == .identifier) && params.length ≤ 255 && Stmt.renderableAll false body

end

end Lox
