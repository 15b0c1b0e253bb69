import Lox.Syntax
import Lox.Text.Quoted

namespace Lox

/-- A token as its lexeme and its line. -/
def Token.mark (t : Token) : String := t.lexeme ++ "@" ++ toString t.line

def tokenMarks (tokens : List Token) : String :=
  "(" ++ " ".intercalate (tokens.map Token.mark) ++ ")"

def Literal.outline : Literal → String
  | .number value => "(num " ++ (Literal.number value).text ++ ")"
  | .string text => "(str " ++ Text.jsonQuoted text ++ ")"
  | l => l.text

/-- What an outline says of the binding of an occurrence: nothing before names are resolved. -/
def Reference.outline (hops : Option HopMap) (ref : Reference) : String :=
  match hops with
  | none => ref.name.mark
  | some hops => ref.name.mark ++ " " ++ bindingMark hops[ref.id]?
where
  bindingMark : Option Nat → String
    | some distance => "#" ++ toString distance
    | none => "#global"

/-- A `super` names its method before its binding. -/
def Reference.superOutline (hops : Option HopMap) (ref : Reference) (method : Token) : String :=
  let marks := ref.name.mark ++ " " ++ method.mark
  match hops with
  | none => marks
  | some hops => marks ++ " " ++ Reference.outline.bindingMark hops[ref.id]?

namespace Outline

mutual

/-- The whole tree of an expression in parentheses, with the lines of its tokens. -/
def expr (hops : Option HopMap) : Expr → String
  | .literal value => value.outline
  | .grouping inner => "(group " ++ expr hops inner ++ ")"
  | .unary operator right => "(unary " ++ operator.mark ++ " " ++ expr hops right ++ ")"
  | .binary left operator right =>
    "(binary " ++ operator.mark ++ " " ++ expr hops left ++ " " ++ expr hops right ++ ")"
  | .binaryError operator right =>
    "(binary-error " ++ operator.mark ++ " " ++ expr hops right ++ ")"
  | .conditional condition thenBranch elseBranch =>
    "(conditional " ++ expr hops condition ++ " " ++ expr hops thenBranch ++ " "
      ++ expr hops elseBranch ++ ")"
  | .variable ref => "(variable " ++ ref.outline hops ++ ")"
  | .assign target value => "(assign " ++ target.outline hops ++ " " ++ expr hops value ++ ")"
  | .call callee paren arguments =>
    "(call " ++ paren.mark ++ " " ++ expr hops callee ++ exprs hops arguments ++ ")"
  | .get object name => "(get " ++ name.mark ++ " " ++ expr hops object ++ ")"
  | .set object name value =>
    "(set " ++ name.mark ++ " " ++ expr hops object ++ " " ++ expr hops value ++ ")"
  | .this ref => "(this " ++ ref.outline hops ++ ")"
  | .super ref method => "(super " ++ ref.superOutline hops method ++ ")"
  | .lambda (.mk params body) => "(lambda " ++ tokenMarks params ++ stmts hops body ++ ")"

/-- The outlines of a list, each after a space. -/
def exprs (hops : Option HopMap) : List Expr → String
  | [] => ""
  | e :: rest => " " ++ expr hops e ++ exprs hops rest

def optionalExpr (hops : Option HopMap) : Option Expr → String
  | none => "-"
  | some e => expr hops e

def stmt (hops : Option HopMap) : Stmt → String
  | .expression e => "(expr " ++ expr hops e ++ ")"
  | .print e => "(print " ++ expr hops e ++ ")"
  | .var name initializer =>
    "(var " ++ name.mark ++ " " ++ optionalExpr hops initializer ++ ")"
  | .block body => "(block" ++ stmts hops body ++ ")"
  | .ite condition thenBranch elseBranch =>
    "(if " ++ expr hops condition ++ " " ++ stmt hops thenBranch ++ " "
      ++ optionalStmt hops elseBranch ++ ")"
  | .loop condition body increment =>
    "(while " ++ expr hops condition ++ " " ++ stmt hops body ++ " "
      ++ optionalExpr hops increment ++ ")"
  | .break keyword => "(break " ++ keyword.mark ++ ")"
  | .continue keyword => "(continue " ++ keyword.mark ++ ")"
  | .breakError keyword => "(break-error " ++ keyword.mark ++ ")"
  | .continueError keyword => "(continue-error " ++ keyword.mark ++ ")"
  | .function (.mk name (.mk params body)) =>
    "(function " ++ name.mark ++ " " ++ tokenMarks params ++ stmts hops body ++ ")"
  | .return keyword value =>
    "(return " ++ keyword.mark ++ " " ++ optionalExpr hops value ++ ")"
  | .class name superclass own statics =>
    let inherited := match superclass with
      | none => "-"
      | some ref => "(variable " ++ ref.outline hops ++ ")"
    "(class " ++ name.mark ++ " " ++ inherited ++ " (" ++ methods hops own ++ ") ("
      ++ methods hops statics ++ "))"

def optionalStmt (hops : Option HopMap) : Option Stmt → String
  | none => "-"
  | some s => stmt hops s

def stmts (hops : Option HopMap) : List Stmt → String
  | [] => ""
  | s :: rest => " " ++ stmt hops s ++ stmts hops rest

def method (hops : Option HopMap) : FunctionDecl → String
  | .mk name (.mk params body) =>
    "(" ++ name.mark ++ " " ++ tokenMarks params ++ stmts hops body ++ ")"

def methods (hops : Option HopMap) : List FunctionDecl → String
  | [] => ""
  | [m] => method hops m
  | m :: rest => method hops m ++ " " ++ methods hops rest

end

end Outline

/-- One outline for each top-level statement, or that of the expression. -/
def Program.outlines (hops : Option HopMap) : Program → List String
  | .statements body => body.map (Outline.stmt hops)
  | .expression e => [Outline.expr hops e]

end Lox
