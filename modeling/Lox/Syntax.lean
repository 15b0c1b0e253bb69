import Std.Data.TreeMap
import Lox.Token

namespace Lox

/-- The number that tells one occurrence of a name from every other. -/
abbrev NodeId := Nat

/-- An occurrence of a name whose binding is looked up. -/
structure Reference where
  id : NodeId
  name : Token

mutual

inductive Expr where
  | literal (value : Literal)
  | grouping (inner : Expr)
  | unary (operator : Token) (right : Expr)
  /-- Arithmetic, comparison, `and`, `or` and the comma; the operator tells them apart. -/
  | binary (left : Expr) (operator : Token) (right : Expr)
  /-- A binary operator with nothing before it. It fails when it is evaluated. -/
  | binaryError (operator : Token) (right : Expr)
  | conditional (condition thenBranch elseBranch : Expr)
  | variable (ref : Reference)
  | assign (target : Reference) (value : Expr)
  /-- The closing parenthesis stands for the call in messages. -/
  | call (callee : Expr) (paren : Token) (arguments : List Expr)
  | get (object : Expr) (name : Token)
  | set (object : Expr) (name : Token) (value : Expr)
  | this (ref : Reference)
  | super (ref : Reference) (method : Token)
  | lambda (function : Lambda)

inductive Stmt where
  | expression (e : Expr)
  | print (e : Expr)
  /-- Without an initializer the variable is unassigned, which is not `nil`. -/
  | var (name : Token) (initializer : Option Expr)
  | block (body : List Stmt)
  | ite (condition : Expr) (thenBranch : Stmt) (elseBranch : Option Stmt)
  /-- The increment runs after the body, also after a `continue`. -/
  | loop (condition : Expr) (body : Stmt) (increment : Option Expr)
  | «break» (keyword : Token)
  | «continue» (keyword : Token)
  /-- A `break` outside every loop. It fails when it is executed. -/
  | breakError (keyword : Token)
  | continueError (keyword : Token)
  | function (decl : FunctionDecl)
  | «return» (keyword : Token) (value : Option Expr)
  | «class» (name : Token) (superclass : Option Reference) (methods statics : List FunctionDecl)

/-- A named function or method. -/
inductive FunctionDecl where
  | mk (name : Token) (function : Lambda)

/-- The parameters and the body that every kind of function has. -/
inductive Lambda where
  | mk (params : List Token) (body : List Stmt)

end

namespace FunctionDecl

def name : FunctionDecl → Token
  | mk name _ => name

def function : FunctionDecl → Lambda
  | mk _ function => function

end FunctionDecl

namespace Lambda

def params : Lambda → List Token
  | mk params _ => params

def body : Lambda → List Stmt
  | mk _ body => body

def arity (f : Lambda) : Nat := f.params.length

end Lambda

/-- How many scopes lie between a local occurrence and the scope that declares its name. Global
occurrences have no entry. -/
abbrev HopMap := Std.TreeMap NodeId Nat

/-- What one input holds: statements, or a single expression without a semicolon. -/
inductive Program where
  | statements (body : List Stmt)
  | expression (e : Expr)

/-- The expressions of a program that stand by themselves: bare, as statements, printed, or as
initializers at top level. -/
def Program.expressions : Program → List Expr
  | .expression e => [e]
  | .statements body => body.filterMap fun
    | .expression e | .print e | .var _ (some e) => some e
    | _ => none

end Lox
