import Lox.Scope.Stack

namespace Lox

/-- The innermost function body around a place, which decides what `return` may do. -/
inductive BodyKind where
  | topLevel
  | function
  | method
  | initializer
deriving DecidableEq, Repr

/-- The class around a place, which decides whether `this` and `super` have a meaning. -/
inductive ClassKind where
  | noClass
  | rootClass
  | subclass
  /-- Inside a method of the class itself, which has no receiver. -/
  | staticMethod
deriving DecidableEq, Repr

structure Surroundings where
  body : BodyKind
  cls : ClassKind

def Surroundings.topLevel : Surroundings := ⟨.topLevel, .noClass⟩

/-- Why `this` may not stand in a class of the kind. -/
def ClassKind.thisFault? : ClassKind → Option ScopeFault
  | noClass => some .thisOutsideClass
  | staticMethod => some .thisInStaticMethod
  | rootClass | subclass => none

def ClassKind.superFault? : ClassKind → Option ScopeFault
  | noClass => some .superOutsideClass
  | rootClass => some .superWithoutSuperclass
  | staticMethod => some .superInStaticMethod
  | subclass => none

namespace Resolution

/-- A read of a variable. -/
def readVariable (ref : Reference) (r : Resolution) : Resolution :=
  let r := if r.inOwnInitializer ref.name then
      r.report ref.name (.readInOwnInitializer ref.name.lexeme)
    else r
  r.record ref true

/-- A read of `this` or `super`, where there is no fault in it. -/
def readKeyword (ref : Reference) (fault? : Option ScopeFault) (r : Resolution) : Resolution :=
  match fault? with
  | some fault => r.report ref.name fault
  | none => r.record ref true

def returnFaults (keyword : Token) (hasValue : Bool) (body : BodyKind) (r : Resolution) :
    Resolution :=
  if body = .topLevel then r.report keyword .returnOutsideFunction
  else if body = .initializer ∧ hasValue then r.report keyword .returnFromInitializer
  else r

/-- Enters the scope that holds `super`, which only a class with a superclass has. -/
def openSuper (className : Token) (superclass : Option Reference) (r : Resolution) : Resolution :=
  match superclass with
  | none => r
  | some ref =>
    let r := if ref.name.lexeme = className.lexeme then r.report ref.name .inheritsFromItself else r
    (readVariable ref r).openScope.bindImplicit "super" className

mutual

def expr (s : Surroundings) : Expr → Resolution → Resolution
  | .literal _, r => r
  | .grouping inner, r => expr s inner r
  | .unary _ right, r => expr s right r
  | .binaryError _ right, r => expr s right r
  | .binary left _ right, r => expr s right (expr s left r)
  | .conditional condition thenBranch elseBranch, r =>
    expr s elseBranch (expr s thenBranch (expr s condition r))
  | .variable ref, r => readVariable ref r
  | .assign target value, r => (expr s value r).record target false
  | .call callee _ arguments, r => exprs s arguments (expr s callee r)
  | .get object _, r => expr s object r
  | .set object _ value, r => expr s object (expr s value r)
  | .this ref, r => readKeyword ref s.cls.thisFault? r
  | .super ref _, r => readKeyword ref s.cls.superFault? r
  | .lambda function, r => lambda { s with body := .function } function r

def exprs (s : Surroundings) : List Expr → Resolution → Resolution
  | [], r => r
  | e :: rest, r => exprs s rest (expr s e r)

def optionalExpr (s : Surroundings) : Option Expr → Resolution → Resolution
  | none, r => r
  | some e, r => expr s e r

def stmt (s : Surroundings) : Stmt → Resolution → Resolution
  | .expression e, r => expr s e r
  | .print e, r => expr s e r
  | .var name initializer, r => (optionalExpr s initializer (r.declare name)).define name
  | .block body, r => (stmts s body r.openScope).closeScope
  | .ite condition thenBranch elseBranch, r =>
    optionalStmt s elseBranch (stmt s thenBranch (expr s condition r))
  | .loop condition body increment, r =>
    optionalExpr s increment (stmt s body (expr s condition r))
  | .break _, r => r
  | .continue _, r => r
  | .breakError _, r => r
  | .continueError _, r => r
  | .function (.mk name function), r =>
    lambda { s with body := .function } function ((r.declare name).define name)
  | .return keyword value, r =>
    optionalExpr s value (r.returnFaults keyword value.isSome s.body)
  | .class name superclass own statics, r =>
    let inherits := superclass.isSome
    let cls := if inherits then ClassKind.subclass else .rootClass
    let r := openSuper name superclass ((r.declare name).define name)
    let r := (methods { s with cls } own (r.openScope.bindImplicit "this" name)).closeScope
    let r := staticMethods { s with cls := .staticMethod } statics r
    if inherits then r.closeScope else r

def optionalStmt (s : Surroundings) : Option Stmt → Resolution → Resolution
  | none, r => r
  | some st, r => stmt s st r

def stmts (s : Surroundings) : List Stmt → Resolution → Resolution
  | [], r => r
  | st :: rest, r => stmts s rest (stmt s st r)

/-- Parameters and body share one scope. -/
def lambda (s : Surroundings) : Lambda → Resolution → Resolution
  | .mk params body, r =>
    (stmts s body (params.foldl (fun r p => r.declareParameter p) r.openScope)).closeScope

def methods (s : Surroundings) : List FunctionDecl → Resolution → Resolution
  | [], r => r
  | .mk name function :: rest, r =>
    let body := if name.lexeme = "init" then BodyKind.initializer else .method
    methods s rest (lambda { s with body } function r)

def staticMethods (s : Surroundings) : List FunctionDecl → Resolution → Resolution
  | [], r => r
  | .mk _ function :: rest, r =>
    staticMethods s rest (lambda { s with body := .function } function r)

end

end Resolution

/-- Resolves the names of a program. Faults stop nothing. -/
def resolve : Program → Resolution
  | .statements body => Resolution.stmts .topLevel body .start
  | .expression e => Resolution.expr .topLevel e .start

end Lox
