import Lox.Diagnostic
import Lox.Syntax

/-!
The nodes of a tree that depend on what is around them, and those that stand for a fault of the text.
They are listed with the bodies that they are in, in the order in which names are resolved.
-/

namespace Lox

/-- A body around a node. A lambda is a function, too. -/
inductive Enclosure where
  | loop
  | function
  /-- A method, and whether the class around it has a superclass. -/
  | method (name : Token) (isStatic inherits : Bool)

namespace Enclosure

def isLoop : Enclosure → Bool
  | loop => true
  | function | method _ _ _ => false

/-- Whether `return` leaves the body. -/
def isFunction : Enclosure → Bool
  | loop => false
  | function | method _ _ _ => true

def isMethod : Enclosure → Bool
  | loop | function => false
  | method _ _ _ => true

end Enclosure

/-- The bodies around a node, the innermost first. -/
abbrev Enclosures := List Enclosure

/-- Whether a loop is around, with no function between. -/
def insideLoop (around : Enclosures) : Bool := around.head?.any Enclosure.isLoop

inductive MarkKind where
  | «break»
  | «continue»
  | breakError
  | continueError
  | binaryError
  | «return» (hasValue : Bool)
  | this (id : NodeId)
  | super (id : NodeId)
deriving DecidableEq

/-- A node with its keyword or operator. -/
structure Mark where
  kind : MarkKind
  token : Token
  around : Enclosures

mutual

def Expr.marks : Expr → Enclosures → List Mark
  | .literal _, _ => []
  | .grouping inner, around => inner.marks around
  | .unary _ right, around => right.marks around
  | .binary left _ right, around => left.marks around ++ right.marks around
  | .binaryError operator right, around => ⟨.binaryError, operator, around⟩ :: right.marks around
  | .conditional condition thenBranch elseBranch, around =>
    condition.marks around ++ (thenBranch.marks around ++ elseBranch.marks around)
  | .variable _, _ => []
  | .assign _ value, around => value.marks around
  | .call callee _ arguments, around => callee.marks around ++ Expr.marksAll arguments around
  | .get object _, around => object.marks around
  | .set object _ value, around => value.marks around ++ object.marks around
  | .this ref, around => [⟨.this ref.id, ref.name, around⟩]
  | .super ref _, around => [⟨.super ref.id, ref.name, around⟩]
  | .lambda function, around => function.marks (.function :: around)

def Expr.marksAll : List Expr → Enclosures → List Mark
  | [], _ => []
  | e :: rest, around => e.marks around ++ Expr.marksAll rest around

def Expr.marks? : Option Expr → Enclosures → List Mark
  | none, _ => []
  | some e, around => e.marks around

def Stmt.marks : Stmt → Enclosures → List Mark
  | .expression e, around => e.marks around
  | .print e, around => e.marks around
  | .var _ initializer, around => Expr.marks? initializer around
  | .block body, around => Stmt.marksAll body around
  | .ite condition thenBranch elseBranch, around =>
    condition.marks around ++ (thenBranch.marks around ++ Stmt.marks? elseBranch around)
  | .loop condition body increment, around =>
    condition.marks around ++ (body.marks (.loop :: around) ++ Expr.marks? increment around)
  | .break keyword, around => [⟨.break, keyword, around⟩]
  | .continue keyword, around => [⟨.continue, keyword, around⟩]
  | .breakError keyword, around => [⟨.breakError, keyword, around⟩]
  | .continueError keyword, around => [⟨.continueError, keyword, around⟩]
  | .function (.mk _ function), around => function.marks (.function :: around)
  | .return keyword value, around =>
    ⟨.return value.isSome, keyword, around⟩ :: Expr.marks? value around
  | .class _ superclass own statics, around =>
    FunctionDecl.marksAll false superclass.isSome own around ++
      FunctionDecl.marksAll true superclass.isSome statics around

def Stmt.marks? : Option Stmt → Enclosures → List Mark
  | none, _ => []
  | some s, around => s.marks around

def Stmt.marksAll : List Stmt → Enclosures → List Mark
  | [], _ => []
  | s :: rest, around => s.marks around ++ Stmt.marksAll rest around

def FunctionDecl.marksAll (isStatic inherits : Bool) : List FunctionDecl → Enclosures → List Mark
  | [], _ => []
  | .mk name function :: rest, around =>
    function.marks (.method name isStatic inherits :: around) ++
      FunctionDecl.marksAll isStatic inherits rest around

def Lambda.marks : Lambda → Enclosures → List Mark
  | .mk _ body, around => Stmt.marksAll body around

end

theorem Expr.marksAll_eq_flatMap (es : List Expr) (around : Enclosures) :
    Expr.marksAll es around = es.flatMap fun e => e.marks around := by
  induction es with
  | nil => rfl
  | cons e rest ih => rw [Expr.marksAll, ih, List.flatMap_cons]

def Program.marks : Program → List Mark
  | .statements body => Stmt.marksAll body []
  | .expression e => e.marks []

end Lox
