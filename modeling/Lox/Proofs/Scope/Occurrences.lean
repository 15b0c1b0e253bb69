import Lox.Syntax

/-!
The scopes of a text. Each occurrence of a name stands in the scopes around it, of which each one has
the names that are declared in it before the occurrence.
-/

namespace Lox

/-- A scope by the text that makes it. -/
inductive StaticScope where
  | block (body : List Stmt)
  /-- Parameters and body. -/
  | function (f : Lambda)
  /-- The scope of `this` around the methods of a class. -/
  | receiver (own : List FunctionDecl)
  /-- The scope of `super` around the methods of a class with a superclass. -/
  | super (superclass : Reference) (own statics : List FunctionDecl)

/-- A scope with the names declared in it so far. -/
structure Layer where
  scope : StaticScope
  names : List String

/-- The scopes around a place, innermost first. At top level there is none. -/
abbrev Layers := List Layer

namespace Layers

/-- The number of scopes between a place and the innermost one that has the name. -/
def find? (Γ : Layers) (x : String) : Option Nat := Γ.findIdx? (·.names.contains x)

def declare (x : String) : Layers → Layers
  | [] => []
  | l :: rest => ⟨l.scope, x :: l.names⟩ :: rest

/-- The scopes around the methods of a class with the name, without that of `this`. -/
def ofClass (name : Token) (superclass : Option Reference) (own statics : List FunctionDecl)
    (Γ : Layers) : Layers :=
  match superclass with
  | none => Γ.declare name.lexeme
  | some ref => ⟨.super ref own statics, ["super"]⟩ :: Γ.declare name.lexeme

def ofReceiver (own : List FunctionDecl) (Γ : Layers) : Layers := ⟨.receiver own, ["this"]⟩ :: Γ

end Layers

def Lambda.layer (f : Lambda) : Layer := ⟨.function f, f.params.map Token.lexeme⟩

/-- The name that a statement declares in the scope around it. -/
def Stmt.declared? : Stmt → Option Token
  | .var name _ => some name
  | .function (.mk name _) => some name
  | .class name _ _ _ => some name
  | _ => none

/-- The scopes around what follows a statement. -/
def Layers.after (s : Stmt) (Γ : Layers) : Layers :=
  match s.declared? with
  | none => Γ
  | some name => Γ.declare name.lexeme

theorem Layers.after_undeclared {s : Stmt} (h : s.declared? = none) (Γ : Layers) :
    Γ.after s = Γ := by
  rw [after, h]

theorem Layers.after_declared {s : Stmt} {name : Token} (h : s.declared? = some name) (Γ : Layers) :
    Γ.after s = Γ.declare name.lexeme := by
  rw [after, h]

theorem Layers.after_top (s : Stmt) : Layers.after s [] = [] := by
  unfold after
  split <;> rfl

inductive Role where
  | read
  | target
  | this
  | super
deriving DecidableEq

structure Occurrence where
  role : Role
  ref : Reference
  layers : Layers

mutual

/-- The occurrences of names in an expression within some scopes. -/
def Expr.occurrences (Γ : Layers) : Expr → List Occurrence
  | .literal _ => []
  | .grouping inner => inner.occurrences Γ
  | .unary _ right => right.occurrences Γ
  | .binary left _ right => left.occurrences Γ ++ right.occurrences Γ
  | .binaryError _ right => right.occurrences Γ
  | .conditional condition thenBranch elseBranch =>
    condition.occurrences Γ ++ (thenBranch.occurrences Γ ++ elseBranch.occurrences Γ)
  | .variable ref => [⟨.read, ref, Γ⟩]
  | .assign target value => value.occurrences Γ ++ [⟨.target, target, Γ⟩]
  | .call callee _ arguments => callee.occurrences Γ ++ Expr.occurrencesAll Γ arguments
  | .get object _ => object.occurrences Γ
  | .set object _ value => value.occurrences Γ ++ object.occurrences Γ
  | .this ref => [⟨.this, ref, Γ⟩]
  | .super ref _ => [⟨.super, ref, Γ⟩]
  | .lambda function => function.occurrences Γ

def Expr.occurrencesAll (Γ : Layers) : List Expr → List Occurrence
  | [] => []
  | e :: rest => e.occurrences Γ ++ Expr.occurrencesAll Γ rest

def Expr.occurrences? (Γ : Layers) : Option Expr → List Occurrence
  | none => []
  | some e => e.occurrences Γ

/-- A superclass is looked up before its class has a name. -/
def Stmt.occurrences (Γ : Layers) : Stmt → List Occurrence
  | .expression e => e.occurrences Γ
  | .print e => e.occurrences Γ
  | .var name initializer => Expr.occurrences? (Γ.declare name.lexeme) initializer
  | .block body => Stmt.occurrencesAll (⟨.block body, []⟩ :: Γ) body
  | .ite condition thenBranch elseBranch =>
    condition.occurrences Γ ++ (thenBranch.occurrences Γ ++ Stmt.occurrences? Γ elseBranch)
  | .loop condition body increment =>
    condition.occurrences Γ ++ (body.occurrences Γ ++ Expr.occurrences? Γ increment)
  | .break _ => []
  | .continue _ => []
  | .breakError _ => []
  | .continueError _ => []
  | .function (.mk name function) => function.occurrences (Γ.declare name.lexeme)
  | .return _ value => Expr.occurrences? Γ value
  | .class name superclass own statics =>
    let inner := Γ.ofClass name superclass own statics
    (superclass.map (⟨.read, ·, Γ⟩)).toList ++
      (FunctionDecl.occurrencesAll (inner.ofReceiver own) own ++
        FunctionDecl.occurrencesAll inner statics)

def Stmt.occurrences? (Γ : Layers) : Option Stmt → List Occurrence
  | none => []
  | some s => s.occurrences Γ

def Stmt.occurrencesAll (Γ : Layers) : List Stmt → List Occurrence
  | [] => []
  | s :: rest => s.occurrences Γ ++ Stmt.occurrencesAll (Γ.after s) rest

def FunctionDecl.occurrencesAll (Γ : Layers) : List FunctionDecl → List Occurrence
  | [] => []
  | .mk _ function :: rest => function.occurrences Γ ++ FunctionDecl.occurrencesAll Γ rest

def Lambda.occurrences (Γ : Layers) : Lambda → List Occurrence
  | .mk params body => Stmt.occurrencesAll ((Lambda.mk params body).layer :: Γ) body

end

def Program.occurrences : Program → List Occurrence
  | .statements body => Stmt.occurrencesAll [] body
  | .expression e => e.occurrences []

/-! The numbers of the occurrences. -/

mutual

def Expr.ids : Expr → List NodeId
  | .literal _ => []
  | .grouping inner => inner.ids
  | .unary _ right => right.ids
  | .binary left _ right => left.ids ++ right.ids
  | .binaryError _ right => right.ids
  | .conditional condition thenBranch elseBranch =>
    condition.ids ++ (thenBranch.ids ++ elseBranch.ids)
  | .variable ref => [ref.id]
  | .assign target value => value.ids ++ [target.id]
  | .call callee _ arguments => callee.ids ++ Expr.idsAll arguments
  | .get object _ => object.ids
  | .set object _ value => value.ids ++ object.ids
  | .this ref => [ref.id]
  | .super ref _ => [ref.id]
  | .lambda function => function.ids

def Expr.idsAll : List Expr → List NodeId
  | [] => []
  | e :: rest => e.ids ++ Expr.idsAll rest

def Expr.ids? : Option Expr → List NodeId
  | none => []
  | some e => e.ids

def Stmt.ids : Stmt → List NodeId
  | .expression e => e.ids
  | .print e => e.ids
  | .var _ initializer => Expr.ids? initializer
  | .block body => Stmt.idsAll body
  | .ite condition thenBranch elseBranch =>
    condition.ids ++ (thenBranch.ids ++ Stmt.ids? elseBranch)
  | .loop condition body increment => condition.ids ++ (body.ids ++ Expr.ids? increment)
  | .break _ => []
  | .continue _ => []
  | .breakError _ => []
  | .continueError _ => []
  | .function (.mk _ function) => function.ids
  | .return _ value => Expr.ids? value
  | .class _ superclass own statics =>
    (superclass.map Reference.id).toList ++
      (FunctionDecl.idsAll own ++ FunctionDecl.idsAll statics)

def Stmt.ids? : Option Stmt → List NodeId
  | none => []
  | some s => s.ids

def Stmt.idsAll : List Stmt → List NodeId
  | [] => []
  | s :: rest => s.ids ++ Stmt.idsAll rest

def FunctionDecl.idsAll : List FunctionDecl → List NodeId
  | [] => []
  | .mk _ function :: rest => function.ids ++ FunctionDecl.idsAll rest

def Lambda.ids : Lambda → List NodeId
  | .mk _ body => Stmt.idsAll body

end

def Program.ids : Program → List NodeId
  | .statements body => Stmt.idsAll body
  | .expression e => e.ids

def Occurrence.id (o : Occurrence) : NodeId := o.ref.id

mutual

theorem Expr.map_occurrences (Γ : Layers) : ∀ e : Expr,
    (e.occurrences Γ).map Occurrence.id = e.ids
  | .literal _ | .variable _ | .this _ | .super _ _ => rfl
  | .grouping inner => Expr.map_occurrences Γ inner
  | .unary _ right => Expr.map_occurrences Γ right
  | .binaryError _ right => Expr.map_occurrences Γ right
  | .get object _ => Expr.map_occurrences Γ object
  | .lambda function => Lambda.map_occurrences Γ function
  | .binary left _ right => by
    simp only [Expr.occurrences, Expr.ids, List.map_append, Expr.map_occurrences Γ left,
      Expr.map_occurrences Γ right]
  | .conditional condition thenBranch elseBranch => by
    simp only [Expr.occurrences, Expr.ids, List.map_append, Expr.map_occurrences Γ condition,
      Expr.map_occurrences Γ thenBranch, Expr.map_occurrences Γ elseBranch]
  | .assign target value => by
    simp only [Expr.occurrences, Expr.ids, List.map_append, Expr.map_occurrences Γ value,
      List.map_cons, List.map_nil, Occurrence.id]
  | .call callee _ arguments => by
    simp only [Expr.occurrences, Expr.ids, List.map_append, Expr.map_occurrences Γ callee,
      Expr.map_occurrencesAll Γ arguments]
  | .set object _ value => by
    simp only [Expr.occurrences, Expr.ids, List.map_append, Expr.map_occurrences Γ value,
      Expr.map_occurrences Γ object]

theorem Expr.map_occurrencesAll (Γ : Layers) : ∀ es : List Expr,
    (Expr.occurrencesAll Γ es).map Occurrence.id = Expr.idsAll es
  | [] => rfl
  | e :: rest => by
    simp only [Expr.occurrencesAll, Expr.idsAll, List.map_append, Expr.map_occurrences Γ e,
      Expr.map_occurrencesAll Γ rest]

theorem Expr.map_occurrences? (Γ : Layers) : ∀ e? : Option Expr,
    (Expr.occurrences? Γ e?).map Occurrence.id = Expr.ids? e?
  | none => rfl
  | some e => Expr.map_occurrences Γ e

theorem Stmt.map_occurrences (Γ : Layers) : ∀ s : Stmt,
    (s.occurrences Γ).map Occurrence.id = s.ids
  | .expression e => Expr.map_occurrences Γ e
  | .print e => Expr.map_occurrences Γ e
  | .var _ initializer => Expr.map_occurrences? _ initializer
  | .block body => Stmt.map_occurrencesAll _ body
  | .ite condition thenBranch elseBranch => by
    simp only [Stmt.occurrences, Stmt.ids, List.map_append, Expr.map_occurrences Γ condition,
      Stmt.map_occurrences Γ thenBranch, Stmt.map_occurrences? Γ elseBranch]
  | .loop condition body increment => by
    simp only [Stmt.occurrences, Stmt.ids, List.map_append, Expr.map_occurrences Γ condition,
      Stmt.map_occurrences Γ body, Expr.map_occurrences? Γ increment]
  | .break _ | .continue _ | .breakError _ | .continueError _ => rfl
  | .function (.mk _ function) => Lambda.map_occurrences _ function
  | .return _ value => Expr.map_occurrences? Γ value
  | .class _ superclass own statics => by
    simp only [Stmt.occurrences, Stmt.ids, List.map_append,
      FunctionDecl.map_occurrencesAll _ own, FunctionDecl.map_occurrencesAll _ statics]
    cases superclass <;> rfl

theorem Stmt.map_occurrences? (Γ : Layers) : ∀ s? : Option Stmt,
    (Stmt.occurrences? Γ s?).map Occurrence.id = Stmt.ids? s?
  | none => rfl
  | some s => Stmt.map_occurrences Γ s

theorem Stmt.map_occurrencesAll (Γ : Layers) : ∀ body : List Stmt,
    (Stmt.occurrencesAll Γ body).map Occurrence.id = Stmt.idsAll body
  | [] => rfl
  | s :: rest => by
    simp only [Stmt.occurrencesAll, Stmt.idsAll, List.map_append, Stmt.map_occurrences Γ s,
      Stmt.map_occurrencesAll _ rest]

theorem FunctionDecl.map_occurrencesAll (Γ : Layers) : ∀ decls : List FunctionDecl,
    (FunctionDecl.occurrencesAll Γ decls).map Occurrence.id = FunctionDecl.idsAll decls
  | [] => rfl
  | .mk _ function :: rest => by
    simp only [FunctionDecl.occurrencesAll, FunctionDecl.idsAll, List.map_append,
      Lambda.map_occurrences Γ function, FunctionDecl.map_occurrencesAll Γ rest]

theorem Lambda.map_occurrences (Γ : Layers) : ∀ f : Lambda,
    (f.occurrences Γ).map Occurrence.id = f.ids
  | .mk _ body => Stmt.map_occurrencesAll _ body

end

theorem Program.map_occurrences : ∀ p : Program, p.occurrences.map Occurrence.id = p.ids
  | .statements body => Stmt.map_occurrencesAll [] body
  | .expression e => Expr.map_occurrences [] e

end Lox
