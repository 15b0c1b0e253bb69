import Lox.Syntax

/-!
Trees with other tokens and other node numbers in the same places. Two trees are the same up to node
numbers if they agree once every number is 0.
-/

namespace Lox

def Reference.relabel (f : Token → Token) (g : NodeId → NodeId) (ref : Reference) : Reference :=
  ⟨g ref.id, f ref.name⟩

mutual

def Expr.relabel (f : Token → Token) (g : NodeId → NodeId) : Expr → Expr
  | .literal value => .literal value
  | .grouping inner => .grouping (inner.relabel f g)
  | .unary operator right => .unary (f operator) (right.relabel f g)
  | .binary left operator right => .binary (left.relabel f g) (f operator) (right.relabel f g)
  | .binaryError operator right => .binaryError (f operator) (right.relabel f g)
  | .conditional condition thenBranch elseBranch =>
    .conditional (condition.relabel f g) (thenBranch.relabel f g) (elseBranch.relabel f g)
  | .variable ref => .variable (ref.relabel f g)
  | .assign target value => .assign (target.relabel f g) (value.relabel f g)
  | .call callee paren arguments =>
    .call (callee.relabel f g) (f paren) (Expr.relabelAll f g arguments)
  | .get object name => .get (object.relabel f g) (f name)
  | .set object name value => .set (object.relabel f g) (f name) (value.relabel f g)
  | .this ref => .this (ref.relabel f g)
  | .super ref method => .super (ref.relabel f g) (f method)
  | .lambda function => .lambda (function.relabel f g)

def Expr.relabelAll (f : Token → Token) (g : NodeId → NodeId) : List Expr → List Expr
  | [] => []
  | e :: rest => e.relabel f g :: Expr.relabelAll f g rest

def Expr.relabel? (f : Token → Token) (g : NodeId → NodeId) : Option Expr → Option Expr
  | none => none
  | some e => some (e.relabel f g)

def Stmt.relabel (f : Token → Token) (g : NodeId → NodeId) : Stmt → Stmt
  | .expression e => .expression (e.relabel f g)
  | .print e => .print (e.relabel f g)
  | .var name initializer => .var (f name) (Expr.relabel? f g initializer)
  | .block body => .block (Stmt.relabelAll f g body)
  | .ite condition thenBranch elseBranch =>
    .ite (condition.relabel f g) (thenBranch.relabel f g) (Stmt.relabel? f g elseBranch)
  | .loop condition body increment =>
    .loop (condition.relabel f g) (body.relabel f g) (Expr.relabel? f g increment)
  | .break keyword => .break (f keyword)
  | .continue keyword => .continue (f keyword)
  | .breakError keyword => .breakError (f keyword)
  | .continueError keyword => .continueError (f keyword)
  | .function decl => .function (decl.relabel f g)
  | .return keyword value => .return (f keyword) (Expr.relabel? f g value)
  | .class name superclass methods statics =>
    .class (f name) (superclass.map (·.relabel f g)) (FunctionDecl.relabelAll f g methods)
      (FunctionDecl.relabelAll f g statics)

def Stmt.relabelAll (f : Token → Token) (g : NodeId → NodeId) : List Stmt → List Stmt
  | [] => []
  | s :: rest => s.relabel f g :: Stmt.relabelAll f g rest

def Stmt.relabel? (f : Token → Token) (g : NodeId → NodeId) : Option Stmt → Option Stmt
  | none => none
  | some s => some (s.relabel f g)

def FunctionDecl.relabel (f : Token → Token) (g : NodeId → NodeId) : FunctionDecl → FunctionDecl
  | .mk name function => .mk (f name) (function.relabel f g)

def FunctionDecl.relabelAll (f : Token → Token) (g : NodeId → NodeId) :
    List FunctionDecl → List FunctionDecl
  | [] => []
  | decl :: rest => decl.relabel f g :: FunctionDecl.relabelAll f g rest

def Lambda.relabel (f : Token → Token) (g : NodeId → NodeId) : Lambda → Lambda
  | .mk params body => .mk (params.map f) (Stmt.relabelAll f g body)

end

def Program.relabel (f : Token → Token) (g : NodeId → NodeId) : Program → Program
  | .statements body => .statements (Stmt.relabelAll f g body)
  | .expression e => .expression (e.relabel f g)

section Composition

variable (f f' : Token → Token) (g g' : NodeId → NodeId)

theorem Reference.relabel_relabel (ref : Reference) :
    (ref.relabel f g).relabel f' g' = ref.relabel (f' ∘ f) (g' ∘ g) := rfl

mutual

theorem Expr.relabel_relabel : ∀ e : Expr,
    (e.relabel f g).relabel f' g' = e.relabel (f' ∘ f) (g' ∘ g)
  | .literal _ => rfl
  | .grouping inner => by
    simp only [Expr.relabel, Expr.relabel_relabel inner]
  | .unary _ right => by
    simp only [Expr.relabel, Expr.relabel_relabel right, Function.comp_apply]
  | .binary left _ right => by
    simp only [Expr.relabel, Expr.relabel_relabel left, Expr.relabel_relabel right,
      Function.comp_apply]
  | .binaryError _ right => by
    simp only [Expr.relabel, Expr.relabel_relabel right, Function.comp_apply]
  | .conditional condition thenBranch elseBranch => by
    simp only [Expr.relabel, Expr.relabel_relabel condition, Expr.relabel_relabel thenBranch,
      Expr.relabel_relabel elseBranch]
  | .variable _ => rfl
  | .assign _ value => by
    simp only [Expr.relabel, Expr.relabel_relabel value, Reference.relabel_relabel]
  | .call callee _ arguments => by
    simp only [Expr.relabel, Expr.relabel_relabel callee, Expr.relabelAll_relabelAll arguments,
      Function.comp_apply]
  | .get object _ => by
    simp only [Expr.relabel, Expr.relabel_relabel object, Function.comp_apply]
  | .set object _ value => by
    simp only [Expr.relabel, Expr.relabel_relabel object, Expr.relabel_relabel value,
      Function.comp_apply]
  | .this _ => rfl
  | .super _ _ => rfl
  | .lambda function => by
    simp only [Expr.relabel, Lambda.relabel_relabel function]

theorem Expr.relabelAll_relabelAll : ∀ es : List Expr,
    Expr.relabelAll f' g' (Expr.relabelAll f g es) = Expr.relabelAll (f' ∘ f) (g' ∘ g) es
  | [] => rfl
  | e :: rest => by
    simp only [Expr.relabelAll, Expr.relabel_relabel e, Expr.relabelAll_relabelAll rest]

theorem Expr.relabel?_relabel? : ∀ e? : Option Expr,
    Expr.relabel? f' g' (Expr.relabel? f g e?) = Expr.relabel? (f' ∘ f) (g' ∘ g) e?
  | none => rfl
  | some e => by simp only [Expr.relabel?, Expr.relabel_relabel e]

theorem Stmt.relabel_relabel : ∀ s : Stmt,
    (s.relabel f g).relabel f' g' = s.relabel (f' ∘ f) (g' ∘ g)
  | .expression e => by simp only [Stmt.relabel, Expr.relabel_relabel e]
  | .print e => by simp only [Stmt.relabel, Expr.relabel_relabel e]
  | .var _ initializer => by
    simp only [Stmt.relabel, Expr.relabel?_relabel? initializer, Function.comp_apply]
  | .block body => by simp only [Stmt.relabel, Stmt.relabelAll_relabelAll body]
  | .ite condition thenBranch elseBranch => by
    simp only [Stmt.relabel, Expr.relabel_relabel condition, Stmt.relabel_relabel thenBranch,
      Stmt.relabel?_relabel? elseBranch]
  | .loop condition body increment => by
    simp only [Stmt.relabel, Expr.relabel_relabel condition, Stmt.relabel_relabel body,
      Expr.relabel?_relabel? increment]
  | .break _ => rfl
  | .continue _ => rfl
  | .breakError _ => rfl
  | .continueError _ => rfl
  | .function decl => by simp only [Stmt.relabel, FunctionDecl.relabel_relabel decl]
  | .return _ value => by
    simp only [Stmt.relabel, Expr.relabel?_relabel? value, Function.comp_apply]
  | .class _ superclass methods statics => by
    simp only [Stmt.relabel, FunctionDecl.relabelAll_relabelAll methods,
      FunctionDecl.relabelAll_relabelAll statics, Option.map_map, Function.comp_apply]
    rfl

theorem Stmt.relabelAll_relabelAll : ∀ body : List Stmt,
    Stmt.relabelAll f' g' (Stmt.relabelAll f g body) = Stmt.relabelAll (f' ∘ f) (g' ∘ g) body
  | [] => rfl
  | s :: rest => by
    simp only [Stmt.relabelAll, Stmt.relabel_relabel s, Stmt.relabelAll_relabelAll rest]

theorem Stmt.relabel?_relabel? : ∀ s? : Option Stmt,
    Stmt.relabel? f' g' (Stmt.relabel? f g s?) = Stmt.relabel? (f' ∘ f) (g' ∘ g) s?
  | none => rfl
  | some s => by simp only [Stmt.relabel?, Stmt.relabel_relabel s]

theorem FunctionDecl.relabel_relabel : ∀ decl : FunctionDecl,
    (decl.relabel f g).relabel f' g' = decl.relabel (f' ∘ f) (g' ∘ g)
  | .mk _ function => by
    simp only [FunctionDecl.relabel, Lambda.relabel_relabel function, Function.comp_apply]

theorem FunctionDecl.relabelAll_relabelAll : ∀ decls : List FunctionDecl,
    FunctionDecl.relabelAll f' g' (FunctionDecl.relabelAll f g decls) =
      FunctionDecl.relabelAll (f' ∘ f) (g' ∘ g) decls
  | [] => rfl
  | decl :: rest => by
    simp only [FunctionDecl.relabelAll, FunctionDecl.relabel_relabel decl,
      FunctionDecl.relabelAll_relabelAll rest]

theorem Lambda.relabel_relabel : ∀ function : Lambda,
    (function.relabel f g).relabel f' g' = function.relabel (f' ∘ f) (g' ∘ g)
  | .mk _ body => by
    simp only [Lambda.relabel, Stmt.relabelAll_relabelAll body, List.map_map]

end

end Composition

section Identity

theorem relabel_id_reference (ref : Reference) : ref.relabel id id = ref := rfl

mutual

theorem Expr.relabel_id : ∀ e : Expr, e.relabel id id = e
  | .literal _ => rfl
  | .grouping inner => by simp only [Expr.relabel, Expr.relabel_id inner]
  | .unary _ right => by simp only [Expr.relabel, Expr.relabel_id right, id_eq]
  | .binary left _ right => by
    simp only [Expr.relabel, Expr.relabel_id left, Expr.relabel_id right, id_eq]
  | .binaryError _ right => by simp only [Expr.relabel, Expr.relabel_id right, id_eq]
  | .conditional condition thenBranch elseBranch => by
    simp only [Expr.relabel, Expr.relabel_id condition, Expr.relabel_id thenBranch,
      Expr.relabel_id elseBranch]
  | .variable _ => rfl
  | .assign _ value => by
    simp only [Expr.relabel, Expr.relabel_id value, relabel_id_reference]
  | .call callee _ arguments => by
    simp only [Expr.relabel, Expr.relabel_id callee, Expr.relabelAll_id arguments, id_eq]
  | .get object _ => by simp only [Expr.relabel, Expr.relabel_id object, id_eq]
  | .set object _ value => by
    simp only [Expr.relabel, Expr.relabel_id object, Expr.relabel_id value, id_eq]
  | .this _ => rfl
  | .super _ _ => rfl
  | .lambda function => by simp only [Expr.relabel, Lambda.relabel_id function]

theorem Expr.relabelAll_id : ∀ es : List Expr, Expr.relabelAll id id es = es
  | [] => rfl
  | e :: rest => by simp only [Expr.relabelAll, Expr.relabel_id e, Expr.relabelAll_id rest]

theorem Expr.relabel?_id : ∀ e? : Option Expr, Expr.relabel? id id e? = e?
  | none => rfl
  | some e => by simp only [Expr.relabel?, Expr.relabel_id e]

theorem Stmt.relabel_id : ∀ s : Stmt, s.relabel id id = s
  | .expression e => by simp only [Stmt.relabel, Expr.relabel_id e]
  | .print e => by simp only [Stmt.relabel, Expr.relabel_id e]
  | .var _ initializer => by simp only [Stmt.relabel, Expr.relabel?_id initializer, id_eq]
  | .block body => by simp only [Stmt.relabel, Stmt.relabelAll_id body]
  | .ite condition thenBranch elseBranch => by
    simp only [Stmt.relabel, Expr.relabel_id condition, Stmt.relabel_id thenBranch,
      Stmt.relabel?_id elseBranch]
  | .loop condition body increment => by
    simp only [Stmt.relabel, Expr.relabel_id condition, Stmt.relabel_id body,
      Expr.relabel?_id increment]
  | .break _ => rfl
  | .continue _ => rfl
  | .breakError _ => rfl
  | .continueError _ => rfl
  | .function decl => by simp only [Stmt.relabel, FunctionDecl.relabel_id decl]
  | .return _ value => by simp only [Stmt.relabel, Expr.relabel?_id value, id_eq]
  | .class _ superclass methods statics => by
    simp only [Stmt.relabel, FunctionDecl.relabelAll_id methods, FunctionDecl.relabelAll_id statics,
      relabel_id_reference, Option.map_id', id_eq]

theorem Stmt.relabelAll_id : ∀ body : List Stmt, Stmt.relabelAll id id body = body
  | [] => rfl
  | s :: rest => by simp only [Stmt.relabelAll, Stmt.relabel_id s, Stmt.relabelAll_id rest]

theorem Stmt.relabel?_id : ∀ s? : Option Stmt, Stmt.relabel? id id s? = s?
  | none => rfl
  | some s => by simp only [Stmt.relabel?, Stmt.relabel_id s]

theorem FunctionDecl.relabel_id : ∀ decl : FunctionDecl, decl.relabel id id = decl
  | .mk _ function => by simp only [FunctionDecl.relabel, Lambda.relabel_id function, id_eq]

theorem FunctionDecl.relabelAll_id : ∀ decls : List FunctionDecl,
    FunctionDecl.relabelAll id id decls = decls
  | [] => rfl
  | decl :: rest => by
    simp only [FunctionDecl.relabelAll, FunctionDecl.relabel_id decl,
      FunctionDecl.relabelAll_id rest]

theorem Lambda.relabel_id : ∀ function : Lambda, function.relabel id id = function
  | .mk _ body => by simp only [Lambda.relabel, Stmt.relabelAll_id body, List.map_id]

end

theorem Program.relabel_id (p : Program) : p.relabel id id = p := by
  cases p with
  | statements body => exact congrArg Program.statements (Stmt.relabelAll_id body)
  | expression e => exact congrArg Program.expression (Expr.relabel_id e)

end Identity

theorem Expr.relabelAll_eq_map (f : Token → Token) (g : NodeId → NodeId) (es : List Expr) :
    Expr.relabelAll f g es = es.map (·.relabel f g) := by
  induction es with
  | nil => rfl
  | cons e rest ih => rw [Expr.relabelAll, ih, List.map_cons]

theorem Stmt.relabelAll_eq_map (f : Token → Token) (g : NodeId → NodeId) (body : List Stmt) :
    Stmt.relabelAll f g body = body.map (·.relabel f g) := by
  induction body with
  | nil => rfl
  | cons s rest ih => rw [Stmt.relabelAll, ih, List.map_cons]

theorem FunctionDecl.relabelAll_eq_map (f : Token → Token) (g : NodeId → NodeId)
    (decls : List FunctionDecl) :
    FunctionDecl.relabelAll f g decls = decls.map (·.relabel f g) := by
  induction decls with
  | nil => rfl
  | cons decl rest ih => rw [FunctionDecl.relabelAll, ih, List.map_cons]

/-! The trees without their node numbers. -/

def Expr.bare : Expr → Expr := Expr.relabel id fun _ => 0

def Expr.bareAll : List Expr → List Expr := Expr.relabelAll id fun _ => 0

def Expr.bare? : Option Expr → Option Expr := Expr.relabel? id fun _ => 0

def Stmt.bare : Stmt → Stmt := Stmt.relabel id fun _ => 0

def Stmt.bare? : Option Stmt → Option Stmt := Stmt.relabel? id fun _ => 0

def Stmt.bareAll : List Stmt → List Stmt := Stmt.relabelAll id fun _ => 0

def FunctionDecl.bare : FunctionDecl → FunctionDecl := FunctionDecl.relabel id fun _ => 0

def FunctionDecl.bareAll : List FunctionDecl → List FunctionDecl :=
  FunctionDecl.relabelAll id fun _ => 0

def Lambda.bare : Lambda → Lambda := Lambda.relabel id fun _ => 0

end Lox
