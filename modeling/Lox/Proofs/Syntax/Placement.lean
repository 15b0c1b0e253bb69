import Lox.Proofs.Syntax.Making

/-!
Where `break`, `continue` and `return` stand. Whatever is wrong with a text, in what the parser makes of
it every `break` and `continue` is inside a loop of the same function.
-/

namespace Lox

mutual

/-- In every function of the expression `break` and `continue` stand in loops. -/
def Expr.Placed : Expr → Prop
  | .literal _ => True
  | .grouping inner => inner.Placed
  | .unary _ right => right.Placed
  | .binary left _ right => left.Placed ∧ right.Placed
  | .binaryError _ right => right.Placed
  | .conditional condition thenBranch elseBranch =>
    condition.Placed ∧ thenBranch.Placed ∧ elseBranch.Placed
  | .variable _ => True
  | .assign _ value => value.Placed
  | .call callee _ arguments => callee.Placed ∧ Expr.PlacedAll arguments
  | .get object _ => object.Placed
  | .set object _ value => object.Placed ∧ value.Placed
  | .this _ => True
  | .super _ _ => True
  | .lambda function => function.Placed

def Expr.PlacedAll : List Expr → Prop
  | [] => True
  | e :: rest => e.Placed ∧ Expr.PlacedAll rest

def Expr.Placed? : Option Expr → Prop
  | none => True
  | some e => e.Placed

/-- The statement may stand in a loop or not, and in a function or not. What a loop or a function of its
own holds may stand there. -/
def Stmt.Placed (inLoop inBody : Bool) : Stmt → Prop
  | .expression e => e.Placed
  | .print e => e.Placed
  | .var _ initializer => Expr.Placed? initializer
  | .block body => Stmt.PlacedAll inLoop inBody body
  | .ite condition thenBranch elseBranch =>
    condition.Placed ∧ thenBranch.Placed inLoop inBody ∧ Stmt.Placed? inLoop inBody elseBranch
  | .loop condition body increment =>
    condition.Placed ∧ body.Placed true inBody ∧ Expr.Placed? increment
  | .break _ => inLoop = true
  | .continue _ => inLoop = true
  | .breakError _ => True
  | .continueError _ => True
  | .function (.mk _ function) => function.Placed
  | .return _ value => inBody = true ∧ Expr.Placed? value
  | .class _ _ own statics => FunctionDecl.PlacedAll own ∧ FunctionDecl.PlacedAll statics

def Stmt.Placed? (inLoop inBody : Bool) : Option Stmt → Prop
  | none => True
  | some s => s.Placed inLoop inBody

def Stmt.PlacedAll (inLoop inBody : Bool) : List Stmt → Prop
  | [] => True
  | s :: rest => s.Placed inLoop inBody ∧ Stmt.PlacedAll inLoop inBody rest

def FunctionDecl.PlacedAll : List FunctionDecl → Prop
  | [] => True
  | .mk _ function :: rest => function.Placed ∧ FunctionDecl.PlacedAll rest

/-- The loops around a function do not count for its body. -/
def Lambda.Placed : Lambda → Prop
  | .mk _ body => Stmt.PlacedAll false true body

end

def Program.Placed (inBody : Bool) : Program → Prop
  | .statements body => Stmt.PlacedAll false inBody body
  | .expression e => e.Placed

theorem Expr.placedAll_of_forall {es : List Expr} (h : ∀ e ∈ es, e.Placed) : Expr.PlacedAll es := by
  induction es with
  | nil => exact trivial
  | cons e rest ih =>
    rw [List.forall_mem_cons] at h
    exact ⟨h.1, ih h.2⟩

/-- The statements of the top level. -/
def Program.body : Program → List Stmt
  | .statements body => body
  | .expression _ => []

theorem Stmt.PlacedAll.of_mem {inLoop inBody : Bool} {body : List Stmt} {s : Stmt}
    (h : Stmt.PlacedAll inLoop inBody body) (hs : s ∈ body) : s.Placed inLoop inBody := by
  induction body with
  | nil => exact absurd hs List.not_mem_nil
  | cons first rest ih =>
    rcases List.mem_cons.1 hs with rfl | hrest
    · exact h.1
    · exact ih h.2 hrest

theorem Program.Placed.of_mem {inBody : Bool} {p : Program} (h : p.Placed inBody) {s : Stmt}
    (hs : s ∈ p.body) : s.Placed false inBody := by
  cases p with
  | statements body => exact Stmt.PlacedAll.of_mem h hs
  | expression e => exact absurd hs List.not_mem_nil

section Lists

theorem Stmt.placedAll_of_forall {inLoop inBody : Bool} {body : List Stmt}
    (h : ∀ s ∈ body, s.Placed inLoop inBody) : Stmt.PlacedAll inLoop inBody body := by
  induction body with
  | nil => exact trivial
  | cons s rest ih =>
    rw [List.forall_mem_cons] at h
    exact ⟨h.1, ih h.2⟩

theorem FunctionDecl.placedAll_of_forall {decls : List FunctionDecl}
    (h : ∀ decl ∈ decls, decl.function.Placed) : FunctionDecl.PlacedAll decls := by
  induction decls with
  | nil => exact trivial
  | cons decl rest ih =>
    obtain ⟨name, f⟩ := decl
    rw [List.forall_mem_cons] at h
    exact ⟨h.1, ih h.2⟩

theorem Expr.placed?_of_forall {e? : Option Expr} (h : ∀ e ∈ e?, e.Placed) : Expr.Placed? e? := by
  cases e? with
  | none => exact trivial
  | some e => exact h e rfl

theorem Stmt.placed?_of_forall {inLoop inBody : Bool} {s? : Option Stmt}
    (h : ∀ s ∈ s?, s.Placed inLoop inBody) : Stmt.Placed? inLoop inBody s? := by
  cases s? with
  | none => exact trivial
  | some s => exact h s rfl

end Lists

/-- In a function a `return` may stand anywhere. -/
def placing : TreeProperty where
  expr := Expr.Placed
  stmt inLoop := Stmt.Placed inLoop true
  declaration inLoop := Stmt.Placed inLoop true
  function := Lambda.Placed

theorem placing_composes : placing.Composes fun _ => True where
  nil := trivial
  boolean _ := trivial
  literal _ _ := trivial
  grouping h := h
  unary _ h := h
  binary hl _ hr := ⟨hl, hr⟩
  binaryError _ h := h
  conditional hc ht hf := ⟨hc, ht, hf⟩
  «variable» _ := trivial
  assign _ _ _ _ h := h
  call hc _ ha := ⟨hc, Expr.placedAll_of_forall ha⟩
  get h _ := h
  set ho hv := ⟨ho, hv⟩
  this _ := trivial
  super _ _ := trivial
  lambda h := h
  expression _ _ h := h
  print _ _ h := h
  block h := Stmt.placedAll_of_forall h
  ite hc ht hf := ⟨hc, ht, Stmt.placed?_of_forall hf⟩
  loop _ _ _ _ hc hb hi := ⟨hc, hb, Expr.placed?_of_forall hi⟩
  «break» _ := rfl
  «continue» _ := rfl
  breakError _ := trivial
  continueError _ := trivial
  «return» _ _ _ h := ⟨rfl, Expr.placed?_of_forall h⟩
  statement h := h
  var _ _ _ h := Expr.placed?_of_forall h
  named _ _ _ h := h
  «class» _ _ _ _ _ _ hown hstatics :=
    ⟨FunctionDecl.placedAll_of_forall hown, FunctionDecl.placedAll_of_forall hstatics⟩
  body _ _ h := Stmt.placedAll_of_forall h

/-- In what the parser makes of any tokens, `break` and `continue` stand in loops only. -/
theorem parse_placed (tokens : List Token) (allowExpression : Bool) (nextId : NodeId) :
    (parse tokens allowExpression nextId).program.Placed true := by
  have hplaced := parse_makes placing_composes tokens allowExpression nextId fun _ _ => trivial
  generalize (parse tokens allowExpression nextId).program = p at hplaced ⊢
  cases p with
  | statements body => exact Stmt.placedAll_of_forall hplaced
  | expression e => exact hplaced

end Lox
