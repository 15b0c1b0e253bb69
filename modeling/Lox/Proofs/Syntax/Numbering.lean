import Lox.Proofs.Scope.Occurrences
import Lox.Proofs.Syntax.Keeping

/-!
No two occurrences of names have one number, and reading numbers them from where it is told to.
-/

namespace Lox

/-- The numbers lie in a range, and each one occurs once at most. -/
def Fresh (lo hi : Nat) (ids : List Nat) : Prop :=
  ∀ id : Nat, ids.count id ≤ if lo ≤ id ∧ id < hi then 1 else 0

namespace Fresh

variable {lo mid hi : Nat} {ids ids' : List Nat}

theorem nil : Fresh lo hi [] := fun _ => Nat.zero_le _

theorem mono (h : Fresh lo mid ids) (hhi : mid ≤ hi) (hids : ∀ id, ids'.count id ≤ ids.count id) :
    Fresh lo hi ids' := by
  intro id
  have hcount := h id
  have hle := hids id
  split at hcount <;> split <;> omega

theorem append (h : Fresh lo mid ids) (h' : Fresh mid hi ids') (hlo : lo ≤ mid) (hhi : mid ≤ hi) :
    Fresh lo hi (ids ++ ids') := by
  intro id
  have hcount := h id
  have hcount' := h' id
  rw [List.count_append]
  split at hcount <;> split at hcount' <;> split <;> omega

theorem nodup (h : Fresh lo hi ids) : ids.Nodup := by
  apply List.nodup_iff_count.2
  intro id
  have hcount := h id
  split at hcount <;> omega

theorem range (h : Fresh lo hi ids) {id : Nat} (hid : id ∈ ids) : lo ≤ id ∧ id < hi := by
  have hcount := h id
  have hpos := List.count_pos_iff.2 hid
  split at hcount
  · assumption
  · omega

end Fresh

namespace Numbering

open Account

/-- The numbers that have been given since some first one. -/
def account : Account fun _ => True where
  Origin := Nat
  Entry := List NodeId
  empty := []
  beside := (· ++ ·)
  origin c := c.nextId
  Holds lo c ids := lo ≤ c.nextId ∧ Fresh lo c.nextId ids
  empty_beside := List.nil_append
  beside_empty := List.append_nil
  beside_assoc := List.append_assoc
  words _ _ _ := trivial
  left h := ⟨h.1, h.2.mono (Nat.le_refl _) fun _ => (List.sublist_append_left _ _).count_le _⟩
  start _ := ⟨Nat.le_refl _, .nil⟩
  append h h' := ⟨Nat.le_trans h.1 h'.1, h.2.append h'.2 h.1 h'.1⟩
  pass _ _ _ h := h
  report _ _ h := h
  number h := ⟨Nat.le_succ_of_le h.1, h.2.mono (Nat.le_succ _) fun _ => Nat.le_refl _⟩

/-- Words have no numbers. -/
def entries : account.Entries where
  expr := Expr.ids
  stmt _ := Stmt.ids
  declaration _ := Stmt.ids
  loopBody := Stmt.ids
  function := Lambda.ids
  method _ _ decl := decl.function.ids
  superclass ref := [ref.id]
  name _ := []
  parameter _ := []
  program := Program.ids

theorem turns_of {ids ids' : List NodeId} (h : ∀ id, ids'.count id ≤ ids.count id) :
    account.Turns ids ids' := fun _ _ hc => ⟨hc.1, hc.2.mono (Nat.le_refl _) h⟩

/-- The number that is given next is not one of those from before. -/
theorem numbers_of {ids : List NodeId} {ids' : NodeId → List NodeId}
    (h : ∀ next id, (ids' next).count id ≤ (ids ++ [next]).count id) : account.Numbers ids ids' := by
  intro lo c hc
  have hnext : Fresh c.nextId (c.nextId + 1) [c.nextId] := by
    intro id
    rw [List.count_singleton]
    by_cases hid : c.nextId = id
    · subst hid
      have hin : c.nextId ≤ c.nextId ∧ c.nextId < c.nextId + 1 :=
        ⟨Nat.le_refl _, Nat.lt_succ_self _⟩
      rw [if_pos hin]
      split <;> omega
    · rw [if_neg (by simpa using hid)]
      exact Nat.zero_le _
  exact ⟨Nat.le_succ_of_le hc.1, (hc.2.append hnext hc.1 (Nat.le_succ _)).mono (Nat.le_refl _) (h _)⟩

theorem all_exprs (es : List Expr) : account.all Expr.ids es = Expr.idsAll es := by
  induction es with
  | nil => rfl
  | cons e rest ih => exact congrArg (e.ids ++ ·) ih

theorem all_stmts (body : List Stmt) : account.all Stmt.ids body = Stmt.idsAll body := by
  induction body with
  | nil => rfl
  | cons s rest ih => exact congrArg (s.ids ++ ·) ih

theorem all_methods (decls : List FunctionDecl) :
    account.all (fun decl => decl.function.ids) decls = FunctionDecl.idsAll decls := by
  induction decls with
  | nil => rfl
  | cons decl rest ih =>
    cases decl
    exact congrArg (Lambda.ids _ ++ ·) ih

theorem all_parameters (params : List Token) : account.all (fun _ => []) params = [] := by
  induction params with
  | nil => rfl
  | cons t rest ih => exact ih

theorem optional_expr (e? : Option Expr) : account.optional Expr.ids e? = Expr.ids? e? := by
  cases e? <;> rfl

theorem optional_stmt (s? : Option Stmt) : account.optional Stmt.ids s? = Stmt.ids? s? := by
  cases s? <;> rfl

theorem beside_eq (ids ids' : List NodeId) : account.beside ids ids' = ids ++ ids' := rfl

theorem composes : entries.Composes where
  name _ := takes_empty _
  parameter _ := takes_empty _
  nil := .refl _
  boolean _ := .refl _
  literal _ _ := .refl _
  grouping _ := .refl _
  unary _ _ := .refl _
  binary _ _ _ _ := .refl _
  binaryError _ _ := (turns_of fun _ => Nat.le_refl _).reports _ _
  conditional _ _ _ := turns_of fun id => by
    simp only [entries, beside_eq, Expr.ids, List.count_append]
    omega
  «variable» _ := numbers_of fun _ _ => Nat.le_refl _
  assign _ _ := numbers_of fun next id => by
    simp only [entries, beside_eq, Expr.ids, List.count_append]
    omega
  call _ _ _ _ := turns_of fun id => by
    simp only [entries, beside_eq, all_exprs, Expr.ids, Nat.le_refl]
  get _ _ _ := .refl _
  set _ _ _ := turns_of fun id => by
    simp only [entries, beside_eq, Expr.ids, List.count_append]
    omega
  this _ := numbers_of fun _ _ => Nat.le_refl _
  super _ _ := numbers_of fun _ _ => Nat.le_refl _
  lambda _ := .refl _
  expression _ _ := .refl _
  print _ _ := .refl _
  block _ body := by
    show account.Turns (account.all Stmt.ids body) (Stmt.idsAll body)
    rw [all_stmts]
    exact .refl _
  ite _ _ _ _ := turns_of fun id => by
    simp only [entries, beside_eq, optional_stmt, Stmt.ids, List.count_append]
    omega
  loopBody _ := .refl _
  loop _ _ _ _ := turns_of fun id => by
    simp only [entries, beside_eq, optional_expr, Stmt.ids, List.count_append]
    omega
  initialized _ _ _ _ _ := turns_of fun id => by
    simp only [entries, beside_eq, optional_expr, Stmt.ids, Stmt.idsAll, List.count_append, List.count_nil]
    omega
  «break» _ := .refl _
  «continue» _ := .refl _
  breakError _ := (turns_of fun _ => Nat.le_refl _).reports _ _
  continueError _ := (turns_of fun _ => Nat.le_refl _).reports _ _
  «return» _ _ value := turns_of fun id => by
    simp only [entries, optional_expr, Stmt.ids, Nat.le_refl]
  statement _ _ := .refl _
  var _ _ _ := turns_of fun id => by
    simp only [entries, beside_eq, optional_expr, Stmt.ids, List.nil_append, Nat.le_refl]
  named _ _ _ := .refl _
  superclass _ := numbers_of fun _ _ => Nat.le_refl _
  method _ _ _ _ := .refl _
  statics _ _ _ _ := turns_of fun id => by
    simp only [entries, beside_eq, all_methods, List.count_append, Account.all]
    omega
  «class» _ _ superclass _ _ := turns_of fun id => by
    have hsuperclass : account.optional (fun ref => [ref.id]) superclass =
        (superclass.map Reference.id).toList := by
      cases superclass <;> rfl
    simp only [entries, beside_eq, all_methods, hsuperclass, Stmt.ids, List.nil_append, Nat.le_refl]
  body params body := turns_of fun id => by
    simp only [entries, beside_eq, all_parameters, all_stmts, Lambda.ids, List.nil_append, Nat.le_refl]
  statements body := by
    show account.Turns (account.all Stmt.ids body) (Stmt.idsAll body)
    rw [all_stmts]
    exact .refl _
  single _ := .refl _

end Numbering

/-- A program is numbered from where its reading is told to. -/
theorem parse_numbers (tokens : List Token) (allowExpression : Bool) (nextId : NodeId) :
    let read := parse tokens allowExpression nextId
    nextId ≤ read.nextId ∧ Fresh nextId read.nextId read.program.ids := by
  intro read
  obtain ⟨d, hread, hids⟩ :=
    Account.parse_keeps Numbering.composes tokens allowExpression nextId ⟨Nat.le_refl _, .nil⟩
  have hnext : read.nextId = d.nextId := congrArg Parse.nextId hread
  rw [hnext]
  exact hids

end Lox
