import Lox.Proofs.Evaluation.Operators
import Lox.Proofs.Evaluation.Points
import Lox.Proofs.Outcome

/-!
What every run does to a machine. A run is put together from few actions, so what these do to a machine
is what each expression, statement and call does, however it ends.
-/

namespace Lox

open Run

/-- A relation between the machine before and the machine after, which holds of the actions that a run
is made of. -/
class Effect (R : Machine → Machine → Prop) : Prop where
  refl : ∀ m, R m m
  trans : ∀ {m m' m''}, R m m' → R m' m'' → R m m''
  heap : ∀ (m : Machine) (heap : Heap), R m { m with heap }
  print : ∀ (m : Machine) (text : String), R m { m with printed := text :: m.printed }
  within : ∀ {m m' : Machine} {e : Environment}, R { m with environment := e } m' →
    R m { m' with environment := m.environment }

namespace Run

variable {α β : Type} {R : Machine → Machine → Prop}

/-- On every machine, and however the action ends. -/
def Affects (R : Machine → Machine → Prop) (p : Run α) : Prop := ∀ m : Machine, R m (machineOf (p m))

variable [Effect R]

namespace Affects

variable {p : Run α}

theorem pure (a : α) : Affects R (pure a) := Effect.refl

theorem fail (x : Token) (fault : RuntimeFault) : Affects R (fail x fault : Run α) := Effect.refl

theorem outOfFuel : Affects R (outOfFuel : Run α) := Effect.refl

theorem bind {f : α → Run β} (h : Affects R p) (hf : ∀ a, Affects R (f a)) : Affects R (p >>= f) := by
  intro m
  have hp := h m
  cases hr : p m with
  | error halt m' =>
    rw [hr] at hp
    rwa [bind_of_error hr]
  | ok a m' =>
    rw [hr] at hp
    rw [bind_of_ok hr]
    exact Effect.trans hp (hf a m')

theorem map (h : Affects R p) (f : α → β) : Affects R (f <$> p) := h.bind fun a => pure (f a)

theorem access (action : Access α) : Affects R (access action) := by
  intro m
  unfold Run.access
  simp only
  cases action m.heap <;> exact Effect.heap m _

theorem environment : Affects R environment := Effect.refl

theorem hops? (id : NodeId) : Affects R (hops? id) := Effect.refl

theorem print (v : Value) : Affects R (print v) := fun m => Effect.print m v.text

/-- The environment comes back from any other one. -/
theorem within (h : Affects R p) (e : Environment) : Affects R (within e p) := by
  intro m
  have hp := h { m with environment := e }
  unfold Run.within
  simp only
  cases hr : p { m with environment := e } <;> rw [hr] at hp <;> exact Effect.within hp

end Affects

section Operations

theorem lookUp_affects (ref : Reference) : Affects R (lookUp ref) := by
  unfold lookUp
  refine (Affects.hops? ref.id).bind fun distance => ?_
  cases distance with
  | none => exact .access _
  | some distance => exact Affects.environment.bind fun e => .access _

theorem assign_affects (target : Reference) (v : Value) : Affects R (assign target v) := by
  unfold assign
  refine (Affects.hops? target.id).bind fun distance => ?_
  cases distance with
  | none => exact .access _
  | some distance => exact Affects.environment.bind fun e => .access _

theorem Computes.affects {operator operator' : Token} {p p' : Run Value}
    (h : Computes operator operator' p p') : Affects R p := by
  cases h with
  | boolean b => exact .pure _
  | number x => exact .pure _
  | string s => exact .pure _
  | fails fault => exact .fail _ fault

theorem unary_affects (operator : Token) (v : Value) : Affects R (unary operator v) :=
  (unary_computes_self operator v).affects

theorem binary_affects (operator : Token) (v w : Value) : Affects R (binary operator v w) :=
  (binary_computes_self operator v w).affects

theorem property_affects (v : Value) (name : Token) : Affects R (property v name) := by
  unfold property
  split
  · exact .access _
  · exact .access _
  · exact .fail _ _

theorem propertyTable_affects (v : Value) (name : Token) : Affects R (propertyTable v name) := by
  unfold propertyTable
  split
  · exact .pure _
  · exact .pure _
  · exact .fail _ _

theorem superMethod_affects (ref : Reference) (method : Token) : Affects R (superMethod ref method) := by
  unfold superMethod
  refine (Affects.hops? ref.id).bind fun distance => ?_
  cases distance with
  | none => exact .fail _ _
  | some distance =>
    refine Affects.environment.bind fun e => (Affects.access _).bind fun v => ?_
    split
    · refine (Affects.access _).bind fun w => ?_
      split
      · split
        · exact .map (.access _) _
        · exact .fail _ _
      · exact .fail _ _
    · exact .fail _ _

theorem superclass_affects (ref? : Option Reference) : Affects R (superclass ref?) := by
  cases ref? with
  | none => exact .pure _
  | some ref =>
    refine (lookUp_affects ref).bind fun v => ?_
    split
    · exact .pure _
    · exact .fail _ _

theorem define_affects (name : Token) (value : Option Value) : Affects R (define name value) :=
  Affects.environment.bind fun _ => .access _

theorem closure_affects (name : Option String) (f : Lambda) : Affects R (closure name f) :=
  Affects.environment.bind fun _ => .map (.access _) _

theorem native_affects (f : Native) : Affects R (native f) := by
  cases f with
  | clock => exact Effect.refl

theorem checkArity_affects (paren : Token) (expected given : Nat) :
    Affects R (checkArity paren expected given) := by
  unfold checkArity
  split
  · exact .pure _
  · exact .fail _ _

theorem callResult_affects (f : Closure) (c : Completion) : Affects R (callResult f c) := by
  unfold callResult
  split
  · exact .access _
  · split <;> exact .pure _

end Operations

/-- What `n` units of fuel evaluate affects a machine so. -/
structure Affecting (R : Machine → Machine → Prop) (n : Nat) : Prop where
  eval : ∀ e, Affects R (eval n e)
  evalAll : ∀ es, Affects R (evalAll n es)
  call : ∀ v paren vs, Affects R (call n v paren vs)
  invoke : ∀ f vs, Affects R (invoke n f vs)
  exec : ∀ s, Affects R (exec n s)
  execAll : ∀ body, Affects R (execAll n body)
  iterate : ∀ condition body increment, Affects R (iterate n condition body increment)

namespace Affecting

variable {n : Nat} (hn : Affecting R n)
include hn

/-! What follows a part, whatever the part has given. -/

theorem rest_of_left (operator : Token) (right : Expr) (v : Value) :
    Affects R (match afterLeft operator.kind v with
      | .keepLeft => pure v
      | .takeRight => Run.eval n right
      | .combine => do binary operator v (← Run.eval n right)) := by
  cases afterLeft operator.kind v with
  | keepLeft => exact .pure v
  | takeRight => exact hn.eval right
  | combine => exact (hn.eval right).bind fun w => binary_affects operator v w

omit [Effect R] in
theorem rest_of_condition (thenBranch elseBranch : Expr) (v : Value) :
    Affects R (if v.isTruthy = true then Run.eval n thenBranch else Run.eval n elseBranch) := by
  split
  · exact hn.eval thenBranch
  · exact hn.eval elseBranch

theorem rest_of_test (thenBranch : Stmt) (elseBranch : Option Stmt) (v : Value) :
    Affects R (if v.isTruthy = true then Run.exec n thenBranch else
      match elseBranch with
      | some branch => Run.exec n branch
      | none => pure .normal) := by
  split
  · exact hn.exec thenBranch
  · cases elseBranch with
    | some branch => exact hn.exec branch
    | none => exact .pure _

theorem rest_of_first (rest : List Stmt) (c : Completion) :
    Affects R (match c with
      | .normal => Run.execAll n rest
      | other => pure other) := by
  cases c with
  | normal => exact hn.execAll rest
  | _ => exact .pure _

theorem rest_of_body (condition : Expr) (body : Stmt) (increment : Option Expr) (c : Completion) :
    Affects R (match c with
      | .break => pure .normal
      | .return value => pure (.return value)
      | .normal | .continue =>
        match increment with
        | some e => do
          let _ ← Run.eval n e
          Run.iterate n condition body increment
        | none => Run.iterate n condition body increment) := by
  cases c with
  | «break» | «return» => exact .pure _
  | normal | «continue» =>
    cases increment with
    | none => exact hn.iterate condition body none
    | some e => exact (hn.eval e).bind fun _ => hn.iterate condition body (some e)

theorem eval_succ (e : Expr) : Affects R (Run.eval (n + 1) e) := by
  cases e with
  | literal value => exact .pure _
  | grouping inner => exact hn.eval inner
  | unary operator right => exact (hn.eval right).bind fun v => unary_affects operator v
  | binary left operator right => exact (hn.eval left).bind (hn.rest_of_left operator right)
  | binaryError operator right => exact .fail _ _
  | conditional condition thenBranch elseBranch =>
    exact (hn.eval condition).bind (hn.rest_of_condition thenBranch elseBranch)
  | «variable» ref => exact lookUp_affects ref
  | assign target value =>
    exact (hn.eval value).bind fun v => (assign_affects target v).bind fun _ => .pure v
  | call callee paren arguments =>
    refine (hn.eval callee).bind fun v => (hn.evalAll arguments).bind fun vs => ?_
    exact hn.call v paren vs
  | get object name => exact (hn.eval object).bind fun v => property_affects v name
  | set object name value =>
    refine (hn.eval object).bind fun o => (propertyTable_affects o name).bind fun table => ?_
    exact (hn.eval value).bind fun v => (Affects.access _).bind fun _ => .pure v
  | this ref => exact lookUp_affects ref
  | super ref method => exact superMethod_affects ref method
  | lambda f => exact closure_affects none f

theorem evalAll_succ (es : List Expr) : Affects R (Run.evalAll (n + 1) es) := by
  cases es with
  | nil => exact .pure _
  | cons e rest => exact (hn.eval e).bind fun v => (hn.evalAll rest).bind fun vs => .pure _

theorem call_succ (v : Value) (paren : Token) (vs : List Value) :
    Affects R (Run.call (n + 1) v paren vs) := by
  cases v with
  | native f => exact (checkArity_affects _ _ _).bind fun _ => native_affects f
  | function f => exact (checkArity_affects _ _ _).bind fun _ => hn.invoke f vs
  | «class» cls =>
    refine (checkArity_affects _ _ _).bind fun _ => (Affects.access _).bind fun id => ?_
    cases cls.initializer? with
    | none => exact .pure _
    | some method => exact (Affects.access _).bind fun f => (hn.invoke f vs).bind fun _ => .pure _
  | _ => exact .fail _ _

theorem invoke_succ (f : Closure) (vs : List Value) : Affects R (Run.invoke (n + 1) f vs) := by
  refine (Affects.access _).bind fun inner => ?_
  exact ((hn.execAll f.function.body).within inner).bind fun c => callResult_affects f c

theorem exec_succ (s : Stmt) : Affects R (Run.exec (n + 1) s) := by
  cases s with
  | expression e => exact (hn.eval e).bind fun _ => .pure _
  | print e => exact (hn.eval e).bind fun v => (Affects.print v).bind fun _ => .pure _
  | var name initializer =>
    cases initializer with
    | none => exact (define_affects name none).bind fun _ => .pure _
    | some e => exact (hn.eval e).bind fun v => (define_affects name (some v)).bind fun _ => .pure _
  | block body =>
    refine Affects.environment.bind fun e => (Affects.access _).bind fun inner => ?_
    exact (hn.execAll body).within inner
  | ite condition thenBranch elseBranch =>
    exact (hn.eval condition).bind (hn.rest_of_test thenBranch elseBranch)
  | loop condition body increment => exact hn.iterate condition body increment
  | «break» keyword => exact .pure _
  | «continue» keyword => exact .pure _
  | breakError keyword => exact .fail _ _
  | continueError keyword => exact .fail _ _
  | function f =>
    obtain ⟨name, f⟩ := f
    exact (closure_affects _ f).bind fun v => (define_affects name (some v)).bind fun _ => .pure _
  | «return» keyword value =>
    cases value with
    | none => exact .pure _
    | some e => exact (hn.eval e).bind fun v => .pure _
  | «class» name superclass? own statics =>
    refine (superclass_affects superclass?).bind fun superclass => ?_
    exact Affects.environment.bind fun e => (Affects.access _).bind fun _ => .pure _

theorem execAll_succ (body : List Stmt) : Affects R (Run.execAll (n + 1) body) := by
  cases body with
  | nil => exact .pure _
  | cons s rest => exact (hn.exec s).bind (hn.rest_of_first rest)

theorem iterate_succ (condition : Expr) (body : Stmt) (increment : Option Expr) :
    Affects R (Run.iterate (n + 1) condition body increment) := by
  refine (hn.eval condition).bind fun v => ?_
  split
  · exact (hn.exec body).bind (hn.rest_of_body condition body increment)
  · exact .pure _

end Affecting

theorem affecting (n : Nat) : Affecting R n := by
  induction n with
  | zero =>
    exact ⟨fun _ => .outOfFuel, fun _ => .outOfFuel, fun _ _ _ => .outOfFuel, fun _ _ => .outOfFuel,
      fun _ => .outOfFuel, fun _ => .outOfFuel, fun _ _ _ => .outOfFuel⟩
  | succ n hn =>
    exact ⟨hn.eval_succ, hn.evalAll_succ, hn.call_succ, hn.invoke_succ, hn.exec_succ, hn.execAll_succ,
      hn.iterate_succ⟩

theorem execEach_affects (fuel : Nat) (body : List Stmt) : Affects R (execEach fuel body) := by
  induction body with
  | nil => exact .pure ()
  | cons s rest ih => exact ((affecting fuel).exec s).bind fun _ => ih

theorem program_affects (fuel : Nat) (p : Program) : Affects R (program fuel p) := by
  cases p with
  | statements body => exact (execEach_affects fuel body).bind fun _ => .pure _
  | expression e =>
    exact ((affecting fuel).eval e).bind fun v => (Affects.print v).bind fun _ => .pure _

end Run

end Lox
