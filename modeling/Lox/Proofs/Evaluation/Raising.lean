import Lox.Proofs.Evaluation.Soundness
import Lox.Proofs.Outcome

/-!
Where errors come from. An evaluation that fails with an error comes to a point that raises the error
itself, after everything that the point evaluates has given a result.
-/

namespace Lox

open Run

/-- The point itself raises the error. -/
inductive Raises : Point → RuntimeError → Prop where
  | lookup {P ref m e} (h : LooksUp P ref m (some e)) : Raises P e
  | operand {n operator right m v m' e} (hv : eval n right m = .ok v m')
    (h : errorOf (unary operator v m') = some e) : Raises (.expr (n + 1) (.unary operator right) m) e
  | operands {n left operator right m a m' b m'' e} (ha : eval n left m = .ok a m')
    (hcombine : afterLeft operator.kind a = .combine) (hb : eval n right m' = .ok b m'')
    (h : errorOf (binary operator a b m'') = some e) :
    Raises (.expr (n + 1) (.binary left operator right) m) e
  | binaryError {n operator right m} :
    Raises (.expr (n + 1) (.binaryError operator right) m) ⟨operator, .malformed⟩
  | get {n object name m o m' e} (ho : eval n object m = .ok o m')
    (h : errorOf (property o name m') = some e) : Raises (.expr (n + 1) (.get object name) m) e
  | set {n object name value m o m' e} (ho : eval n object m = .ok o m')
    (h : errorOf (propertyTable o name m') = some e) :
    Raises (.expr (n + 1) (.set object name value) m) e
  | arity {n callee paren arguments m expected e}
    (h : errorOf (checkArity paren expected arguments.length m) = some e) :
    Raises (.call (n + 1) callee paren arguments m) e
  | notCallable {n callee paren arguments m} :
    Raises (.call (n + 1) callee paren arguments m) ⟨paren, .notCallable⟩
  | parameters {n closure arguments m e}
    (h : errorOf (access (callEnvironment closure arguments) m) = some e) :
    Raises (.invoke (n + 1) closure arguments m) e
  | result {n closure arguments m inner m' c m'' e}
    (hi : access (callEnvironment closure arguments) m = .ok inner m')
    (hb : within inner (execAll n closure.function.body) m' = .ok c m'')
    (h : errorOf (callResult closure c m'') = some e) :
    Raises (.invoke (n + 1) closure arguments m) e
  | unassigned {n name m e} (h : errorOf (define name none m) = some e) :
    Raises (.stmt (n + 1) (.var name none) m) e
  | var {n name initializer m v m' e} (hv : eval n initializer m = .ok v m')
    (h : errorOf (define name (some v) m') = some e) :
    Raises (.stmt (n + 1) (.var name (some initializer)) m) e
  | function {n name function m v m' e} (h : errorOf (define name (some v) m') = some e) :
    Raises (.stmt (n + 1) (.function (.mk name function)) m) e
  | breakError {n keyword m} : Raises (.stmt (n + 1) (.breakError keyword) m) ⟨keyword, .malformed⟩
  | continueError {n keyword m} :
    Raises (.stmt (n + 1) (.continueError keyword) m) ⟨keyword, .malformed⟩
  | superclass {n name ref own statics m} :
    Raises (.stmt (n + 1) (.class name (some ref) own statics) m) ⟨ref.name, .superclassNotClass⟩
  | class {n name superclass? own statics m superclass m' e}
    (h : errorOf (access (defineClass name superclass own statics m'.environment) m') = some e) :
    Raises (.stmt (n + 1) (.class name superclass? own statics) m) e

/-- Some point within the evaluation raises the error. -/
def Raised (P : Point) (e : RuntimeError) : Prop := ∃ Q, Reaches P Q ∧ Raises Q e

section

variable {α β : Type} {P Q : Point} {e : RuntimeError} {m : Machine}

theorem Raises.raised (h : Raises P e) : Raised P e := ⟨P, .refl, h⟩

theorem Raised.of_calls (h : Raised Q e) (hc : Calls P Q) : Raised P e := by
  obtain ⟨R, hr, hR⟩ := h
  exact ⟨R, .head hc hr, hR⟩

theorem errorOf_bind {p : Run α} {f : α → Run β} (h : errorOf ((p >>= f) m) = some e) :
    errorOf (p m) = some e ∨ ∃ a m', p m = .ok a m' ∧ errorOf (f a m') = some e := by
  cases hp : p m with
  | ok a m' =>
    rw [bind_of_ok hp] at h
    exact .inr ⟨a, m', rfl, h⟩
  | error halt m' =>
    rw [bind_of_error hp] at h
    cases halt with
    | error e' => exact .inl h
    | outOfFuel => exact nomatch h

theorem errorOf_within {environment : Environment} {p : Run α}
    (h : errorOf (within environment p m) = some e) :
    errorOf (p { m with environment := environment }) = some e := by
  unfold within at h
  simp only at h
  split at h
  next => exact nomatch h
  next halt m' hp =>
    rw [hp]
    cases halt with
    | error e' => exact h
    | outOfFuel => exact nomatch h

/-- Accesses that cannot fail. -/
theorem bindMethod_no_error (method : Closure) (receiver : Instance) :
    errorOf (access (.bindMethod method receiver) m) ≠ some e := nofun

theorem newObject_no_error (properties : Properties) :
    errorOf (access (.newObject properties) m) ≠ some e := nofun

end

/-- Within evaluations with some fuel, every error is raised by a point. -/
structure Raising (n : Nat) : Prop where
  eval : ∀ {x m e}, errorOf (Run.eval n x m) = some e → Raised (.expr n x m) e
  evalAll : ∀ {xs m e}, errorOf (Run.evalAll n xs m) = some e → Raised (.exprs n xs m) e
  call : ∀ {callee paren arguments m e}, errorOf (Run.call n callee paren arguments m) = some e →
    Raised (.call n callee paren arguments m) e
  invoke : ∀ {f arguments m e}, errorOf (Run.invoke n f arguments m) = some e →
    Raised (.invoke n f arguments m) e
  exec : ∀ {s m e}, errorOf (Run.exec n s m) = some e → Raised (.stmt n s m) e
  execAll : ∀ {body m e}, errorOf (Run.execAll n body m) = some e → Raised (.stmts n body m) e
  iterate : ∀ {condition body increment m e},
    errorOf (Run.iterate n condition body increment m) = some e →
    Raised (.loop n condition body increment m) e

namespace Raising

variable {n : Nat} {m : Machine} {e : RuntimeError} (ih : Raising n)
include ih

theorem eval_succ {x : Expr} (h : errorOf (Run.eval (n + 1) x m) = some e) :
    Raised (.expr (n + 1) x m) e := by
  cases x with
  | literal value => exact nomatch h
  | grouping inner => exact (ih.eval h).of_calls .grouping
  | unary operator right =>
    rcases errorOf_bind h with h | ⟨v, m', hv, h⟩
    · exact (ih.eval h).of_calls .operand
    · exact (Raises.operand hv h).raised
  | binary left operator right =>
    rcases errorOf_bind h with h | ⟨a, m', ha, h⟩
    · exact (ih.eval h).of_calls .left
    cases hafter : afterLeft operator.kind a with
    | keepLeft =>
      rw [hafter] at h
      exact nomatch h
    | takeRight =>
      rw [hafter] at h
      exact (ih.eval h).of_calls (.right ha (by rw [hafter]; nofun))
    | combine =>
      rw [hafter] at h
      rcases errorOf_bind h with h | ⟨b, m'', hb, h⟩
      · exact (ih.eval h).of_calls (.right ha (by rw [hafter]; nofun))
      · exact (Raises.operands ha hafter hb h).raised
  | binaryError operator right =>
    cases h
    exact Raises.binaryError.raised
  | conditional condition thenBranch elseBranch =>
    rcases errorOf_bind h with h | ⟨v, m', hv, h⟩
    · exact (ih.eval h).of_calls .condition
    by_cases ht : v.isTruthy = true
    · rw [if_pos ht] at h
      exact (ih.eval h).of_calls (.thenValue hv ht)
    · rw [if_neg ht] at h
      exact (ih.eval h).of_calls (.elseValue hv (Bool.eq_false_iff.2 ht))
  | «variable» ref =>
    have hlookup : LooksUp (.expr (n + 1) (.variable ref) m) ref m (some e) := by
      rw [← show errorOf (lookUp ref m) = some e from h]
      exact .variable
    exact (Raises.lookup hlookup).raised
  | assign target value =>
    rcases errorOf_bind h with h | ⟨v, m', hv, h⟩
    · exact (ih.eval h).of_calls .assigned
    rcases errorOf_bind h with h | ⟨_, m'', _, h⟩
    · have hlookup : LooksUp (.expr (n + 1) (.assign target value) m) target m' (some e) := by
        rw [← h]
        exact .assign hv
      exact (Raises.lookup hlookup).raised
    · exact nomatch h
  | call callee paren arguments =>
    rcases errorOf_bind h with h | ⟨f, m', hf, h⟩
    · exact (ih.eval h).of_calls .callee
    rcases errorOf_bind h with h | ⟨vs, m'', ha, h⟩
    · exact (ih.evalAll h).of_calls (.arguments hf)
    · exact (ih.call h).of_calls (.call hf ha)
  | get object name =>
    rcases errorOf_bind h with h | ⟨o, m', ho, h⟩
    · exact (ih.eval h).of_calls .object
    · exact (Raises.get ho h).raised
  | set object name value =>
    rcases errorOf_bind h with h | ⟨o, m', ho, h⟩
    · exact (ih.eval h).of_calls .setObject
    rcases errorOf_bind h with h | ⟨table, m'', ht, h⟩
    · exact (Raises.set ho h).raised
    rcases errorOf_bind h with h | ⟨v, m₃, _, h⟩
    · exact (ih.eval h).of_calls (.setValue ho ht)
    · exact nomatch h
  | this ref =>
    have hlookup : LooksUp (.expr (n + 1) (.this ref) m) ref m (some e) := by
      rw [← show errorOf (lookUp ref m) = some e from h]
      exact .this
    exact (Raises.lookup hlookup).raised
  | super ref method =>
    have hlookup : LooksUp (.expr (n + 1) (.super ref method) m) ref m (some e) := by
      rw [← show errorOf (superMethod ref method m) = some e from h]
      exact .super
    exact (Raises.lookup hlookup).raised
  | lambda function => exact nomatch h

theorem evalAll_succ {xs : List Expr} (h : errorOf (Run.evalAll (n + 1) xs m) = some e) :
    Raised (.exprs (n + 1) xs m) e := by
  cases xs with
  | nil => exact nomatch h
  | cons x rest =>
    rcases errorOf_bind h with h | ⟨v, m', hv, h⟩
    · exact (ih.eval h).of_calls .firstExpr
    rcases errorOf_bind h with h | ⟨vs, m'', _, h⟩
    · exact (ih.evalAll h).of_calls (.restExprs hv)
    · exact nomatch h

theorem call_succ {callee : Value} {paren : Token} {arguments : List Value}
    (hcall : errorOf (Run.call (n + 1) callee paren arguments m) = some e) :
    Raised (.call (n + 1) callee paren arguments m) e := by
  cases callee with
  | native f =>
    rcases errorOf_bind hcall with h | ⟨_, m', _, h⟩
    · exact (Raises.arity h).raised
    · cases f
      exact nomatch h
  | function f =>
    rcases errorOf_bind hcall with h | ⟨_, m', ha, h⟩
    · exact (Raises.arity h).raised
    · obtain ⟨_, rfl⟩ := checkArity_ok ha
      exact (ih.invoke h).of_calls (.function ha)
  | «class» cls =>
    rcases errorOf_bind hcall with h | ⟨_, m', ha, h⟩
    · exact (Raises.arity h).raised
    obtain ⟨_, rfl⟩ := checkArity_ok ha
    rcases errorOf_bind h with h | ⟨id, m'', ho, h⟩
    · exact absurd h (newObject_no_error ∅)
    cases hinit : cls.initializer? with
    | none =>
      rw [hinit] at h
      exact nomatch h
    | some method =>
      rw [hinit] at h
      rcases errorOf_bind h with h | ⟨f, m₃, hb, h⟩
      · exact absurd h (bindMethod_no_error method ⟨id, cls⟩)
      rcases errorOf_bind h with h | ⟨_, m₄, _, h⟩
      · exact (ih.invoke h).of_calls (.initializer ha ho hinit hb)
      · exact nomatch h
  | _ =>
    cases hcall
    exact Raises.notCallable.raised

theorem invoke_succ {f : Closure} {arguments : List Value}
    (h : errorOf (Run.invoke (n + 1) f arguments m) = some e) :
    Raised (.invoke (n + 1) f arguments m) e := by
  rcases errorOf_bind h with h | ⟨inner, m', hi, h⟩
  · exact (Raises.parameters h).raised
  rcases errorOf_bind h with h | ⟨c, m'', hb, h⟩
  · exact (ih.execAll (errorOf_within h)).of_calls (.body hi)
  · exact (Raises.result hi hb h).raised

theorem exec_succ {s : Stmt} (h : errorOf (Run.exec (n + 1) s m) = some e) :
    Raised (.stmt (n + 1) s m) e := by
  cases s with
  | expression x =>
    rcases errorOf_bind h with h | ⟨_, m', _, h⟩
    · exact (ih.eval h).of_calls .expression
    · exact nomatch h
  | print x =>
    rcases errorOf_bind h with h | ⟨v, m', _, h⟩
    · exact (ih.eval h).of_calls .print
    · exact nomatch h
  | var name initializer =>
    cases initializer with
    | none =>
      rcases errorOf_bind h with h | ⟨_, m', _, h⟩
      · exact (Raises.unassigned h).raised
      · exact nomatch h
    | some x =>
      rcases errorOf_bind h with h | ⟨v, m', hv, h⟩
      · exact (ih.eval h).of_calls .var
      rcases errorOf_bind h with h | ⟨_, m'', _, h⟩
      · exact (Raises.var hv h).raised
      · exact nomatch h
  | block body => exact (ih.execAll (errorOf_within h)).of_calls (.block rfl)
  | ite condition thenBranch elseBranch =>
    rcases errorOf_bind h with h | ⟨v, m', hv, h⟩
    · exact (ih.eval h).of_calls .iteCondition
    by_cases ht : v.isTruthy = true
    · rw [if_pos ht] at h
      exact (ih.exec h).of_calls (.thenBranch hv ht)
    · rw [if_neg ht] at h
      cases elseBranch with
      | none => exact nomatch h
      | some branch => exact (ih.exec h).of_calls (.elseBranch hv (Bool.eq_false_iff.2 ht))
  | loop condition body increment => exact (ih.iterate h).of_calls .loop
  | «break» keyword => exact nomatch h
  | «continue» keyword => exact nomatch h
  | breakError keyword =>
    cases h
    exact Raises.breakError.raised
  | continueError keyword =>
    cases h
    exact Raises.continueError.raised
  | function decl =>
    obtain ⟨name, function⟩ := decl
    rcases errorOf_bind h with h | ⟨v, m', _, h⟩
    · exact nomatch h
    rcases errorOf_bind h with h | ⟨_, m'', _, h⟩
    · exact (Raises.function h).raised
    · exact nomatch h
  | «return» keyword value =>
    cases value with
    | none => exact nomatch h
    | some x =>
      rcases errorOf_bind h with h | ⟨v, m', _, h⟩
      · exact (ih.eval h).of_calls .returned
      · exact nomatch h
  | «class» name superclass? own statics =>
    rcases errorOf_bind h with h | ⟨superclass, m', _, h⟩
    · cases superclass? with
      | none => exact nomatch h
      | some ref =>
        rcases errorOf_bind h with h | ⟨v, m', _, h⟩
        · have hlookup : LooksUp (.stmt (n + 1) (.class name (some ref) own statics) m) ref m
              (some e) := by
            rw [← h]
            exact .superclass
          exact (Raises.lookup hlookup).raised
        · cases v with
          | «class» cls => exact nomatch h
          | _ =>
            cases h
            exact Raises.superclass.raised
    rcases errorOf_bind h with h | ⟨environment, m'', henvironment, h⟩
    · exact nomatch h
    cases henvironment
    rcases errorOf_bind h with h | ⟨_, m'', _, h⟩
    · exact (Raises.class h).raised
    · exact nomatch h

theorem execAll_succ {body : List Stmt} (h : errorOf (Run.execAll (n + 1) body m) = some e) :
    Raised (.stmts (n + 1) body m) e := by
  cases body with
  | nil => exact nomatch h
  | cons s rest =>
    rcases errorOf_bind h with h | ⟨c, m', hs, h⟩
    · exact (ih.exec h).of_calls .firstStmt
    cases c with
    | normal => exact (ih.execAll h).of_calls (.restStmts hs)
    | _ => exact nomatch h

theorem iterate_succ {condition : Expr} {body : Stmt} {increment : Option Expr}
    (h : errorOf (Run.iterate (n + 1) condition body increment m) = some e) :
    Raised (.loop (n + 1) condition body increment m) e := by
  rcases errorOf_bind h with h | ⟨v, m', hv, h⟩
  · exact (ih.eval h).of_calls .turnCondition
  by_cases ht : v.isTruthy = true
  · rw [if_pos ht] at h
    rcases errorOf_bind h with h | ⟨c, m'', hb, h⟩
    · exact (ih.exec h).of_calls (.turnBody hv ht)
    have hnext (hgo : c = .normal ∨ c = .continue)
        (h : errorOf (goOn n condition body increment m'') = some e) :
        Raised (.loop (n + 1) condition body increment m) e := by
      cases increment with
      | none => exact (ih.iterate h).of_calls (.nextTurn hv ht hb hgo)
      | some x =>
        rcases errorOf_bind h with h | ⟨_, m₃, hi, h⟩
        · exact (ih.eval h).of_calls (.increment hv ht hb hgo)
        · exact (ih.iterate h).of_calls (.nextTurnAfter hv ht hb hgo hi)
    cases c with
    | normal => exact hnext (.inl rfl) h
    | «continue» => exact hnext (.inr rfl) h
    | «break» => exact nomatch h
    | «return» w => exact nomatch h
  · rw [if_neg ht] at h
    exact nomatch h

end Raising

/-- Every error comes from a point that raises it. -/
theorem raising : ∀ n, Raising n
  | 0 => ⟨nofun, nofun, nofun, nofun, nofun, nofun, nofun⟩
  | n + 1 =>
    have ih := raising n
    ⟨ih.eval_succ, ih.evalAll_succ, ih.call_succ, ih.invoke_succ, ih.exec_succ, ih.execAll_succ,
      ih.iterate_succ⟩

theorem program_raised {fuel : Nat} {p : Program} {m : Machine} {e : RuntimeError}
    (h : errorOf (Run.program fuel p m) = some e) : Raised (p.point fuel m) e := by
  cases p with
  | statements body =>
    have heach : errorOf (execEach fuel body m) = some e := by
      rcases errorOf_bind h with h | ⟨_, m', _, h⟩
      · exact h
      · exact nomatch h
    clear h
    show Raised (.each fuel body m) e
    induction body generalizing m with
    | nil => exact nomatch heach
    | cons s rest ih =>
      rcases errorOf_bind heach with h | ⟨c, m', hs, h⟩
      · exact ((raising fuel).exec h).of_calls .firstInput
      · exact (ih h).of_calls (.restInput hs)
  | expression x =>
    rcases errorOf_bind h with h | ⟨v, m', _, h⟩
    · exact (raising fuel).eval h
    · exact nomatch h

end Lox
