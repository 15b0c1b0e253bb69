import Lox.Proofs.Evaluation.Signals
import Lox.Proofs.Loops.Inlining

/-!
Bodies of loops without a `continue` for them. Such a body never ends with one, so a turn of the loop is
the body with the increment behind it.
-/

namespace Lox

namespace Run

variable {n : Nat} {m m' : Machine} {r : Completion}

/-- With `n` units of fuel a statement that has no `continue` for a loop around it does not end with
one. A loop never does. -/
structure Continuing (n : Nat) : Prop where
  exec : ∀ {s m r m'}, Stmt.continues s = false → exec n s m = .ok r m' → r ≠ .continue
  execAll : ∀ {body m r m'}, Stmt.continuesAny body = false → execAll n body m = .ok r m' →
    r ≠ .continue
  iterate : ∀ {condition body increment m r m'}, iterate n condition body increment m = .ok r m' →
    r ≠ .continue

namespace Continuing

variable (hn : Continuing n)
include hn

theorem exec_succ {s : Stmt} (hs : s.continues = false) (h : Run.exec (n + 1) s m = .ok r m') :
    r ≠ .continue := by
  cases exec_completes h with
  | normal | «break» | «return» => exact Completion.noConfusion
  | «continue» => cases hs
  | block hbody => exact hn.execAll hs hbody
  | thenBranch hthen => exact hn.exec (Bool.or_eq_false_iff.1 hs).1 hthen
  | elseBranch helse => exact hn.exec (Bool.or_eq_false_iff.1 hs).2 helse
  | loop hloop => exact hn.iterate hloop

theorem execAll_succ {body : List Stmt} (hs : Stmt.continuesAny body = false)
    (h : Run.execAll (n + 1) body m = .ok r m') : r ≠ .continue := by
  cases body with
  | nil =>
    cases h
    exact Completion.noConfusion
  | cons s rest =>
    obtain ⟨hfirst, hrest⟩ := Bool.or_eq_false_iff.1 hs
    obtain ⟨c, t, hc, h⟩ := bind_eq_ok h
    have hnot := hn.exec hfirst hc
    cases c with
    | normal => exact hn.execAll hrest h
    | _ =>
      cases h
      exact hnot

theorem iterate_succ {condition : Expr} {body : Stmt} {increment : Option Expr}
    (h : Run.iterate (n + 1) condition body increment m = .ok r m') : r ≠ .continue := by
  rcases iterate_completes h with rfl | ⟨_, _, _, rfl, _⟩ | ⟨_, hnext⟩
  · exact Completion.noConfusion
  · exact Completion.noConfusion
  · exact hn.iterate hnext

end Continuing

theorem continuing (n : Nat) : Continuing n := by
  induction n with
  | zero =>
    refine ⟨fun _ h => ?_, fun _ h => ?_, fun h => ?_⟩
    · cases h
    · cases h
    · cases h
  | succ n ih => exact ⟨ih.exec_succ, ih.execAll_succ, ih.iterate_succ⟩

/-- Runs the body of a loop and, where it ends normally, the increment. -/
def bodyWithIncrement (n : Nat) (body : Stmt) (increment : Expr) : Run Completion := do
  match ← exec n body with
  | .normal => do
    let _ ← eval n increment
    pure .normal
  | other => pure other

/-- What a loop does after a turn that ended so. -/
def afterTurn (next : Run Completion) : Completion → Run Completion
  | .break => pure .normal
  | .return value => pure (.return value)
  | .normal | .continue => next

theorem iterate_none (n : Nat) (condition : Expr) (body : Stmt) :
    iterate (n + 1) condition body none = (do
      if (← eval n condition).isTruthy then
        afterTurn (iterate n condition body none) (← exec n body)
      else pure .normal) := by
  conv_lhs => unfold iterate
  refine congrArg _ (funext fun v => ?_)
  split
  · refine congrArg _ (funext fun r => ?_)
    cases r <;> rfl
  · rfl

/-- The increment as the last statement of a body. -/
theorem execAll_expression (n : Nat) (e : Expr) :
    execAll (n + 2) [.expression e] = (do
      let _ ← eval n e
      pure .normal) := by
  simp only [execAll, exec, bind_assoc, pure_bind]

/-- The increment ends each turn of a loop whose body has no `continue` for it. -/
theorem iterate_some {body : Stmt} (hbody : body.continues = false) (n : Nat) (condition e : Expr) :
    iterate (n + 1) condition body (some e) = (do
      if (← eval n condition).isTruthy then
        afterTurn (iterate n condition body (some e)) (← bodyWithIncrement n body e)
      else pure .normal) := by
  conv_lhs => unfold iterate
  refine congrArg _ (funext fun v => ?_)
  split
  · funext m
    cases hr : exec n body m with
    | error halt m' =>
      have hturn : bodyWithIncrement n body e m = .error halt m' := bind_of_error hr
      rw [bind_of_error hr, bind_of_error hturn]
    | ok r m' =>
      rw [bind_of_ok hr]
      have hnot := (continuing n).exec hbody hr
      cases r with
      | «continue» => exact absurd rfl hnot
      | «break» =>
        have hturn : bodyWithIncrement n body e m = .ok .break m' := bind_of_ok hr
        rw [bind_of_ok hturn]
        rfl
      | «return» v =>
        have hturn : bodyWithIncrement n body e m = .ok (.return v) m' := bind_of_ok hr
        rw [bind_of_ok hturn]
        rfl
      | normal =>
        have hincrement : bodyWithIncrement n body e m = (do
            let _ ← eval n e
            pure .normal : Run Completion) m' := bind_of_ok hr
        cases he : eval n e m' with
        | error halt m'' =>
          have hturn := hincrement.trans (bind_of_error he)
          rw [bind_of_error hturn]
          exact bind_of_error he
        | ok u m'' =>
          have hturn := hincrement.trans (bind_of_ok he)
          rw [bind_of_ok hturn]
          exact bind_of_ok he
  · rfl

end Run

end Lox
