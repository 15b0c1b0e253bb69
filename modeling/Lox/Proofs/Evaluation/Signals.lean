import Lox.Evaluation
import Lox.Proofs.Syntax.Placement

/-!
What a statement may complete with is decided by where it stands, whatever machine it runs on.
-/

namespace Lox

open Run

/-- A place in a loop or not, and in a function or not, allows the completion. -/
def Completion.Fits (inLoop inBody : Bool) : Completion → Prop
  | .normal => True
  | .return _ => inBody = true
  | .break => inLoop = true
  | .continue => inLoop = true

theorem Completion.Fits.anywhere {inLoop inBody : Bool} {r : Completion} (h : r.Fits false inBody) :
    r.Fits inLoop inBody := by
  cases r with
  | normal => exact trivial
  | «return» v => exact h
  | «break» => exact Bool.noConfusion h
  | «continue» => exact Bool.noConfusion h

theorem Completion.Fits.no_signal {inBody : Bool} {r : Completion} (h : r.Fits false inBody) :
    r ≠ .break ∧ r ≠ .continue := by
  cases r with
  | normal => exact ⟨Completion.noConfusion, Completion.noConfusion⟩
  | «return» v => exact ⟨Completion.noConfusion, Completion.noConfusion⟩
  | «break» => exact Bool.noConfusion h
  | «continue» => exact Bool.noConfusion h

theorem Completion.Fits.normal {r : Completion} (h : r.Fits false false) : r = .normal := by
  cases r with
  | normal => rfl
  | «return» v => exact Bool.noConfusion h
  | «break» => exact Bool.noConfusion h
  | «continue» => exact Bool.noConfusion h

namespace Run

variable {n : Nat} {inLoop inBody : Bool} {m m' : Machine} {r : Completion}

theorem within_eq_ok {α : Type} {e : Environment} {p : Run α} {a : α}
    (h : within e p m = .ok a m') :
    ∃ t, p { m with environment := e } = .ok a t ∧ m' = { t with environment := m.environment } := by
  unfold within at h
  simp only at h
  generalize hp : p { m with environment := e } = result at h
  cases result with
  | ok b t =>
    cases h
    exact ⟨t, rfl, rfl⟩
  | error halt t => cases h

/-- Where the completion of a statement comes from. The statement has ended normally, it is a signal or a
`return`, or a part of it has ended so. -/
inductive CompletesFrom (n : Nat) : Stmt → Completion → Prop where
  | normal (s : Stmt) : CompletesFrom n s .normal
  | «break» (keyword : Token) : CompletesFrom n (.break keyword) .break
  | «continue» (keyword : Token) : CompletesFrom n (.continue keyword) .continue
  | «return» (keyword : Token) (value : Option Expr) (v : Value) :
    CompletesFrom n (.return keyword value) (.return v)
  | block {body r m m'} (h : execAll n body m = .ok r m') : CompletesFrom n (.block body) r
  | thenBranch {condition thenBranch elseBranch r m m'} (h : exec n thenBranch m = .ok r m') :
    CompletesFrom n (.ite condition thenBranch elseBranch) r
  | elseBranch {condition thenBranch elseBranch r m m'} (h : exec n elseBranch m = .ok r m') :
    CompletesFrom n (.ite condition thenBranch (some elseBranch)) r
  | loop {condition body increment r m m'} (h : iterate n condition body increment m = .ok r m') :
    CompletesFrom n (.loop condition body increment) r

theorem exec_completes {s : Stmt} (h : exec (n + 1) s m = .ok r m') : CompletesFrom n s r := by
  cases s with
  | expression e =>
    obtain ⟨_, _, _, h⟩ := bind_eq_ok h
    cases h
    exact .normal _
  | print e =>
    obtain ⟨_, _, _, h⟩ := bind_eq_ok h
    obtain ⟨_, _, _, h⟩ := bind_eq_ok h
    cases h
    exact .normal _
  | var name initializer =>
    cases initializer with
    | none =>
      obtain ⟨_, _, _, h⟩ := bind_eq_ok h
      cases h
      exact .normal _
    | some e =>
      obtain ⟨_, _, _, h⟩ := bind_eq_ok h
      obtain ⟨_, _, _, h⟩ := bind_eq_ok h
      cases h
      exact .normal _
  | block body =>
    obtain ⟨_, _, _, h⟩ := bind_eq_ok h
    obtain ⟨_, _, _, h⟩ := bind_eq_ok h
    obtain ⟨_, hbody, _⟩ := within_eq_ok h
    exact .block hbody
  | ite condition thenBranch elseBranch =>
    obtain ⟨v, t, _, h⟩ := bind_eq_ok h
    by_cases hv : v.isTruthy = true
    · rw [if_pos hv] at h
      exact .thenBranch h
    · rw [if_neg hv] at h
      cases elseBranch with
      | none =>
        cases h
        exact .normal _
      | some branch => exact .elseBranch h
  | loop condition body increment => exact .loop h
  | «break» keyword =>
    cases h
    exact .break keyword
  | «continue» keyword =>
    cases h
    exact .continue keyword
  | breakError keyword => cases h
  | continueError keyword => cases h
  | function decl =>
    obtain ⟨name, function⟩ := decl
    obtain ⟨_, _, _, h⟩ := bind_eq_ok h
    obtain ⟨_, _, _, h⟩ := bind_eq_ok h
    cases h
    exact .normal _
  | «return» keyword value =>
    cases value with
    | none =>
      cases h
      exact .return keyword none _
    | some e =>
      obtain ⟨_, _, _, h⟩ := bind_eq_ok h
      cases h
      exact .return keyword (some e) _
  | «class» name superclass own statics =>
    obtain ⟨_, _, _, h⟩ := bind_eq_ok h
    obtain ⟨_, _, _, h⟩ := bind_eq_ok h
    obtain ⟨_, _, _, h⟩ := bind_eq_ok h
    cases h
    exact .normal _

/-- A loop ends normally, with a `return` of its body, or as the turns after the first do. -/
theorem iterate_completes {condition : Expr} {body : Stmt} {increment : Option Expr}
    (h : iterate (n + 1) condition body increment m = .ok r m') :
    r = .normal ∨ (∃ v t t', r = .return v ∧ exec n body t = .ok (.return v) t') ∨
      ∃ t, iterate n condition body increment t = .ok r m' := by
  obtain ⟨v, t, _, h⟩ := bind_eq_ok h
  by_cases hv : v.isTruthy = true
  · rw [if_pos hv] at h
    obtain ⟨c, t', hbody, h⟩ := bind_eq_ok h
    cases c with
    | «break» =>
      cases h
      exact .inl rfl
    | «return» v =>
      cases h
      exact .inr (.inl ⟨v, t, _, rfl, hbody⟩)
    | normal | «continue» =>
      cases increment with
      | none => exact .inr (.inr ⟨_, h⟩)
      | some e =>
        obtain ⟨_, _, _, h⟩ := bind_eq_ok h
        exact .inr (.inr ⟨_, h⟩)
  · rw [if_neg hv] at h
    cases h
    exact .inl rfl

/-- With `n` units of fuel every completion fits. A loop keeps `break` and `continue` for itself. -/
structure Fitting (n : Nat) : Prop where
  exec : ∀ {inLoop inBody s m r m'}, Stmt.Placed inLoop inBody s → exec n s m = .ok r m' →
    r.Fits inLoop inBody
  execAll : ∀ {inLoop inBody body m r m'}, Stmt.PlacedAll inLoop inBody body →
    execAll n body m = .ok r m' → r.Fits inLoop inBody
  iterate : ∀ {inBody condition body increment m r m'}, Stmt.Placed true inBody body →
    iterate n condition body increment m = .ok r m' → r.Fits false inBody

namespace Fitting

variable (hn : Fitting n)
include hn

theorem exec_succ {s : Stmt} (hs : s.Placed inLoop inBody) (h : Run.exec (n + 1) s m = .ok r m') :
    r.Fits inLoop inBody := by
  cases exec_completes h with
  | normal => exact trivial
  | «break» => exact hs
  | «continue» => exact hs
  | «return» => exact hs.1
  | block hbody => exact hn.execAll hs hbody
  | thenBranch hthen => exact hn.exec hs.2.1 hthen
  | elseBranch helse => exact hn.exec hs.2.2 helse
  | loop hloop => exact (hn.iterate hs.2.1 hloop).anywhere

theorem execAll_succ {body : List Stmt} (hs : Stmt.PlacedAll inLoop inBody body)
    (h : Run.execAll (n + 1) body m = .ok r m') : r.Fits inLoop inBody := by
  cases body with
  | nil =>
    cases h
    exact trivial
  | cons s rest =>
    obtain ⟨c, t, hfirst, h⟩ := bind_eq_ok h
    have hfits := hn.exec hs.1 hfirst
    cases c with
    | normal => exact hn.execAll hs.2 h
    | _ =>
      cases h
      exact hfits

theorem iterate_succ {condition : Expr} {body : Stmt} {increment : Option Expr}
    (hs : body.Placed true inBody)
    (h : Run.iterate (n + 1) condition body increment m = .ok r m') : r.Fits false inBody := by
  rcases iterate_completes h with rfl | ⟨v, _, _, rfl, hbody⟩ | ⟨_, hnext⟩
  · exact trivial
  · have hfits : (Completion.return v).Fits true inBody := hn.exec hs hbody
    exact hfits
  · exact hn.iterate hs hnext

end Fitting

theorem fitting (n : Nat) : Fitting n := by
  induction n with
  | zero =>
    refine ⟨fun _ h => ?_, fun _ h => ?_, fun _ h => ?_⟩
    · cases h
    · cases h
    · cases h
  | succ n ih => exact ⟨ih.exec_succ, ih.execAll_succ, ih.iterate_succ⟩

end Run

end Lox
