import Mathlib
import Lox.Proofs.Evaluation.Control
import Lox.Proofs.Loops.Sessions

/-!
The increment of a loop. It can stand behind the body as well, if no `continue` of the body is for the
loop: then the same is reported of the program, and every run of it shows the same. Where there is such a
`continue` the increment still runs, and nothing else that leaves the body lets it run.
-/

namespace Lox

open Run

/-- A statement, a list of statements or a loop does not come to its end. -/
def Point.HaltsWith : Point → Halt → Machine → Prop
  | .stmt n s m, halt, m' => exec n s m = .error halt m'
  | .stmts n body m, halt, m' => execAll n body m = .error halt m'
  | .loop n condition body increment m, halt, m' => iterate n condition body increment m = .error halt m'
  | _, _, _ => False

/-- The loop evaluates its condition and its body, but no increment and no other turn. -/
def StopsInTurn (loop condition : Point) : Prop := ∀ Q, Calls loop Q → Q = condition ∨ Turn loop Q

section Halting

variable {P Q : Point} {halt : Halt} {r r' : Completion} {t t' : Machine}

theorem Point.EndsWith.unique (h : P.EndsWith r t) (h' : P.EndsWith r' t') : r' = r := by
  cases P with
  | stmt n s m => exact (EStateM.Result.ok.inj (h'.symm.trans h)).1
  | stmts n body m => exact (EStateM.Result.ok.inj (h'.symm.trans h)).1
  | loop n condition body increment m => exact (EStateM.Result.ok.inj (h'.symm.trans h)).1
  | _ => exact h.elim

theorem Point.HaltsWith.not_endsWith (h : P.HaltsWith halt t) : ¬ P.EndsWith r t' := by
  intro h'
  cases P with
  | stmt n s m => cases h.symm.trans h'
  | stmts n body m => cases h.symm.trans h'
  | loop n condition body increment m => cases h.symm.trans h'
  | _ => exact h

theorem within_of_error {α : Type} {e : Environment} {p : Run α} {m t : Machine}
    (h : p { m with environment := e } = .error halt t) :
    within e p m = .error halt { t with environment := m.environment } := by
  unfold within
  simp only
  rw [h]

/-- Where a part halts, so does the statement around it. -/
theorem Encloses.haltsWith (h : Encloses P Q) (hQ : Q.HaltsWith halt t) :
    ∃ e, P.HaltsWith halt { t with environment := e } := by
  cases h with
  | @block n body m inner m' hi =>
    have henvironment : environment m = .ok m.environment m := rfl
    exact ⟨m'.environment, (bind_of_ok henvironment).trans ((bind_of_ok hi).trans (within_of_error hQ))⟩
  | thenBranch hc hv =>
    refine ⟨t.environment, (bind_of_ok hc).trans ?_⟩
    rw [if_pos hv]
    exact hQ
  | elseBranch hc hv =>
    refine ⟨t.environment, (bind_of_ok hc).trans ?_⟩
    rw [if_neg (Bool.eq_false_iff.1 hv)]
    exact hQ
  | firstStmt => exact ⟨t.environment, bind_of_error hQ⟩
  | restStmts hs => exact ⟨t.environment, (bind_of_ok hs).trans hQ⟩

theorem haltsWith_of_encloses (h : Relation.ReflTransGen Encloses P Q) (hQ : Q.HaltsWith halt t) :
    ∃ e, P.HaltsWith halt { t with environment := e } := by
  induction h using Relation.ReflTransGen.head_induction_on with
  | refl => exact ⟨t.environment, hQ⟩
  | head hfirst _ ih =>
    obtain ⟨e, hmiddle⟩ := ih
    obtain ⟨e', hends⟩ := hfirst.haltsWith hmiddle
    exact ⟨e', hends⟩

/-- A turn that halts leaves the environment of the loop. -/
theorem InnermostLoop.halts {loop : Point} (h : InnermostLoop loop P) (hP : P.HaltsWith halt t) :
    ∃ body, Turn loop body ∧ body.HaltsWith halt { t with environment := loop.start.environment } := by
  obtain ⟨body, hturn, hchain⟩ := h
  obtain ⟨e, hends⟩ := haltsWith_of_encloses hchain hP
  refine ⟨body, hturn, ?_⟩
  cases hturn with
  | @body n condition body increment m v m' hc hv =>
    have he := turn_environment hc body
    rw [show exec n body m' = _ from hends] at he
    obtain rfl : e = m.environment := he
    exact hends

end Halting

section Turns

variable {i : Nat} {condition : Expr} {body : Stmt} {increment : Option Expr} {m t : Machine} {B : Point}

/-- After a turn that ends neither normally nor by `continue` there is nothing more to evaluate. -/
theorem Turn.stops (h : Turn (.loop (i + 1) condition body increment m) B)
    (hB : ∀ r t, B.EndsWith r t → r ≠ .normal ∧ r ≠ .continue) :
    StopsInTurn (.loop (i + 1) condition body increment m) (.expr i condition m) := by
  cases h with
  | @body _ _ _ _ _ v m' hc hv =>
    -- Whatever comes after the body takes a machine that the body leaves in one of the two ways.
    have hends {v₁ : Value} {m₁ m₂ : Machine} {r : Completion} (hc₁ : eval i condition m = .ok v₁ m₁)
        (hb : exec i body m₁ = .ok r m₂) : r ≠ .normal ∧ r ≠ .continue := by
      cases hc.symm.trans hc₁
      exact hB r m₂ hb
    intro Q hQ
    cases hQ with
    | turnCondition => exact .inl rfl
    | turnBody hc₁ hv₁ => exact .inr (.body hc₁ hv₁)
    | increment hc₁ _ hb hgo => exact (hgo.elim (hends hc₁ hb).1 (hends hc₁ hb).2).elim
    | nextTurn hc₁ _ hb hgo => exact (hgo.elim (hends hc₁ hb).1 (hends hc₁ hb).2).elim
    | nextTurnAfter hc₁ _ hb hgo _ => exact (hgo.elim (hends hc₁ hb).1 (hends hc₁ hb).2).elim

/-- A loop that a turn leaves by `return` returns the value. -/
theorem Turn.endsWith_return {loop : Point} {v : Value} (h : Turn loop B)
    (hB : B.EndsWith (.return v) t) : loop.EndsWith (.return v) t := by
  cases h with
  | body hc hv =>
    refine (bind_of_ok hc).trans ?_
    rw [if_pos hv]
    exact bind_of_ok hB

/-- A loop halts where a turn does. -/
theorem Turn.haltsWith {loop : Point} {halt : Halt} (h : Turn loop B) (hB : B.HaltsWith halt t) :
    loop.HaltsWith halt t := by
  cases h with
  | body hc hv =>
    refine (bind_of_ok hc).trans ?_
    rw [if_pos hv]
    exact bind_of_error hB

theorem Turn.calls_increment {e : Expr} (h : Turn (.loop (i + 1) condition body (some e) m) B)
    (hB : B.EndsWith .continue t) :
    Calls (.loop (i + 1) condition body (some e) m) (.expr i e t) := by
  cases h with
  | body hc hv => exact .increment hc hv hB (.inr rfl)

end Turns

/-- A function that is made in a loop with an increment. -/
def outliving : String := "var g;for(var a=true;a;a=nil)\x7bfun f()\x7bprint a;\x7dg=f;\x7d"

end Lox
