import Lox.Proofs.Evaluation.SessionLikeness

/-!
An input with a diagnostic leaves no trace in a session: without it the other steps show the same.
-/

namespace Lox

/-- Nothing of the input ran. -/
def Step.isRejected (s : Step) : Bool :=
  match s.ending with
  | .rejected _ => true
  | _ => false

/-- The value of an expression that ran as an input of its own. -/
def Step.value? (s : Step) : Option Value :=
  match s.ending with
  | .finished value => value
  | _ => none

/-- The same function but for the numbers of its occurrences. -/
def Lambda.Renumbered (f f' : Lambda) : Prop := f'.bare = f.bare

/-- Two steps that show the same. The code of a function that one gives may be numbered otherwise. -/
structure Step.Same (a b : Step) : Prop where
  printed : b.printed = a.printed
  reported : b.reported = a.reported
  exitCode : b.exitCode = a.exitCode
  value : Option.Rel (Value.Alike Lambda.Renumbered) a.value? b.value?

section

variable {s s' : Session} {mode : Mode} {source : String}

theorem Session.against_renumbered (f f' : Lambda) (h : (s.against s').Code f f') :
    f.Renumbered f' := by
  obtain ⟨k, j, rfl, _, rfl⟩ := h
  exact Lambda.relabel_relabel _ _ _ _ f

theorem Step.Alike.same {a b : Step} (h : a.Alike (· = 0) (s.against s').Code b) : a.Same b := by
  obtain ⟨printed, ending⟩ := a
  obtain ⟨printed', ending'⟩ := b
  have hending := h.ending
  cases hending with
  | finished hv =>
    exact ⟨h.printed, rfl, rfl,
      rel_mono (fun _ _ => Value.Alike.mono Session.against_renumbered) hv⟩
  | failed he => exact ⟨h.printed, congrArg (fun e => [e]) he.eq, rfl, .none⟩
  | outOfFuel => exact ⟨h.printed, rfl, rfl, .none⟩

theorem run_isRejected (fuel : Nat) (mode : Mode) (source : String) (s : Session) :
    (s.run fuel mode source).1.isRejected = true ↔ (compile source mode 0).diagnostics ≠ [] := by
  rw [← compile_diagnostics source mode s.nextId]
  by_cases hc : (compile source mode s.nextId).diagnostics = []
  · have hends : (s.run fuel mode source).1.isRejected = false := by
      cases hr : Run.program fuel (compile source mode s.nextId).program
          (s.machine.addHops (compile source mode s.nextId).hops) with
      | ok value m =>
        rw [run_finished hc hr]
        rfl
      | error halt m =>
        rw [run_halted hc hr]
        cases halt <;> rfl
    simp [hends, hc]
  · rw [run_rejected hc]
    simp [hc, Step.isRejected]

/-- The steps that are left when the rejected ones are taken out, each with its input. -/
def Session.kept (fuel : Nat) (inputs : List (Mode × String)) (s : Session) :
    List ((Mode × String) × Step) :=
  (inputs.zip (s.runAll fuel inputs).1).filter fun p => !p.2.isRejected

theorem Session.kept_cons (fuel : Nat) (mode : Mode) (source : String)
    (rest : List (Mode × String)) (s : Session) :
    s.kept fuel ((mode, source) :: rest) =
      if (s.run fuel mode source).1.isRejected then (s.run fuel mode source).2.kept fuel rest
      else
        ((mode, source), (s.run fuel mode source).1) ::
          (s.run fuel mode source).2.kept fuel rest := by
  have hsteps : (s.runAll fuel ((mode, source) :: rest)).1 =
      (s.run fuel mode source).1 :: ((s.run fuel mode source).2.runAll fuel rest).1 := rfl
  unfold Session.kept
  rw [hsteps, List.zip_cons_cons, List.filter_cons]
  by_cases h : (s.run fuel mode source).1.isRejected = true
  · simp only [h, Bool.not_true, Bool.false_eq_true, if_false, if_true]
  · simp only [h, Bool.not_false, Bool.false_eq_true, if_false, if_true]

/-- Taking the rejected inputs out changes no other step, nor what the session has at its end. -/
theorem Session.Alike.kept (fuel : Nat) (inputs : List (Mode × String)) (h : s.Alike s') :
    List.Forall₂ Step.Same (s.runAll fuel ((s'.kept fuel inputs).map Prod.fst)).1
        ((s'.kept fuel inputs).map Prod.snd) ∧
      (s.runAll fuel ((s'.kept fuel inputs).map Prod.fst)).2.Alike (s'.runAll fuel inputs).2 := by
  induction inputs generalizing s s' with
  | nil => exact ⟨.nil, h⟩
  | cons input rest ih =>
    obtain ⟨mode, source⟩ := input
    have hrejects := run_isRejected fuel mode source s'
    rw [Session.kept_cons]
    by_cases hc : (compile source mode 0).diagnostics = []
    · obtain ⟨hstep, hnext⟩ := h.accepted fuel hc
      obtain ⟨hrest, hends⟩ := ih hnext
      rw [if_neg (mt hrejects.1 (not_not_intro hc))]
      exact ⟨.cons hstep.same hrest, hends⟩
    · have hc' : (compile source mode s'.nextId).diagnostics ≠ [] := by
        rw [compile_diagnostics]
        exact hc
      rw [if_pos (hrejects.2 hc)]
      exact ih (h.rejected fuel hc')

end

end Lox
