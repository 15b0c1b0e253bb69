import Lox.Proofs.Evaluation.Effects

/-!
A run leaves the current environment and the hops as they were, however it ends: with a value, with any
completion, with an error from any depth, or without fuel. Only the heap and the printed texts change.
-/

namespace Lox

open Run

/-- What a run leaves as it is. -/
structure Machine.Restored (m m' : Machine) : Prop where
  environment : m'.environment = m.environment
  hops : m'.hops = m.hops
  time : m'.time = m.time

namespace Machine.Restored

theorem refl (m : Machine) : m.Restored m := ⟨rfl, rfl, rfl⟩

theorem trans {m m' m'' : Machine} (h : m.Restored m') (h' : m'.Restored m'') : m.Restored m'' :=
  ⟨h'.environment.trans h.environment, h'.hops.trans h.hops, h'.time.trans h.time⟩

end Machine.Restored

instance : Effect Machine.Restored where
  refl := .refl
  trans := .trans
  heap _ _ := ⟨rfl, rfl, rfl⟩
  print _ _ := ⟨rfl, rfl, rfl⟩
  within h := ⟨rfl, h.hops, h.time⟩

/-- On every machine, and however the action ends. -/
def Run.Restores {α : Type} (p : Run α) : Prop := ∀ m : Machine, m.Restored (machineOf (p m))

namespace Session

/-- After a step the environment is as it was, and the hops are those from before with those of the
input, if it was run. -/
theorem run_restores (fuel : Nat) (mode : Mode) (source : String) (s : Session) :
    let c := compile source mode s.nextId
    (if c.diagnostics = [] then s.machine.addHops c.hops else s.machine).Restored
      (s.run fuel mode source).2.machine := by
  intro c
  by_cases hc : c.diagnostics = []
  · rw [if_pos hc, run_accepted hc]
    have hrun : (s.machine.addHops c.hops).Restored _ :=
      program_affects fuel c.program (s.machine.addHops c.hops)
    exact ⟨hrun.environment, hrun.hops, hrun.time⟩
  · rw [if_neg hc, run_rejected hc]
    exact .refl _

theorem run_environment (fuel : Nat) (mode : Mode) (source : String) (s : Session) :
    (s.run fuel mode source).2.machine.environment = s.machine.environment := by
  refine (run_restores fuel mode source s).environment.trans ?_
  split <;> rfl

theorem runAll_environment (fuel : Nat) (inputs : List (Mode × String)) (s : Session) :
    (s.runAll fuel inputs).2.machine.environment = s.machine.environment := by
  induction inputs generalizing s with
  | nil => rfl
  | cons input rest ih => exact (ih _).trans (run_environment fuel input.1 input.2 s)

end Session

end Lox
