import Lox.Proofs.Evaluation.SessionLikeness
import Lox.Proofs.Loops.Compiling
import Lox.Proofs.Loops.Running

/-!
Two sessions that run the same inputs, the second one with increments in loop bodies. What a step leaves
in one corresponds to what it leaves in the other, so their steps go on to show the same.
-/

namespace Lox

open Run

section Programs

variable {side : Side} {d : Detour} {w : List FrameId} {n k : Nat}

theorem execEach_beside (hn : side.Fuels n k) : ∀ {w : List FrameId} {body body' : List Stmt},
    Stmt.InlinedAll d.Leads [] body body' → Stmt.ProperAll body →
    Run.Beside side d [] (fun _ => Eq) w (execEach n body) (execEach k body')
  | _, _, _, .nil, _ => .pure rfl
  | _, _, _, .cons h hrest, hp =>
    ((follows side d n).exec hn h hp.1 nofun).bind (fun _ => execEach_affects n _)
      (fun _ => execEach_affects k _) fun _ _ _ _ _ => execEach_beside hn hrest hp.2

theorem program_beside (hn : side.Fuels n k) {p p' : Program} (h : p.Inlined d.Leads p')
    (hp : p.Proper) :
    Run.Beside side d [] (fun w => Option.Rel (Value.Beside d w)) w (Run.program n p)
      (Run.program k p') := by
  cases h with
  | statements h =>
    exact (execEach_beside hn h hp).bind (fun _ => .pure _) (fun _ => .pure _) fun _ _ _ _ _ => .pure .none
  | expression h =>
    have hrest (v : Value) : Affects Machine.Prints (do Run.print v; pure (some v)) :=
      (Affects.print v).bind fun _ => .pure _
    refine ((follows side d n).eval hn h hp).bind hrest hrest fun w' hw v v' hv => ?_
    exact .bind_steady (print_steady hv) fun w'' hw' _ _ _ => .pure (.some (hv.mono (.refl d) hw'))

end Programs

/-- Before anything has run there is one frame, with the same in it. -/
theorem Machine.Beside.start (time : Float) :
    (Machine.start time).Beside .start [] [0] (Machine.start time) := by
  have hslot := Heap.slot?_enter (h := Heap.empty) [] "clock" (.assigned (.native .clock))
  have hheap : (Machine.start time).heap.Beside .start [0] (Machine.start time).heap := by
    refine ⟨rfl, rfl, fun frame hmem => ?_, List.pairwise_singleton _ 0, rfl, rfl,
      fun frame frame' hf x => ?_, fun _ _ => .none⟩
    · rw [List.mem_singleton.1 hmem]
      exact Nat.zero_lt_one
    · obtain rfl : frame = frame' := by
        rw [List.getElem?_singleton] at hf
        split at hf
        next h => exact h.trans (Option.some.inj hf)
        next => cases hf
      rw [show (Machine.start time).heap.slot? frame x = _ from hslot frame x]
      split
      · exact .some (.assigned (.native .clock))
      · exact .none
  exact ⟨hheap, .global rfl, fun _ => Std.TreeMap.getElem?_emptyc, fun _ => Std.TreeMap.getElem?_emptyc,
    rfl, rfl⟩

/-- How two steps end that are alike but for the code of functions and the numbers of their frames. -/
inductive Ending.Beside (d : Detour) (w : List FrameId) : Ending → Ending → Prop where
  | finished {v v' : Option Value} (h : Option.Rel (Value.Beside d w) v v') :
    Beside d w (.finished v) (.finished v')
  | rejected (diagnostics : List Diagnostic) : Beside d w (.rejected diagnostics) (.rejected diagnostics)
  | failed (e : RuntimeError) : Beside d w (.failed e) (.failed e)
  | outOfFuel : Beside d w .outOfFuel .outOfFuel

/-- The steps print the same and end alike. -/
structure Step.Beside (a b : Step) : Prop where
  printed : b.printed = a.printed
  ending : ∃ d w, a.ending.Beside d w b.ending

/-- The first step stops for want of fuel, and has printed what the other one prints up to there. -/
structure Step.StopsShort (a b : Step) : Prop where
  ending : a.ending = .outOfFuel
  printed : a.printed <+: b.printed

/-- The step of the run with little fuel stops short of the other one. -/
def Side.Stops : Side → Step → Step → Prop
  | first, a, b => a.StopsShort b
  | second, a, b => b.StopsShort a

namespace Session

/-- What a run shows, and the session that it leaves. -/
def leave (nextId : NodeId) : EStateM.Result Halt Machine (Option Value) → Step × Session
  | .ok value m => finish m nextId (.finished value)
  | .error halt m => finish m nextId halt.ending

/-- Runs what an input has been compiled to. With a diagnostic nothing of it runs. -/
def runCompiled (fuel : Nat) (c : Compilation) (s : Session) : Step × Session :=
  if c.diagnostics = [] then leave c.nextId (Run.program fuel c.program (s.machine.addHops c.hops))
  else (⟨[], .rejected c.diagnostics⟩, { s with nextId := c.nextId })

/-- Runs an input with another program in place of the one that is read from it. -/
def runAs (p : Program) (fuel : Nat) (mode : Mode) (source : String) (s : Session) : Step × Session :=
  s.runCompiled fuel (compileAs p source mode s.nextId)

variable {mode : Mode} {source : String} {p : Program} {s s' : Session} {n k : Nat}

theorem run_eq_runCompiled (fuel : Nat) (mode : Mode) (source : String) (s : Session) :
    s.run fuel mode source = s.runCompiled fuel (compile source mode s.nextId) := by
  unfold runCompiled
  by_cases hc : (compile source mode s.nextId).diagnostics = []
  · rw [if_pos hc]
    cases hr : Run.program fuel (compile source mode s.nextId).program
        (s.machine.addHops (compile source mode s.nextId).hops) with
    | ok value m => exact run_finished hc hr
    | error halt m => exact run_halted hc hr
  · rw [if_neg hc]
    exact run_rejected hc

/-- Sessions of which the second one has run each input with increments in loop bodies. -/
structure Beside (d : Detour) (w : List FrameId) (s s' : Session) : Prop where
  next : s.nextId = d.next
  next' : s'.nextId = d.next
  machine : s.machine.Beside d [] w s'.machine
  fresh : d.Fresh

theorem start_beside (time : Float) : (start time).Beside .start [0] (start time) :=
  ⟨rfl, rfl, .start time, Detour.start_fresh⟩

namespace Beside

variable {d : Detour} {w : List FrameId} (h : s.Beside d w s')
include h

/-- What both reject changes nothing but the first unused number. -/
theorem skip {next : NodeId} (hle : d.next ≤ next) :
    Beside { d with next } w { s with nextId := next } { s' with nextId := next } := by
  have hd : d.Le { d with next } := ⟨hle, fun _ _ => rfl, fun _ _ => rfl⟩
  refine ⟨rfl, rfl, { h.machine with heap := h.machine.heap.detour hd }, fun id hid => ?_, fun id hid => ?_⟩
  · exact h.fresh.direct id (Nat.le_trans hle hid)
  · exact h.fresh.around id (Nat.le_trans hle hid)

end Beside

/-- What two runs leave that end so. -/
theorem leave_beside {side : Side} {d : Detour} {w : List FrameId} (hfresh : d.Fresh)
    {r r' : EStateM.Result Halt Machine (Option Value)}
    (h : EndBeside side (Machine.Beside d [] w) (Option.Rel (Value.Beside d w)) r r') :
    ((leave d.next r).1.Beside (leave d.next r').1 ∧
        Session.Beside d w (leave d.next r).2 (leave d.next r').2) ∨
      side.Stops (leave d.next r).1 (leave d.next r').1 := by
  have hsession {m m' : Machine} (hm : m.Beside d [] w m') :
      Session.Beside d w ⟨{ m with printed := [] }, d.next⟩ ⟨{ m' with printed := [] }, d.next⟩ :=
    ⟨rfl, rfl, { hm with printed := rfl }, hfresh⟩
  have hshown (r : EStateM.Result Halt Machine (Option Value)) :
      (leave d.next r).1.printed = (machineOf r).printed.reverse := by cases r <;> rfl
  cases h with
  | ok hv hm => exact .inl ⟨⟨congrArg List.reverse hm.printed, d, w, .finished hv⟩, hsession hm⟩
  | @error halt m m' hm =>
    refine .inl ⟨⟨congrArg List.reverse hm.printed, d, w, ?_⟩, hsession hm⟩
    cases halt with
    | error e => exact .failed e
    | outOfFuel => exact .outOfFuel
  | first hside hprinted =>
    subst hside
    refine .inr ⟨rfl, ?_⟩
    rw [hshown, hshown]
    exact List.reverse_prefix.2 hprinted
  | second hside hprinted =>
    subst hside
    refine .inr ⟨rfl, ?_⟩
    rw [hshown, hshown]
    exact List.reverse_prefix.2 hprinted

/-- A step of both sessions shows the same and leaves sessions that correspond, unless one run stops
short. -/
theorem Beside.step {side : Side} {d : Detour} {w : List FrameId} (h : s.Beside d w s')
    (hp : (compile source mode s.nextId).program.Inlines p) (hn : side.Fuels n k) :
    (((s.run n mode source).1.Beside (s'.runAs p k mode source).1) ∧
        ∃ d' w', Session.Beside d' w' (s.run n mode source).2 (s'.runAs p k mode source).2) ∨
      side.Stops (s.run n mode source).1 (s'.runAs p k mode source).1 := by
  rw [run_eq_runCompiled, runAs, h.next', ← h.next]
  let a := compile source mode s.nextId
  let b := compileAs p source mode s.nextId
  have hdiagnostics : b.diagnostics = a.diagnostics := compileAs_diagnostics hp
  have hle : d.next ≤ a.nextId := h.next ▸ compile_nextId source mode s.nextId
  show (((s.runCompiled n a).1.Beside (s'.runCompiled k b).1) ∧
        ∃ d' w', Session.Beside d' w' (s.runCompiled n a).2 (s'.runCompiled k b).2) ∨
      side.Stops (s.runCompiled n a).1 (s'.runCompiled k b).1
  unfold runCompiled
  rw [hdiagnostics]
  by_cases hc : a.diagnostics = []
  · rw [if_pos hc, if_pos hc]
    have ha : a.Resolved d.next := h.next ▸ compile_resolved hc
    have hb : b.Resolved d.next := h.next ▸ compileAs_resolved hp hc
    have hleads : a.program.Inlined (d.after a b).Leads b.program := Detour.leads_after ha hb h.fresh hp
    have hm : (s.machine.addHops a.hops).Beside (d.after a b) [] w (s'.machine.addHops b.hops) :=
      { heap := h.machine.heap.detour (Detour.le_after ha hb hle)
        environment := h.machine.environment
        hops := fun id => by rw [hops_addHops, h.machine.hops]; rfl
        hops' := fun id => by rw [hops_addHops, h.machine.hops']; rfl
        printed := h.machine.printed
        time := h.machine.time }
    obtain ⟨w', _, hends⟩ := program_beside hn hleads ha.proper _ _ hm
    exact (leave_beside (Detour.Fresh.after ha hb h.fresh hle rfl) hends).imp_left fun hsame =>
      ⟨hsame.1, _, _, hsame.2⟩
  · rw [if_neg hc, if_neg hc]
    exact .inl ⟨⟨rfl, d, w, .rejected _⟩, _, _, h.skip hle⟩

/-- Sessions that have run the same inputs, the second one each with increments in loop bodies. Wherever
one of the runs has had little fuel against the other, it has come to its end. -/
inductive Rewritten : Session → Session → Prop where
  | start (time : Float) : Rewritten (.start time) (.start time)
  | run {s s' : Session} (h : Rewritten s s') {n k : Nat} {mode : Mode} {source : String} {p : Program}
    (hp : (compile source mode s.nextId).program.Inlines p)
    (hends : (5 * n ≤ k ∧ (s.run n mode source).1.ending ≠ .outOfFuel) ∨
      (k ≤ n ∧ (s'.runAs p k mode source).1.ending ≠ .outOfFuel)) :
    Rewritten (s.run n mode source).2 (s'.runAs p k mode source).2

theorem Rewritten.beside (h : s.Rewritten s') : ∃ d w, s.Beside d w s' := by
  induction h with
  | start time => exact ⟨.start, [0], start_beside time⟩
  | run _ hp hends ih =>
    obtain ⟨d, w, hs⟩ := ih
    obtain ⟨hn, hfuel⟩ | ⟨hn, hfuel⟩ := hends
    · have hlittle : Side.first.Fuels _ _ := hn
      rcases hs.step hp hlittle with ⟨_, hs'⟩ | hstops
      · exact hs'
      · exact absurd hstops.ending hfuel
    · have hlittle : Side.second.Fuels _ _ := hn
      rcases hs.step hp hlittle with ⟨_, hs'⟩ | hstops
      · exact hs'
      · exact absurd hstops.ending hfuel

end Session

end Lox
