import Lox.Proofs.Evaluation.Sessions
import Lox.Proofs.Evaluation.Simulation
import Lox.Proofs.Relocation

/-!
Sessions that are alike but for the numbers of the occurrences. They stay alike when both run an input,
and when the second one rejects an input that the first one does not get.
-/

namespace Lox

open Run

variable {K : Nat → Prop} {R R' : Lambda → Lambda → Prop} {c c' : Comparison} {k j : Nat}
  {fuel : Nat} {mode : Mode} {source : String} {s s' : Session}

/-- How two steps end that are alike. -/
inductive Ending.Alike (K : Nat → Prop) (R : Lambda → Lambda → Prop) : Ending → Ending → Prop where
  | finished {v v' : Option Value} (h : Option.Rel (Value.Alike R) v v') :
    Alike K R (.finished v) (.finished v')
  | failed {e e' : RuntimeError} (h : e.Alike K e') : Alike K R (.failed e) (.failed e')
  | outOfFuel : Alike K R .outOfFuel .outOfFuel

/-- How the step ends in which a run halts. -/
def Halt.ending : Halt → Ending
  | .error e => .failed e
  | .outOfFuel => .outOfFuel

theorem Halt.Alike.ending {halt halt' : Halt} (h : halt.Alike K halt') :
    halt.ending.Alike K R halt'.ending := by
  cases h with
  | error he => exact .failed he
  | outOfFuel => exact .outOfFuel

structure Step.Alike (K : Nat → Prop) (R : Lambda → Lambda → Prop) (a b : Step) : Prop where
  printed : b.printed = a.printed
  ending : a.ending.Alike K R b.ending

theorem Ending.Alike.mono (hR : ∀ f f', R f f' → R' f f') {a b : Ending} (h : a.Alike K R b) :
    a.Alike K R' b := by
  cases h with
  | finished hv => exact .finished (rel_mono (fun _ _ => Value.Alike.mono hR) hv)
  | failed he => exact .failed he
  | outOfFuel => exact .outOfFuel

/-- On the same line an error is the same. -/
theorem RuntimeError.Alike.eq {e e' : RuntimeError} (h : e.Alike (· = 0) e') : e' = e := by
  obtain ⟨k, rfl, htoken⟩ := h.token
  obtain ⟨token, fault⟩ := e'
  exact congrArg₂ RuntimeError.mk htoken h.fault

section Programs

theorem execEach_agrees (hk : c.lines k) {body : List Stmt} (h : c.Places j (Stmt.idsAll body)) :
    Agrees c Eq (execEach fuel body)
      (execEach fuel (Stmt.relabelAll (Token.down k) (· + j) body)) := by
  induction body with
  | nil => exact .pure rfl
  | cons s rest ih =>
    obtain ⟨hfirst, hrest⟩ := Comparison.Places.append.1 h
    exact ((simulated c fuel).exec hk hfirst).bind fun _ _ _ => ih hrest

theorem program_agrees (hk : c.lines k) {p : Program} (h : c.Places j p.ids) :
    Agrees c (Option.Rel (Value.Alike c.Code)) (Run.program fuel p)
      (Run.program fuel (p.relabel (Token.down k) (· + j))) := by
  cases p with
  | statements body => exact (execEach_agrees hk h).bind fun _ _ _ => .pure .none
  | expression e =>
    refine ((simulated c fuel).eval hk h).bind fun v v' hv => ?_
    exact (print_agrees hv).bind fun _ _ _ => .pure (.some hv)

end Programs

section Steps

variable {m : Machine}

variable (hc : (compile source mode s.nextId).diagnostics = [])
include hc

theorem run_finished {v : Option Value}
    (hr : Run.program fuel (compile source mode s.nextId).program
      (s.machine.addHops (compile source mode s.nextId).hops) = .ok v m) :
    s.run fuel mode source =
      Session.finish m (compile source mode s.nextId).nextId (.finished v) := by
  unfold Session.run
  simp [hc, hr]

theorem run_halted {halt : Halt}
    (hr : Run.program fuel (compile source mode s.nextId).program
      (s.machine.addHops (compile source mode s.nextId).hops) = .error halt m) :
    s.run fuel mode source = Session.finish m (compile source mode s.nextId).nextId halt.ending := by
  unfold Session.run
  cases halt <;> simp [hc, hr, Halt.ending]

end Steps

/-- Two inputs whose programs end alike show the same but for what was printed before, and leave
machines that are alike. -/
theorem run_alike {source' : String} (hc : (compile source mode s.nextId).diagnostics = [])
    (hc' : (compile source' mode s'.nextId).diagnostics = [])
    (hends : EndAlike (Halt.Alike c.lines) (Machine.Alike c) (Option.Rel (Value.Alike c.Code))
      (Run.program fuel (compile source mode s.nextId).program
        (s.machine.addHops (compile source mode s.nextId).hops))
      (Run.program fuel (compile source' mode s'.nextId).program
        (s'.machine.addHops (compile source' mode s'.nextId).hops))) :
    (s'.run fuel mode source').1.printed = c.before.reverse ++ (s.run fuel mode source).1.printed ∧
      (s.run fuel mode source).1.ending.Alike c.lines c.Code (s'.run fuel mode source').1.ending ∧
      ∃ m m' : Machine, m.Alike c m' ∧
        (s.run fuel mode source).2 =
          ⟨{ m with printed := [] }, (compile source mode s.nextId).nextId⟩ ∧
        (s'.run fuel mode source').2 =
          ⟨{ m' with printed := [] }, (compile source' mode s'.nextId).nextId⟩ := by
  have hprinted {m m' : Machine} (hm : m.Alike c m') :
      m'.printed.reverse = c.before.reverse ++ m.printed.reverse := by
    rw [hm.printed, List.reverse_append]
  generalize hr : Run.program fuel (compile source mode s.nextId).program
    (s.machine.addHops (compile source mode s.nextId).hops) = r at hends
  generalize hr' : Run.program fuel (compile source' mode s'.nextId).program
    (s'.machine.addHops (compile source' mode s'.nextId).hops) = r' at hends
  cases hends with
  | @ok v v' m m' hv hm =>
    rw [run_finished hc hr, run_finished hc' hr']
    exact ⟨hprinted hm, .finished hv, m, m', hm, rfl, rfl⟩
  | @error halt halt' m m' hhalt hm =>
    rw [run_halted hc hr, run_halted hc' hr']
    exact ⟨hprinted hm, hhalt.ending, m, m', hm, rfl, rfl⟩

namespace Comparison

/-- More lines are allowed and more numbers are used, and the hops of those used before stay. -/
structure Le (c c' : Comparison) : Prop where
  lines : ∀ k, c.lines k → c'.lines k
  next : c.next ≤ c'.next
  next' : c.next' ≤ c'.next'
  hops : ∀ id, id < c.next → c'.hops id = c.hops id
  hops' : ∀ id, id < c.next' → c'.hops' id = c.hops' id

theorem Code.mono (hle : c.Le c') (f f' : Lambda) (h : c.Code f f') : c'.Code f f' := by
  obtain ⟨k, j, hk, hplaces, hrelabel⟩ := h
  refine ⟨k, j, hle.lines k hk, fun id hid => ?_, hrelabel⟩
  obtain ⟨hid, hid', hsame⟩ := hplaces id hid
  refine ⟨Nat.lt_of_lt_of_le hid hle.next, Nat.lt_of_lt_of_le hid' hle.next', ?_⟩
  rw [hle.hops id hid, hle.hops' _ hid', hsame]

end Comparison

/-- A compilation has numbers of its own for its occurrences, and hops for no others. -/
structure Compilation.Owns (a : Compilation) (first : NodeId) : Prop where
  next : first ≤ a.nextId
  ids : ∀ id ∈ a.program.ids, first ≤ id ∧ id < a.nextId
  other : ∀ id, ¬ (first ≤ id ∧ id < a.nextId) → a.hops[id]? = none

theorem compile_owns {first : NodeId} (hc : (compile source mode first).diagnostics = []) :
    (compile source mode first).Owns first := by
  have hresolved := compile_resolved hc
  refine ⟨compile_nextId source mode first, fun id hid => ?_, hresolved.other⟩
  rw [← Program.map_occurrences] at hid
  obtain ⟨o, ho, rfl⟩ := List.mem_map.1 hid
  exact hresolved.own o ho

namespace Comparison

variable {a b : Compilation}

/-- The numbers from the first unused one on have no hops yet. -/
structure Fresh (c : Comparison) : Prop where
  hops : ∀ id, c.next ≤ id → c.hops id = none
  hops' : ∀ id, c.next' ≤ id → c.hops' id = none

/-- What two runs are compared by after both have got one more input, the second one further down. -/
def after (c : Comparison) (lines : Nat → Prop) (unmoved : lines 0) (a b : Compilation) :
    Comparison where
  lines := lines
  unmoved := unmoved
  hops id := a.hops[id]?.or (c.hops id)
  hops' id := b.hops[id]?.or (c.hops' id)
  next := a.nextId
  next' := b.nextId
  before := c.before

section After

variable {lines : Nat → Prop} {unmoved : lines 0}

theorem le_after (ha : a.Owns c.next) (hb : b.Owns c.next') (hlines : ∀ k, c.lines k → lines k) :
    c.Le (c.after lines unmoved a b) := by
  refine ⟨hlines, ha.next, hb.next, fun id hid => ?_, fun id hid => ?_⟩
  · show a.hops[id]?.or (c.hops id) = c.hops id
    rw [ha.other id fun hrange => Nat.not_le.2 hid hrange.1, Option.none_or]
  · show b.hops[id]?.or (c.hops' id) = c.hops' id
    rw [hb.other id fun hrange => Nat.not_le.2 hid hrange.1, Option.none_or]

theorem Fresh.after (h : c.Fresh) (ha : a.Owns c.next) (hb : b.Owns c.next') :
    (c.after lines unmoved a b).Fresh := by
  constructor
  · intro id hid
    show a.hops[id]?.or (c.hops id) = none
    rw [ha.other id fun hrange => Nat.not_lt.2 hid hrange.2, h.hops id (Nat.le_trans ha.next hid)]
    rfl
  · intro id hid
    show b.hops[id]?.or (c.hops' id) = none
    rw [hb.other id fun hrange => Nat.not_lt.2 hid hrange.2, h.hops' id (Nat.le_trans hb.next hid)]
    rfl

/-- The new input stands in both runs, in the second one with greater numbers. -/
theorem Fresh.places (h : c.Fresh) (ha : a.Owns c.next) (hj : c.next' = c.next + j)
    (hmoved : a.Moved k j b) :
    (c.after lines unmoved a b).Places j a.program.ids := by
  intro id hid
  obtain ⟨hlo, hhi⟩ := ha.ids id hid
  refine ⟨hhi, ?_, ?_⟩
  · show id + j < b.nextId
    rw [hmoved.nextId]
    exact Nat.add_lt_add_right hhi j
  · show b.hops[id + j]?.or (c.hops' (id + j)) = a.hops[id]?.or (c.hops id)
    have hlo' : c.next' ≤ id + j := by
      rw [hj]
      exact Nat.add_le_add_right hlo j
    rw [hmoved.hops id, h.hops id hlo, h.hops' _ hlo']

end After

end Comparison

/-- What two sessions are compared by. No line differs. -/
def Session.against (s s' : Session) : Comparison where
  lines k := k = 0
  unmoved := rfl
  hops id := s.machine.hops[id]?
  hops' id := s'.machine.hops[id]?
  next := s.nextId
  next' := s'.nextId
  before := []

/-- Sessions that are alike, of which the second one may have used more numbers. -/
structure Session.Alike (s s' : Session) : Prop where
  next : s.nextId ≤ s'.nextId
  machine : s.machine.Alike (s.against s') s'.machine
  fresh : (s.against s').Fresh

theorem Session.start_alike (time : Float) : (start time).Alike (start time) where
  next := Nat.le_refl _
  machine :=
    ⟨(Heap.Alike.empty.newFrame []).setSlot 0 "clock" (.assigned (.native .clock)), rfl, fun _ => rfl,
      fun _ => rfl, rfl, rfl⟩
  fresh := ⟨fun _ _ => Std.TreeMap.getElem?_emptyc, fun _ _ => Std.TreeMap.getElem?_emptyc⟩

/-- What two runs leave that end alike. -/
theorem Session.alike_of_machine {m m' : Machine} (hm : m.Alike c m') (hlines : ∀ k, c.lines k → k = 0)
    (hnext : c.next ≤ c.next') (hfresh : c.Fresh) :
    c.Le (Session.against ⟨m, c.next⟩ ⟨m', c.next'⟩) ∧
      Session.Alike ⟨{ m with printed := [] }, c.next⟩ ⟨{ m' with printed := [] }, c.next'⟩ := by
  have hle : c.Le (Session.against ⟨m, c.next⟩ ⟨m', c.next'⟩) :=
    ⟨hlines, Nat.le_refl _, Nat.le_refl _, fun id _ => hm.hops id, fun id _ => hm.hops' id⟩
  refine ⟨hle, hnext, ⟨hm.heap.mono (Comparison.Code.mono hle), hm.environment, fun _ => rfl,
    fun _ => rfl, rfl, hm.time⟩, fun id hid => ?_, fun id hid => ?_⟩
  · exact (hm.hops id).trans (hfresh.hops id hid)
  · exact (hm.hops' id).trans (hfresh.hops' id hid)

namespace Session.Alike

variable (h : s.Alike s')
include h

/-- Numbers may be left out on either side. -/
theorem skip {n n' : NodeId} (hn : s.nextId ≤ n) (hn' : s'.nextId ≤ n') (hle : n ≤ n') :
    Session.Alike { s with nextId := n } { s' with nextId := n' } := by
  have hcode : (s.against s').Le (Session.against { s with nextId := n } { s' with nextId := n' }) :=
    ⟨fun _ hk => hk, hn, hn', fun _ _ => rfl, fun _ _ => rfl⟩
  obtain ⟨heap, henvironment, hhops, hhops', hprinted, htime⟩ := h.machine
  refine ⟨hle, ⟨heap.mono (Comparison.Code.mono hcode), henvironment, hhops, hhops', hprinted, htime⟩,
    fun id hid => ?_, fun id hid => ?_⟩
  · exact h.fresh.hops id (Nat.le_trans hn hid)
  · exact h.fresh.hops' id (Nat.le_trans hn' hid)

/-- What the second session rejects changes nothing in it but the first unused number. -/
theorem rejected (fuel : Nat) (hc : (compile source mode s'.nextId).diagnostics ≠ []) :
    s.Alike (s'.run fuel mode source).2 := by
  have hnext := compile_nextId source mode s'.nextId
  rw [run_rejected hc]
  exact h.skip (Nat.le_refl s.nextId) hnext (Nat.le_trans h.next hnext)

/-- What one session runs the other one runs as well, and shows the same. -/
theorem accepted (fuel : Nat) (hc : (compile source mode 0).diagnostics = []) :
    (s.run fuel mode source).1.Alike (· = 0) ((s.run fuel mode source).2.against
        (s'.run fuel mode source).2).Code (s'.run fuel mode source).1 ∧
      (s.run fuel mode source).2.Alike (s'.run fuel mode source).2 := by
  obtain ⟨j, hj⟩ := Nat.exists_eq_add_of_le h.next
  let a := compile source mode s.nextId
  let b := compile source mode s'.nextId
  have hca : a.diagnostics = [] := (compile_diagnostics source mode s.nextId).trans hc
  have hcb : b.diagnostics = [] := (compile_diagnostics source mode s'.nextId).trans hc
  have hmoved : a.Moved 0 j b := by
    show a.Moved 0 j (compile source mode s'.nextId)
    rw [hj]
    exact compile_renumbered source mode s.nextId j
  have ha : a.Owns (s.against s').next := compile_owns hca
  have hb : b.Owns (s.against s').next' := compile_owns hcb
  let c := (s.against s').after (· = 0) rfl a b
  have hle : (s.against s').Le c := Comparison.le_after ha hb fun _ hk => hk
  have hmachine : (s.machine.addHops a.hops).Alike c (s'.machine.addHops b.hops) :=
    ⟨h.machine.heap.mono (Comparison.Code.mono hle), h.machine.environment,
      hops_addHops s.machine a.hops, hops_addHops s'.machine b.hops, h.machine.printed,
      h.machine.time⟩
  have hnext : c.next ≤ c.next' := by
    show a.nextId ≤ b.nextId
    rw [hmoved.nextId]
    exact Nat.le_add_right _ j
  have hplaces : c.Places j a.program.ids := h.fresh.places ha hj hmoved
  have hends := @program_agrees c 0 j fuel rfl a.program hplaces _ _ hmachine
  rw [← hmoved.program] at hends
  obtain ⟨hprinted, hending, m, m', hm, hs, hs'⟩ := run_alike hca hcb hends
  obtain ⟨hle, hsession⟩ := Session.alike_of_machine hm (fun _ hk => hk) hnext (h.fresh.after ha hb)
  rw [hs, hs']
  exact ⟨⟨hprinted, hending.mono (Comparison.Code.mono hle)⟩, hsession⟩

end Session.Alike

/-- The sessions that come about from a new one by steps. -/
inductive Session.Reachable : Session → Prop where
  | start (time : Float) : Reachable (.start time)
  | run {s : Session} (h : Reachable s) (fuel : Nat) (mode : Mode) (source : String) :
    Reachable (s.run fuel mode source).2

/-- A session is like itself: its functions use only numbers and hops that it has. -/
theorem Session.Reachable.alike (h : s.Reachable) : s.Alike s := by
  induction h with
  | start time => exact Session.start_alike time
  | @run s h fuel mode source ih =>
    by_cases hc : (compile source mode 0).diagnostics = []
    · exact (ih.accepted fuel hc).2
    · have hc' : (compile source mode s.nextId).diagnostics ≠ [] := by
        rw [compile_diagnostics]
        exact hc
      have hnext := compile_nextId source mode s.nextId
      rw [run_rejected hc']
      exact ih.skip hnext hnext (Nat.le_refl _)

end Lox
