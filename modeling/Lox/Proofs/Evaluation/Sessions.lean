import Lox.Proofs.Compilation
import Lox.Proofs.Evaluation.Soundness

/-!
The steps of a session share one heap. What one step leaves is sound for the next, and the hops of a
text stay what they are.
-/

namespace Lox

open Run

section

variable {α : Type} {W : World} {begun : Begun} {m : Machine} {P : Point} {fuel : Nat}

theorem each_ends {body : List Stmt} (h : (Point.each fuel body m).Sound W begun) :
    Ends W begun m (fun _ _ => True) (execEach fuel body m) := by
  induction body generalizing m with
  | nil => exact .ok h.machine trivial
  | cons s rest ih =>
    have step {Q : Point} (hc : Calls (.each fuel (s :: rest) m) Q) : Q.Sound W begun :=
      h.step (fun k _ => preserves W k) hc
    exact ((preserves W fuel).exec (step .firstInput)).bind fun c m' hs _ _ _ =>
      ih (step (.restInput hs))

theorem program_ends {p : Program} (h : (p.point fuel m).Sound W begun) :
    Ends W begun m (fun _ _ => True) (Run.program fuel p m) := by
  cases p with
  | statements body => exact (each_ends h).bind fun _ _ _ _ hm' _ => .ok hm' trivial
  | expression e =>
    apply ((preserves W fuel).eval h).bind
    intro v m' _ _ hm' _
    exact (print_ends hm' v).bind fun _ _ _ _ hm'' _ => .ok hm'' trivial

theorem Ends.keeps {R : Heap → α → Prop} {r : EStateM.Result Halt Machine α}
    (h : Ends W begun m R r) : m.Keeps (machineOf r) := by
  cases r with
  | ok a m' => exact h.1
  | error halt m' => exact h.1

/-- No evaluation takes a name from a frame, or changes `this` and `super` in one. -/
theorem Point.Sound.keeps (h : P.Sound W begun) : P.start.Keeps P.stop := by
  cases P with
  | expr n e m => exact ((preserves W n).eval h).keeps
  | exprs n es m => exact ((preserves W n).evalAll h).keeps
  | call n callee paren arguments m => exact ((preserves W n).call h).keeps
  | bind method receiver m =>
    have hbind : Ends W begun m _ (access (.bindMethod method receiver) m) :=
      .access h.machine.hops
        (Access.bindMethod_ends h.machine.heap h.visited h.ready.1 h.ready.2)
    exact hbind.keeps
  | invoke n closure arguments m => exact ((preserves W n).invoke h).keeps
  | stmt n s m => exact ((preserves W n).exec h).keeps
  | stmts n body m => exact ((preserves W n).execAll h).keeps
  | loop n condition body increment m => exact ((preserves W n).iterate h).keeps
  | each fuel body m => exact (each_ends h).keeps

/-- The initializer of the name was begun in the frame, and has given no value at the point. -/
def Pending (visited : Point → Prop) (P : Point) : Begun := fun frame x =>
  ∃ n name e m, visited (.stmt (n + 1) (.var name (some e)) m) ∧ m.environment.inner = frame ∧
    name.lexeme = x ∧ (Reaches (.expr n e m) P ∨ ∃ halt m', eval n e m = .error halt m')

/-- From a sound point only sound points are reached. -/
theorem Point.Sound.reaches {R : Point} (h : R.Sound W (Aborted W.visited)) (hr : Reaches R P) :
    ∃ begun, P.Sound W begun ∧ ∀ frame x, begun frame x → Pending W.visited P frame x := by
  induction hr with
  | refl =>
    refine ⟨_, h, fun frame x hx => ?_⟩
    obtain ⟨n, name, e, m, halt, m', hv, hframe, hx, hr⟩ := hx
    exact ⟨n, name, e, m, hv, hframe, hx, .inr ⟨halt, m', hr⟩⟩
  | @tail Q Q' hr hc ih =>
    obtain ⟨begun, hQ, hbegun⟩ := ih
    refine ⟨_, hQ.step (fun k _ => preserves W k) hc, fun frame x hx => ?_⟩
    have hold (hx : begun frame x) : Pending W.visited Q' frame x := by
      obtain ⟨n, name, e, m, hv, hframe, hx, hr⟩ := hbegun frame x hx
      exact ⟨n, name, e, m, hv, hframe, hx, hr.imp_left fun hr => hr.tail hc⟩
    unfold Point.within at hx
    split at hx
    next n name e m =>
      rcases hx with hx | ⟨hframe, hx⟩
      · exact hold hx
      · cases hc with
        | var => exact ⟨_, name, e, m, hQ.visited, hframe, hx, .inl .refl⟩
    next => exact hold hx

end

/-! The hops of an input join those of earlier ones. -/

theorem foldl_insert_of_not_mem {id : NodeId} : ∀ {entries : List (NodeId × Nat)} {all : HopMap},
    (∀ entry ∈ entries, entry.1 ≠ id) →
    (entries.foldl (fun all entry => all.insert entry.1 entry.2) all)[id]? = all[id]?
  | [], _, _ => rfl
  | entry :: rest, all, h => by
    rw [List.forall_mem_cons] at h
    rw [List.foldl_cons, foldl_insert_of_not_mem h.2, Std.TreeMap.getElem?_insert, if_neg]
    simpa using h.1

theorem foldl_insert_of_mem {id : NodeId} {depth : Nat} :
    ∀ {entries : List (NodeId × Nat)} {all : HopMap},
    entries.Pairwise (fun a b => ¬ compare a.1 b.1 = .eq) → (id, depth) ∈ entries →
    (entries.foldl (fun all entry => all.insert entry.1 entry.2) all)[id]? = some depth
  | entry :: rest, all, hdistinct, hmem => by
    obtain ⟨hfirst, hrest⟩ := List.pairwise_cons.1 hdistinct
    rw [List.foldl_cons]
    rcases List.mem_cons.1 hmem with rfl | hmem
    · rw [foldl_insert_of_not_mem, Std.TreeMap.getElem?_insert_self]
      intro other hother heq
      exact hfirst other hother (by simp [heq])
    · exact foldl_insert_of_mem hrest hmem

/-- The hops of the input come first. -/
theorem hops_addHops (m : Machine) (hops : HopMap) (id : NodeId) :
    (m.addHops hops).hops[id]? = hops[id]?.or m.hops[id]? := by
  unfold Machine.addHops
  simp only [Std.TreeMap.foldl_eq_foldl_toList]
  cases hid : hops[id]? with
  | some depth =>
    rw [foldl_insert_of_mem Std.TreeMap.distinct_keys_toList
      (Std.TreeMap.mem_toList_iff_getElem?_eq_some.2 hid)]
    rfl
  | none =>
    rw [foldl_insert_of_not_mem, Option.none_or]
    intro entry hmem heq
    subst heq
    rw [Std.TreeMap.mem_toList_iff_getElem?_eq_some, hid] at hmem
    exact nomatch hmem

/-- What one step of a session leaves to the next. -/
structure Session.Sound (visited : Point → Prop) (known : Occurrence → Prop) (s : Session) :
    Prop where
  calls : ∀ {P Q : Point}, visited P → Calls P Q → visited Q
  heap : View.Sound ⟨visited, known, Aborted visited, s.machine.heap⟩
  environment : s.machine.environment = .global
  found : ∀ o, known o → o.Found s.machine.hops
  own : ∀ o, known o → o.id < s.nextId
  fresh : ∀ id, s.nextId ≤ id → s.machine.hops[id]? = none

theorem Session.start_sound (time : Float) :
    (Session.start time).Sound (fun _ => False) (fun _ => False) := by
  have hslot := Heap.slot?_enter (h := Heap.empty) [] "clock" (.assigned (.native .clock))
  refine ⟨False.elim, ⟨Nat.zero_lt_one, ?_, ?_⟩, rfl, fun _ => False.elim, fun _ => False.elim,
    fun id _ => Std.TreeMap.getElem?_emptyc⟩
  · intro frame x v hv
    have hv : (Session.start time).machine.heap.slot? frame x = some (.assigned v) := hv
    rw [show (Session.start time).machine.heap.slot? frame x = _ from hslot frame x] at hv
    split at hv
    · cases hv
      exact trivial
    · exact nomatch hv
  · exact fun _ _ _ hv => nomatch hv

/-- The points of a step, with those of earlier ones. -/
def Session.passed (visited : Point → Prop) (fuel : Nat) (mode : Mode) (source : String)
    (s : Session) (P : Point) : Prop := visited P ∨ s.Passes fuel mode source P

/-- The occurrences of an input that runs, with those of earlier ones. -/
def Session.learned (known : Occurrence → Prop) (mode : Mode) (source : String) (s : Session)
    (o : Occurrence) : Prop :=
  known o ∨ ((compile source mode s.nextId).diagnostics = [] ∧
    o ∈ (compile source mode s.nextId).program.occurrences)

section

variable {visited : Point → Prop} {known : Occurrence → Prop} {s : Session}

theorem Aborted.mono {visited' : Point → Prop} (h : ∀ P, visited P → visited' P) {frame : FrameId}
    {x : String} (hx : Aborted visited frame x) : Aborted visited' frame x := by
  obtain ⟨n, name, e, m, halt, m', hv, hrest⟩ := hx
  exact ⟨n, name, e, m, halt, m', h _ hv, hrest⟩

/-- The hops of all inputs lead to the names of each one. -/
theorem Session.Sound.found_addHops (hs : s.Sound visited known) {mode : Mode} {source : String}
    (hc : (compile source mode s.nextId).diagnostics = []) :
    ∀ o, s.learned known mode source o →
      o.Found (s.machine.addHops (compile source mode s.nextId).hops).hops := by
  have hresolved := compile_resolved hc
  intro o ho
  rcases ho with hold | ⟨_, hnew⟩
  · have hother : (compile source mode s.nextId).hops[o.id]? = none :=
      hresolved.other o.id fun hid => Nat.not_lt.2 hid.1 (hs.own o hold)
    have hfound := hs.found o hold
    refine ⟨?_, hfound.allowed⟩
    rw [hops_addHops, hother, Option.none_or, hfound.hops]
  · have hfound := hresolved.found o hnew
    refine ⟨?_, hfound.allowed⟩
    rw [hops_addHops, hs.fresh o.id (hresolved.own o hnew).1, Option.or_none, hfound.hops]

/-- What is kept to while an input runs. -/
def Session.Sound.world (hs : s.Sound visited known) (fuel : Nat) {mode : Mode} {source : String}
    (hc : (compile source mode s.nextId).diagnostics = []) : World where
  visited := s.passed visited fuel mode source
  calls h hPQ := h.imp (hs.calls · hPQ) fun h => ⟨h.1, h.2.tail hPQ⟩
  known := s.learned known mode source
  hops := (s.machine.addHops (compile source mode s.nextId).hops).hops
  found := hs.found_addHops hc _

/-- The first point of an input that runs is sound. -/
theorem Session.Sound.point (hs : s.Sound visited known) (fuel : Nat) {mode : Mode}
    {source : String} (hc : (compile source mode s.nextId).diagnostics = []) :
    ((compile source mode s.nextId).program.point fuel
      (s.machine.addHops (compile source mode s.nextId).hops)).Sound (hs.world fuel hc)
      (Aborted (hs.world fuel hc).visited) := by
  have hle : (View.mk visited known (Aborted visited) s.machine.heap).Le
      ((hs.world fuel hc).view (Aborted (hs.world fuel hc).visited) s.machine.heap) := by
    refine ⟨fun _ h => .inl h, fun _ h => .inl h, Nat.le_refl _, fun frame x hx => ?_,
      fun _ _ _ _ => rfl⟩
    exact hx.imp_right (Aborted.mono fun _ h => .inl h)
  have hm : (s.machine.addHops (compile source mode s.nextId).hops).Sound (hs.world fuel hc)
      (Aborted (hs.world fuel hc).visited) := ⟨hs.heap.mono hle rfl, rfl⟩
  have hvisited : (hs.world fuel hc).visited ((compile source mode s.nextId).program.point fuel
      (s.machine.addHops (compile source mode s.nextId).hops)) := .inr ⟨hc, .refl⟩
  have hknown : ∀ o ∈ (compile source mode s.nextId).program.occurrences,
      (hs.world fuel hc).known o := fun o ho => .inr ⟨hc, ho⟩
  have hproper := (compile_resolved hc).proper
  generalize (compile source mode s.nextId).program = p at hvisited hknown hproper
  cases p with
  | statements body => exact ⟨hvisited, hm, hs.environment, hproper, hknown⟩
  | expression e =>
    have hmirrors : Mirrors ((hs.world fuel hc).view (Aborted (hs.world fuel hc).visited)
        s.machine.heap) s.machine.environment [] := by
      rw [hs.environment]
      exact .global
    exact ⟨hvisited, hm, [], hmirrors, hproper, hknown⟩

/-- Nothing of an input with a diagnostic runs. -/
theorem Session.Sound.rejected (hs : s.Sound visited known) (fuel : Nat) {mode : Mode}
    {source : String} (hc : (compile source mode s.nextId).diagnostics ≠ []) :
    Session.Sound (s.passed visited fuel mode source) (s.learned known mode source)
      { s with nextId := (compile source mode s.nextId).nextId } := by
  have hnext := compile_nextId source mode s.nextId
  have hpassed (P : Point) (h : s.passed visited fuel mode source P) : visited P :=
    h.resolve_right fun h => hc h.1
  have hlearned (o : Occurrence) (h : s.learned known mode source o) : known o :=
    h.resolve_right fun h => hc h.1
  have hle : (View.mk visited known (Aborted visited) s.machine.heap).Le
      ⟨s.passed visited fuel mode source, s.learned known mode source,
        Aborted (s.passed visited fuel mode source), s.machine.heap⟩ :=
    ⟨fun _ h => .inl h, fun _ h => .inl h, Nat.le_refl _,
      fun _ _ hx => hx.imp_right (Aborted.mono fun _ h => .inl h), fun _ _ _ _ => rfl⟩
  constructor
  · exact fun h hPQ => .inl (hs.calls (hpassed _ h) hPQ)
  · exact hs.heap.mono hle rfl
  · exact hs.environment
  · exact fun o ho => hs.found o (hlearned o ho)
  · exact fun o ho => Nat.lt_of_lt_of_le (hs.own o (hlearned o ho)) hnext
  · exact fun id hid => hs.fresh id (Nat.le_trans hnext hid)

/-- What an input that runs leaves. -/
theorem Session.Sound.accepted (hs : s.Sound visited known) (fuel : Nat) {mode : Mode}
    {source : String} (hc : (compile source mode s.nextId).diagnostics = []) {m : Machine}
    (henvironment : m.environment = .global)
    (hm : m.Sound (hs.world fuel hc) (Aborted (hs.world fuel hc).visited)) :
    Session.Sound (s.passed visited fuel mode source) (s.learned known mode source)
      ⟨{ m with printed := [] }, (compile source mode s.nextId).nextId⟩ := by
  have hnext := compile_nextId source mode s.nextId
  have hresolved := compile_resolved hc
  constructor
  · exact fun h hPQ => (hs.world fuel hc).calls h hPQ
  · exact hm.heap
  · exact henvironment
  · intro o ho
    show o.Found m.hops
    rw [hm.hops]
    exact (hs.world fuel hc).found ho
  · intro o ho
    rcases ho with hold | ⟨_, hnew⟩
    · exact Nat.lt_of_lt_of_le (hs.own o hold) hnext
    · exact (hresolved.own o hnew).2
  · intro id hid
    have hhops : m.hops = (s.machine.addHops (compile source mode s.nextId).hops).hops := hm.hops
    have hother := hresolved.other id fun h => Nat.not_lt.2 hid h.2
    show m.hops[id]? = none
    rw [hhops, hops_addHops, hother, hs.fresh id (Nat.le_trans hnext hid)]
    rfl

/-- A step leaves a sound session, whose heap has grown. -/
theorem Session.Sound.run (hs : s.Sound visited known) (fuel : Nat) (mode : Mode)
    (source : String) :
    (s.run fuel mode source).2.Sound (s.passed visited fuel mode source)
        (s.learned known mode source) ∧
      s.machine.heap.Grows (s.run fuel mode source).2.machine.heap := by
  by_cases hc : (compile source mode s.nextId).diagnostics = []
  · have hends := program_ends (hs.point fuel hc)
    rw [run_accepted hc]
    cases hr : Run.program fuel (compile source mode s.nextId).program
        (s.machine.addHops (compile source mode s.nextId).hops) with
    | ok value m =>
      rw [hr] at hends
      obtain ⟨keeps, hm, _⟩ := hends
      exact ⟨hs.accepted fuel hc (keeps.environment.trans hs.environment) hm, keeps.heap⟩
    | error halt m =>
      rw [hr] at hends
      obtain ⟨keeps, hm⟩ := hends
      have hm' : m.Sound (hs.world fuel hc) (Aborted (hs.world fuel hc).visited) :=
        ⟨hm.heap.mono ((Heap.Grows.refl _).le fun _ _ hx => .inl (hx.elim id id)) rfl, hm.hops⟩
      exact ⟨hs.accepted fuel hc (keeps.environment.trans hs.environment) hm', keeps.heap⟩
  · rw [run_rejected hc]
    exact ⟨hs.rejected fuel hc, .refl _⟩

theorem Session.Sound.runAll (fuel : Nat) : ∀ {visited : Point → Prop} {known : Occurrence → Prop}
    {s : Session} (inputs : List (Mode × String)), s.Sound visited known →
    ∃ visited' known', (Session.runAll fuel inputs s).2.Sound visited' known' ∧
      s.machine.heap.Grows (Session.runAll fuel inputs s).2.machine.heap
  | visited, known, s, [], hs => ⟨visited, known, hs, .refl _⟩
  | _, _, s, (mode, source) :: rest, hs => by
    obtain ⟨hrun, hgrows⟩ := hs.run fuel mode source
    obtain ⟨visited', known', hrest, hgrows'⟩ := Session.Sound.runAll fuel rest hrun
    exact ⟨visited', known', hrest, hgrows.trans hgrows'⟩

/-- Every point of a session is sound in a world of its points and occurrences. -/
theorem Session.Sound.visits (fuel : Nat) : ∀ {visited : Point → Prop} {known : Occurrence → Prop}
    {s : Session} {inputs : List (Mode × String)}, s.Sound visited known →
    ∀ {P : Point}, s.Visits fuel inputs P → ∃ (W : World) (begun : Begun), P.Sound W begun ∧
      (∀ Q, W.visited Q → visited Q ∨ s.Visits fuel inputs Q) ∧
      (∀ o, W.known o → known o ∨ ∃ c, s.Accepts fuel inputs c ∧ o ∈ c.program.occurrences) ∧
      ∀ frame x, begun frame x → Pending W.visited P frame x
  | _, _, _, [], _, _, hP => hP.elim
  | visited, known, s, (mode, source) :: rest, hs, P, hP => by
    rcases hP with ⟨hc, hreaches⟩ | hrest
    · obtain ⟨begun, hP, hbegun⟩ := (hs.point fuel hc).reaches hreaches
      refine ⟨hs.world fuel hc, begun, hP, fun Q hQ => hQ.imp_right .inl, fun o ho => ?_, hbegun⟩
      exact ho.imp_right fun h => ⟨_, .inl ⟨rfl, h.1⟩, h.2⟩
    · obtain ⟨W, begun, hP, hvisited, hknown, hbegun⟩ := (hs.run fuel mode source).1.visits fuel hrest
      refine ⟨W, begun, hP, fun Q hQ => ?_, fun o ho => ?_, hbegun⟩
      · rcases hvisited Q hQ with (hQ | hQ) | hQ
        · exact .inl hQ
        · exact .inr (.inl hQ)
        · exact .inr (.inr hQ)
      · rcases hknown o ho with (ho | ho) | ⟨c, hc, ho⟩
        · exact .inl ho
        · exact .inr ⟨_, .inl ⟨rfl, ho.1⟩, ho.2⟩
        · exact .inr ⟨c, .inr hc, ho⟩

end

end Lox
