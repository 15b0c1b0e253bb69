import Lox.Proofs.Evaluation.Lookup
import Lox.Proofs.Scope.Recording

/-!
The nodes of all texts that a process compiles have numbers of their own. So the hops of one text join
those of the others without a clash, and a node has the hops of its own text for good.
-/

namespace Lox

/-- A text that a process compiles. It is an input of the session, or something else compiles it. -/
structure Input where
  mode : Mode
  source : String
  ofSession : Bool

/-- What is known of one text after the other. The numbers go on from each one to the next. -/
def compileAll (first : NodeId) : List Input → List Compilation
  | [] => []
  | input :: rest =>
    let c := compile input.source input.mode first
    c :: compileAll c.nextId rest

/-- The next number after some texts. -/
def numberAfter (first : NodeId) : List Input → NodeId
  | [] => first
  | input :: rest => numberAfter (compile input.source input.mode first).nextId rest

/-- The session after a text. One that is not its own takes numbers only. -/
def Session.after (fuel : Nat) (s : Session) (input : Input) : Session :=
  if input.ofSession then (s.run fuel input.mode input.source).2
  else { s with nextId := (compile input.source input.mode s.nextId).nextId }

section Numbers

variable (first : NodeId) (inputs : List Input)

theorem compileAll_append (more : List Input) : compileAll first (inputs ++ more) =
    compileAll first inputs ++ compileAll (numberAfter first inputs) more := by
  induction inputs generalizing first with
  | nil => rfl
  | cons input rest ih => exact congrArg _ (ih _)

theorem le_numberAfter : first ≤ numberAfter first inputs := by
  induction inputs generalizing first with
  | nil => exact Nat.le_refl _
  | cons input rest ih => exact Nat.le_trans (compile_nextId _ _ _) (ih _)

theorem compile_fresh (source : String) (mode : Mode) :
    Fresh first (compile source mode first).nextId (compile source mode first).program.ids :=
  (parse_numbers (tokensOf (scan source)) (mode == .line) first).2

/-- The numbers of all trees are apart, whatever is wrong with the texts. -/
theorem compileAll_fresh : Fresh first (numberAfter first inputs)
    ((compileAll first inputs).flatMap (·.program.ids)) := by
  induction inputs generalizing first with
  | nil => exact .nil
  | cons input rest ih =>
    exact (compile_fresh first input.source input.mode).append (ih _) (compile_nextId _ _ _)
      (le_numberAfter _ _)

/-- The hops of a text are what is recorded of its tree. -/
theorem compileAll_hops : ∀ c ∈ compileAll first inputs,
    (c.program.entries.map Prod.fst).Sublist c.program.ids ∧
      c.hops.toList.Perm c.program.entries := by
  induction inputs generalizing first with
  | nil => exact List.forall_mem_nil _
  | cons input rest ih =>
    refine List.forall_mem_cons.2 ⟨⟨Program.entries_ids _, ?_⟩, ih _⟩
    exact Program.hops_entries _ (compile_fresh first input.source input.mode).nodup

/-- The numbers of some trees as long as they fit a word of the machine. -/
theorem words_nodup {first next : NodeId} {ids : List NodeId} (h : Fresh first next ids)
    (hnext : next ≤ 2 ^ 64) : (ids.map UInt64.ofNat).Nodup := by
  refine h.nodup.map_on fun id hid id' hid' heq => ?_
  have hlt {id : NodeId} (hid : id ∈ ids) : id < 2 ^ 64 := Nat.lt_of_lt_of_le (h.range hid).2 hnext
  rw [← UInt64.toNat_ofNat_of_lt' (hlt hid), heq, UInt64.toNat_ofNat_of_lt' (hlt hid')]

end Numbers

namespace Session

variable {visited : Point → Prop} {known : Occurrence → Prop} {s : Session}

theorem Sound.later (h : s.Sound visited known) {next : NodeId} (hnext : s.nextId ≤ next) :
    Session.Sound visited known { s with nextId := next } :=
  ⟨h.calls, h.heap, h.environment, h.found, fun o ho => Nat.lt_of_lt_of_le (h.own o ho) hnext,
    fun id hid => h.fresh id (Nat.le_trans hnext hid)⟩

theorem run_nextId (fuel : Nat) (mode : Mode) (source : String) (s : Session) :
    (s.run fuel mode source).2.nextId = (compile source mode s.nextId).nextId := by
  by_cases hc : (compile source mode s.nextId).diagnostics = []
  · rw [run_accepted hc]
  · rw [run_rejected hc]

theorem after_nextId (fuel : Nat) (s : Session) (input : Input) :
    (s.after fuel input).nextId = (compile input.source input.mode s.nextId).nextId := by
  unfold after
  split
  · exact run_nextId _ _ _ s
  · rfl

theorem foldl_nextId (fuel : Nat) (inputs : List Input) (s : Session) :
    (inputs.foldl (after fuel) s).nextId = numberAfter s.nextId inputs := by
  induction inputs generalizing s with
  | nil => rfl
  | cons input rest ih => rw [List.foldl_cons, ih, after_nextId, numberAfter]

/-- What a session knows comes from the texts that were compiled so far. -/
theorem Sound.after (h : s.Sound visited known) (fuel : Nat) (input : Input) :
    ∃ visited' known', (s.after fuel input).Sound visited' known' ∧
      ∀ o, known' o → known o ∨ (compile input.source input.mode s.nextId).diagnostics = [] ∧
        o ∈ (compile input.source input.mode s.nextId).program.occurrences := by
  unfold Session.after
  by_cases hown : input.ofSession
  · rw [if_pos hown]
    exact ⟨_, _, (h.run fuel input.mode input.source).1, fun _ ho => ho⟩
  · rw [if_neg hown]
    exact ⟨_, _, h.later (compile_nextId _ _ _), fun _ => .inl⟩

/-- The occurrences are of some texts in which nothing is wrong, and the hops of each text lead from
them to their names. -/
def Learned (known : Occurrence → Prop) (calls : List Compilation) : Prop :=
  ∀ o, known o → ∃ c ∈ calls, c.diagnostics = [] ∧ o ∈ c.program.occurrences ∧ o.Found c.hops

theorem Learned.next {calls : List Compilation} (h : Learned known calls)
    {known' : Occurrence → Prop} {source : String} {mode : Mode} {first : NodeId}
    (hknown : ∀ o, known' o → known o ∨ (compile source mode first).diagnostics = [] ∧
      o ∈ (compile source mode first).program.occurrences) :
    Learned known' (calls ++ [compile source mode first]) := by
  intro o ho
  rcases hknown o ho with hold | ⟨hclean, hnew⟩
  · obtain ⟨c, hc, hrest⟩ := h o hold
    exact ⟨c, List.mem_append_left _ hc, hrest⟩
  · exact ⟨_, List.mem_append_right _ (List.mem_singleton_self _), hclean, hnew,
      (compile_resolved hclean).found o hnew⟩

/-- A session stays sound from one text to the next. -/
theorem foldl_sound (fuel : Nat) (time : Float) (first : NodeId) (inputs : List Input) :
    ∃ visited known, (inputs.foldl (Session.after fuel) ⟨.start time, first⟩).Sound visited known ∧
      Learned known (compileAll first inputs) := by
  induction inputs using List.reverseRecOn with
  | nil => exact ⟨_, _, (start_sound time).later (Nat.zero_le first), fun _ => False.elim⟩
  | append_singleton inputs input ih =>
    obtain ⟨visited, known, hsound, hlearned⟩ := ih
    obtain ⟨visited', known', hsound', hknown⟩ := hsound.after fuel input
    rw [foldl_nextId] at hknown
    rw [List.foldl_append, compileAll_append]
    exact ⟨visited', known', hsound', hlearned.next hknown⟩

end Session

/-- Node numbers keep the hops of texts apart. No two nodes of the trees have one number, whatever is
wrong with the texts, and what is recorded of a tree is one entry at most for each of its numbers. When
hops join those of a session, they find none of their own numbers there, so that the entries there stay.
A name is looked up by the hops of the text that its node comes from, in whatever later step. -/
theorem hops_apart (fuel : Nat) (time : Float) (first : NodeId) (earlier : List Input) (mode : Mode)
    (source : String) :
    let calls := compileAll first (earlier ++ [⟨mode, source, true⟩])
    let ids := calls.flatMap (·.program.ids)
    let s := earlier.foldl (Session.after fuel) ⟨.start time, first⟩
    let c := compile source mode s.nextId
    calls = compileAll first earlier ++ [c] ∧
      ids.Nodup ∧ (c.nextId ≤ 2 ^ 64 → (ids.map UInt64.ofNat).Nodup) ∧
      (∀ c ∈ calls, (c.program.entries.map Prod.fst).Sublist c.program.ids ∧
        c.hops.toList.Perm c.program.entries) ∧
      (∀ id ∈ c.program.ids, s.machine.hops[id]? = none) ∧
      (∀ (id : NodeId) (distance : Nat), s.machine.hops[id]? = some distance →
        (s.machine.addHops c.hops).hops[id]? = some distance) ∧
      ∀ P ref m error?, s.Passes fuel mode source P → LooksUp P ref m error? →
        ∃ c ∈ calls, c.diagnostics = [] ∧ (∃ o ∈ c.program.occurrences, o.ref = ref) ∧
          m.hops[ref.id]? = c.hops[ref.id]? := by
  intro calls ids s c
  have hnext : s.nextId = numberAfter first earlier := Session.foldl_nextId _ _ _
  have hcalls : calls = compileAll first earlier ++ [c] := by
    rw [show c = compile source mode (numberAfter first earlier) by rw [← hnext]]
    exact compileAll_append first earlier _
  have hids : Fresh first c.nextId ids := by
    have hfresh := compileAll_fresh first (earlier ++ [⟨mode, source, true⟩])
    have hlast : numberAfter first (earlier ++ [⟨mode, source, true⟩]) = c.nextId := by
      rw [← Session.foldl_nextId fuel _ ⟨.start time, first⟩, List.foldl_append]
      exact Session.run_nextId fuel mode source s
    rwa [hlast] at hfresh
  obtain ⟨visited, known, hsound, hlearned⟩ := Session.foldl_sound fuel time first earlier
  have hown : ∀ id ∈ c.program.ids, s.machine.hops[id]? = none := fun id hid =>
    hsound.fresh id ((compile_fresh s.nextId source mode).range hid).1
  refine ⟨hcalls, hids.nodup, words_nodup hids, compileAll_hops _ _, hown, fun id distance hhops => ?_,
    fun P ref m error? hP hl => ?_⟩
  · have hother : c.hops[id]? = none := Program.hops_of_notMem _ fun hid => by
      rw [hown id hid] at hhops
      cases hhops
    rw [hops_addHops, hother, Option.none_or, hhops]
  · obtain ⟨begun, hpoint, _⟩ := (hsound.point fuel hP.1).reaches hP.2
    obtain ⟨hhops, o, ho, href, _⟩ := hl.occurrence hpoint
    obtain ⟨c', hc', hclean, hmem, hfound⟩ := hlearned.next (fun _ h => h) o ho
    refine ⟨c', hcalls ▸ hc', hclean, ⟨o, hmem, href⟩, ?_⟩
    rw [hhops, ← href]
    exact ((hsound.world fuel hP.1).found ho).hops.trans hfound.hops.symm

/-- A text whose function stays, and one that is not of the session. -/
def texts : List Input := [⟨.script, escaping, true⟩, ⟨.line, "b", false⟩]

def laterSession : Session := texts.foldl (Session.after 9) ⟨.start 0, 0⟩

/-- A later input calls the function, which finds its variable by the hops of the first text. -/
theorem hops_apart_escaped :
    ∃ P ref m error?, laterSession.Passes 9 .script "f();" P ∧ LooksUp P ref m error? ∧
      ∃ c ∈ compileAll 0 (texts ++ [⟨.script, "f();", true⟩]),
        (∃ o ∈ c.program.occurrences, o.ref = ref) ∧ c.hops[ref.id]? = some 1 := by
  have hnext : laterSession.nextId = 5 := by
    decide +kernel
  have hprogram : (compile "f();" .script laterSession.nextId).program = .statements
      [.expression (.call (.variable ⟨5, .synthetic .identifier "f" 1⟩)
        (.synthetic .rightParen ")" 1) [])] := by
    rw [hnext]
    cbv
  have hslot : laterSession.machine.heap.slot? 0 "f" = some (.assigned (.function escaped)) := by
    cbv
  have hbody : laterSession.Passes 9 .script "f();"
      (.stmts 5 escaped.function.body ((laterSession.entry "f();").enter escaped)) :=
    Session.passes_body (by decide +kernel) hprogram (by decide +kernel) hslot rfl
  have hpasses : laterSession.Passes 9 .script "f();"
      (.expr 3 (.variable ⟨0, .synthetic .identifier "a" 1⟩)
        ((laterSession.entry "f();").enter escaped)) :=
    ⟨hbody.1, hbody.2.trans (.head .firstStmt (.head .print .refl))⟩
  have hhops : ((laterSession.entry "f();").enter escaped).hops[0]? = some 1 := by
    decide +kernel
  obtain ⟨_, _, _, _, _, _, hlooks⟩ := hops_apart 9 0 0 texts .script "f();"
  obtain ⟨c, hc, _, hoccurs, hsame⟩ := hlooks _ _ _ _ hpasses .variable
  exact ⟨_, _, _, _, hpasses, .variable, c, hc, hoccurs, hsame.symm.trans hhops⟩

end Lox
