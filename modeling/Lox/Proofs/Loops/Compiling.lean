import Lox.Proofs.Compilation
import Lox.Proofs.Loops.Hops
import Lox.Proofs.Loops.Reporting

/-!
An input whose program is replaced before its names are resolved. With increments in loop bodies the
same is reported of it, and each occurrence is found by a detour.
-/

namespace Lox

/-- Compiles an input with another program in place of the one that is read from it. -/
def compileAs (p : Program) (source : String) (mode : Mode) (nextId : NodeId) : Compilation :=
  let items := scan source
  let read := parse (tokensOf items) (mode == .line) nextId
  let resolved := resolve p
  { program := p
    hops := resolved.hops
    diagnostics := faultsOf items ++ read.diagnostics ++ resolved.log.reverse
    nextId := read.nextId }

section Inputs

variable {source : String} {mode : Mode} {first : NodeId} {p : Program}

/-- An input that keeps its program is compiled as it is. -/
theorem compileAs_self : compileAs (compile source mode first).program source mode first =
    compile source mode first := rfl

variable (h : (compile source mode first).program.Inlines p)
include h

theorem compileAs_diagnostics :
    (compileAs p source mode first).diagnostics = (compile source mode first).diagnostics :=
  congrArg (faultsOf (scan source) ++ _ ++ List.reverse ·) (log_inlined h)

theorem compileAs_resolved (hc : (compile source mode first).diagnostics = []) :
    (compileAs p source mode first).Resolved first := by
  have hresolved := compile_resolved hc
  obtain ⟨_, hfresh⟩ := parse_numbers (tokensOf (scan source)) (mode == .line) first
  have hp : p.Proper := h.proper hresolved.proper
  have hids : p.ids = (compile source mode first).program.ids := h.ids
  have hlog : (resolve p).log = [] := (log_inlined h).trans (compile_clean.1 hc).2.2
  have hrange {id : NodeId} (hid : id ∈ p.ids) :
      first ≤ id ∧ id < (compile source mode first).nextId := hfresh.range (hids ▸ hid)
  refine ⟨hp, resolve_found hp (hids ▸ hfresh.nodup) hlog, fun o ho => ?_, fun id hid => ?_⟩
  · exact hrange (p.map_occurrences ▸ List.mem_map_of_mem (f := Occurrence.id) ho)
  · exact resolve_other hp fun hmem => hid (hrange hmem)

end Inputs

namespace Detour

variable {d : Detour} {a b : Compilation}

/-- The numbers from the first unused one on have no hops yet. -/
structure Fresh (d : Detour) : Prop where
  direct : ∀ id, d.next ≤ id → d.direct id = none
  around : ∀ id, d.next ≤ id → d.around id = none

/-- Nothing has been compiled yet. -/
def start : Detour := ⟨fun _ => none, fun _ => none, 0⟩

theorem start_fresh : Fresh start := ⟨fun _ _ => rfl, fun _ _ => rfl⟩

/-- The hops of one more input, which is compiled with either program. -/
def after (d : Detour) (a b : Compilation) : Detour where
  direct id := a.hops[id]?.or (d.direct id)
  around id := b.hops[id]?.or (d.around id)
  next := a.nextId

section After

variable (ha : a.Resolved d.next) (hb : b.Resolved d.next)
include ha hb

theorem le_after (hle : d.next ≤ a.nextId) : d.Le (d.after a b) := by
  refine ⟨hle, fun id hid => ?_, fun id hid => ?_⟩
  · show a.hops[id]?.or (d.direct id) = d.direct id
    rw [ha.other id fun hrange => Nat.not_le.2 hid hrange.1, Option.none_or]
  · show b.hops[id]?.or (d.around id) = d.around id
    rw [hb.other id fun hrange => Nat.not_le.2 hid hrange.1, Option.none_or]

variable (hd : d.Fresh)
include hd

theorem Fresh.after (hle : d.next ≤ a.nextId) (hnext : b.nextId = a.nextId) :
    (d.after a b).Fresh := by
  constructor
  · intro id hid
    show a.hops[id]?.or (d.direct id) = none
    rw [ha.other id fun hrange => Nat.not_lt.2 hid hrange.2, hd.direct id (Nat.le_trans hle hid)]
    rfl
  · intro id hid
    show b.hops[id]?.or (d.around id) = none
    rw [hb.other id fun hrange => Nat.not_lt.2 (hnext ▸ hid) hrange.2,
      hd.around id (Nat.le_trans hle hid)]
    rfl

/-- The occurrences of the new input are found by the detour. -/
theorem leads_after (h : a.program.Inlines b.program) :
    a.program.Inlined (d.after a b).Leads b.program := by
  have hfound : ∀ o ∈ a.program.occurrences, o.Found a.hops ∧ d.next ≤ o.id ∧ o.id < a.nextId :=
    fun o ho => ⟨ha.found o ho, ha.own o ho⟩
  refine h.traced (fun K Γ Γ' role ref hΓ ho ho' => ?_) ha.proper hfound hb.found
  obtain ⟨ho, hown⟩ := ho
  refine ho.leads hΓ ho' hown.2 ?_ ?_
  · show a.hops[ref.id]?.or (d.direct ref.id) = a.hops[ref.id]?
    rw [hd.direct ref.id hown.1, Option.or_none]
  · show b.hops[ref.id]?.or (d.around ref.id) = b.hops[ref.id]?
    rw [hd.around ref.id hown.1, Option.or_none]

end After

end Detour

end Lox
