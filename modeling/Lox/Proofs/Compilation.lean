import Lox.Compilation
import Lox.Proofs.Scope.Resolving
import Lox.Proofs.Syntax.Numbering
import Lox.Proofs.Syntax.Parsing
import Lox.Proofs.Token.Spelling

/-!
What is known of an input in which there is nothing to report.
-/

namespace Lox

theorem Whole.proper {ts : List Token} (hts : ∀ t ∈ ts, t.Spelled) :
    ∀ {p : Program}, Whole ts p → p.Proper
  | .statements _, h => Phrase.Declarations.proper h hts
  | .expression _, h => Phrase.Series.proper h hts

/-- The hops of a compilation are right, and they and the numbers of its occurrences are its own. -/
structure Compilation.Resolved (c : Compilation) (first : NodeId) : Prop where
  proper : c.program.Proper
  found : ∀ o ∈ c.program.occurrences, o.Found c.hops
  own : ∀ o ∈ c.program.occurrences, first ≤ o.id ∧ o.id < c.nextId
  other : ∀ id, ¬ (first ≤ id ∧ id < c.nextId) → c.hops[id]? = none

theorem compile_nextId (source : String) (mode : Mode) (first : NodeId) :
    first ≤ (compile source mode first).nextId :=
  (parse_numbers (tokensOf (scan source)) (mode == .line) first).1

/-- An input is accepted if no pass reports anything. -/
theorem compile_clean {source : String} {mode : Mode} {first : NodeId} :
    (compile source mode first).diagnostics = [] ↔ faultsOf (scan source) = [] ∧
      (parse (tokensOf (scan source)) (mode == .line) first).diagnostics = [] ∧
      (resolve (compile source mode first).program).log = [] := by
  unfold compile compileTokens
  simp only [List.append_eq_nil_iff, List.reverse_eq_nil_iff, and_assoc]

theorem compile_resolved {source : String} {mode : Mode} {first : NodeId}
    (h : (compile source mode first).diagnostics = []) :
    (compile source mode first).Resolved first := by
  obtain ⟨_, hread, hlog⟩ := compile_clean.1 h
  obtain ⟨_, hfresh⟩ := parse_numbers (tokensOf (scan source)) (mode == .line) first
  obtain ⟨ts, hts, hwhole⟩ := parse_whole hread
  have hp := Whole.proper (fun t ht =>
    scan_spelled source t (rest_ofTokens_subset _ _ (hts.subset ht))) hwhole
  have hids (o : Occurrence) (ho : o ∈ Program.occurrences _) :=
    hfresh.range (Program.map_occurrences _ ▸ List.mem_map_of_mem (f := Occurrence.id) ho)
  exact ⟨hp, resolve_found hp hfresh.nodup hlog, hids,
    fun id hid => resolve_other hp fun hmem => hid (hfresh.range hmem)⟩

end Lox
