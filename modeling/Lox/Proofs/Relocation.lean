import Lox.Proofs.Compilation
import Lox.Proofs.Scope.Moving
import Lox.Proofs.Syntax.Locality

/-!
A text compiles to the same program wherever it stands, except for its lines and the numbers of its
occurrences.
-/

namespace Lox

/-- The compilation of a text that stands `k` lines further down, with `j` more numbers used before. -/
structure Compilation.Moved (k j : Nat) (c c' : Compilation) : Prop where
  program : c'.program = c.program.relabel (Token.down k) (· + j)
  hops : ∀ id, c'.hops[id + j]? = c.hops[id]?
  diagnostics : c'.diagnostics = c.diagnostics.map (Diagnostic.down k)
  nextId : c'.nextId = c.nextId + j

theorem resolve_moved (k j : Nat) (p : Program) :
    Resolution.Moved k j (fun _ => none) [] (resolve p)
      (resolve (p.relabel (Token.down k) (· + j))) := by
  have hstart : Resolution.Moved k j (fun _ => none) [] .start .start :=
    ⟨.nil, fun _ => rfl, rfl⟩
  cases p with
  | statements body => exact hstart.stmts .topLevel body
  | expression e => exact hstart.expr .topLevel e

theorem compileTokens_moved {tokens : List Token} (h : tokens ≠ []) (found : List Diagnostic)
    (mode : Mode) (nextId : NodeId) (k j : Nat) :
    (compileTokens found tokens mode nextId).Moved k j
      (compileTokens (found.map (Diagnostic.down k)) (tokens.map (Token.down k)) mode
        (nextId + j)) := by
  have hread := parse_moved h k j (mode == .line) nextId
  have hresolved := resolve_moved k j (parse tokens (mode == .line) nextId).program
  have hlog := hresolved.log
  unfold compileTokens
  rw [hread]
  constructor
  · rfl
  · intro id
    rw [hresolved.hops id, Option.or_none]
  · simp only [hlog, List.append_nil, List.map_append, List.map_reverse]
  · rfl

theorem tokensOf_scan_ne_nil (source : String) : tokensOf (scan source) ≠ [] := by
  have hitems (ss : List Span) (line : Nat) : tokensOf (itemsFrom line ss) ≠ [] := by
    induction ss generalizing line with
    | nil => simp [itemsFrom, tokensOf, ScanItem.token?]
    | cons s ss ih =>
      intro h
      unfold itemsFrom tokensOf at h
      rw [List.filterMap_append] at h
      exact ih _ (List.append_eq_nil_iff.1 h).2
  exact hitems _ _

/-- Numbers that were used before only shift those of the text. -/
theorem compile_renumbered (source : String) (mode : Mode) (nextId j : Nat) :
    (compile source mode nextId).Moved 0 j (compile source mode (nextId + j)) := by
  have hmoved := compileTokens_moved (tokensOf_scan_ne_nil source) (faultsOf (scan source)) mode
    nextId 0 j
  rw [Token.down_zero_eq_id, List.map_id, show Diagnostic.down 0 = id from rfl, List.map_id] at hmoved
  exact hmoved

/-- What is wrong with a text does not depend on the numbers used before. -/
theorem compile_diagnostics (source : String) (mode : Mode) (nextId : NodeId) :
    (compile source mode nextId).diagnostics = (compile source mode 0).diagnostics := by
  have hmoved := (compile_renumbered source mode 0 nextId).diagnostics
  rw [Nat.zero_add, show Diagnostic.down 0 = id from rfl, List.map_id] at hmoved
  exact hmoved

end Lox
