import Lox.Proofs.Relocation
import Lox.Proofs.Token.Joining

/-!
Two scripts with a line end between them compile to the program of the first and then that of the
second, which stands further down.
-/

namespace Lox

open Phrase

variable {source source' : String} {first : NodeId}

theorem compile_blankLines (k : Nat) (source : String) (mode : Mode) (first : NodeId) :
    (compile source mode first).Moved k 0 (compile (blankLines k ++ source) mode first) := by
  have hmoved := compileTokens_moved (tokensOf_scan_ne_nil source) (faultsOf (scan source)) mode first
    k 0
  rw [← tokensOf_down, ← faultsOf_down, ← scan_blankLines] at hmoved
  exact hmoved

/-- At top level no scope is open behind a statement either. -/
theorem stmts_scopes {body : List Stmt} (h : Stmt.ProperAll body) {r : Resolution}
    (hr : r.scopes = []) : (Resolution.stmts .topLevel body r).scopes = [] := by
  induction body generalizing r with
  | nil => exact hr
  | cons s rest ih =>
    have htracks : Tracks r [] := by
      show r.scopes.map _ = []
      rw [hr]
      rfl
    have hstep : Tracks (Resolution.stmt .topLevel s r) [] := by
      have hwalk := (Resolution.walk_stmt .topLevel s r h.1).2 [] htracks
      rwa [Layers.after_top] at hwalk
    exact ih h.2 (List.map_eq_nil_iff.1 hstep)

theorem stmts_append (s : Surroundings) (body body' : List Stmt) (r : Resolution) :
    Resolution.stmts s (body ++ body') r = Resolution.stmts s body' (Resolution.stmts s body r) := by
  induction body generalizing r with
  | nil => rfl
  | cons st rest ih => exact ih (Resolution.stmt s st r)

/-- The names of a script are resolved as if no script stood before it. -/
theorem resolve_append {body : List Stmt} (h : Stmt.ProperAll body)
    (hlog : (resolve (.statements body)).log = []) (body' : List Stmt) :
    (resolve (.statements (body ++ body'))).log = (resolve (.statements body')).log ∧
      ∀ id : NodeId, (resolve (.statements (body ++ body'))).hops[id]? =
        (resolve (.statements body')).hops[id]?.or (resolve (.statements body)).hops[id]? := by
  let r := resolve (.statements body)
  have happend : resolve (.statements (body ++ body')) = Resolution.stmts .topLevel body' r :=
    stmts_append .topLevel body body' .start
  have hstart : Resolution.Moved 0 0 (fun id => (r.hops[id]? : Option Nat)) [] .start r := by
    refine ⟨?_, fun id => rfl, hlog⟩
    rw [show r.scopes = [] from stmts_scopes h rfl]
    exact .nil
  have hmoved := hstart.stmts .topLevel body'
  have hsame : Stmt.relabelAll (Token.down 0) (· + 0) body' = body' := Stmt.relabelAll_id body'
  rw [hsame, ← happend] at hmoved
  refine ⟨?_, hmoved.hops⟩
  rw [hmoved.log, show Diagnostic.down 0 = id from rfl, List.map_id, List.append_nil]
  rfl

theorem script_clean (hc : (compile source .script first).diagnostics = []) :
    faultsOf (scan source) = [] ∧ (parse (tokensOf (scan source)) false first).diagnostics = [] ∧
      (resolve (parse (tokensOf (scan source)) false first).program).log = [] := compile_clean.1 hc

/-- No declaration begins with an `else`, which would belong to what stands before. -/
theorem script_head (hc : (compile source .script first).diagnostics = []) :
    ∀ t ∈ (wordsOf source).head?, t.kind ≠ .else := by
  obtain ⟨body, _, hphrase⟩ := parse_phrase (script_clean hc).2.1
  rw [tokensOf_scan, rest_ofTokens (wordsOf_endFree source) rfl] at hphrase
  generalize wordsOf source = words at hphrase ⊢
  intro t ht helse
  cases hphrase with
  | nil => cases ht
  | cons h hs =>
    have hstops := (declaration_stops h _).2 t ht
    simp [helse] at hstops

/-- Two scripts that are accepted are accepted together, and have together the programs and the hops
that they have one after the other. -/
theorem compile_joined (hc : (compile source .script first).diagnostics = [])
    (hc' : (compile source' .script 0).diagnostics = []) :
    let a := compile source .script first
    let b := compile (blankLines (linesBefore source) ++ source') .script a.nextId
    let joined := compile (source ++ "\n" ++ source') .script first
    joined.diagnostics = [] ∧ joined.nextId = b.nextId ∧
      (∃ body body', a.program = .statements body ∧ b.program = .statements body' ∧
        joined.program = .statements (body ++ body')) ∧
      ∀ id : NodeId, joined.hops[id]? = b.hops[id]?.or a.hops[id]? := by
  intro a b joined
  let k := linesBefore source
  obtain ⟨hfaults, hread, hlog⟩ := script_clean hc
  have hmoved : (compile source' .script a.nextId).Moved k 0 b :=
    compile_blankLines k source' .script a.nextId
  have hb : b.diagnostics = [] := by
    rw [hmoved.diagnostics, compile_diagnostics, hc']
    rfl
  -- What is read from the tokens of both.
  have hmark (source : String) : (endMark source).kind = .eof := rfl
  rw [tokensOf_scan] at hread
  obtain ⟨body, body', hbody, hbody', hjoin⟩ := parse_join (wordsOf_endFree source) (hmark source)
    (wordsOf_endFree source') (hmark source') k hread (script_head hc')
  rw [← tokensOf_scan] at hbody
  rw [← tokensOf_scan, ← tokensOf_scan, ← tokensOf_joint hfaults source'] at hjoin
  rw [← tokensOf_scan, ← tokensOf_scan] at hbody'
  let second := Stmt.relabelAll (Token.down k) id body'
  have ha : a.program = .statements body := hbody
  have hprogram : b.program = .statements second := by
    have hown : (compile source' .script a.nextId).program = .statements body' := hbody'
    rw [hmoved.program, hown]
    rfl
  -- What is resolved of it.
  have hproper : Stmt.ProperAll body := by
    have hproper := (compile_resolved hc).proper
    rwa [show (compile source .script first).program = _ from ha] at hproper
  obtain ⟨hlog', hhops⟩ := resolve_append hproper (ha ▸ hlog) second
  have hjoined : joined.program = .statements (body ++ second) := congrArg Parse.program hjoin
  refine ⟨?_, ?_, ⟨body, second, ha, hprogram, hjoined⟩, fun id => ?_⟩
  · have hfaults' := faultsOf_joint hfaults source'
    rw [(script_clean hc').1] at hfaults'
    have hreadJoined := congrArg Parse.diagnostics hjoin
    have hread' : (parse (tokensOf (scan source')) false a.nextId).diagnostics = [] :=
      (script_clean ((compile_diagnostics source' .script a.nextId).trans hc')).2.1
    have hlogJoined : (resolve joined.program).log = [] := by
      have hresolved : (resolve b.program).log = [] := (script_clean hb).2.2
      rw [hjoined, hlog', ← hprogram, hresolved]
    show faultsOf (scan (source ++ "\n" ++ source')) ++
      (parse (tokensOf (scan (source ++ "\n" ++ source'))) false first).diagnostics ++
      (resolve joined.program).log.reverse = []
    rw [hfaults', hreadJoined, hlogJoined]
    show [] ++ (parse (tokensOf (scan source')) false a.nextId).diagnostics.map (Diagnostic.down k) ++
      [] = []
    rw [hread']
    rfl
  · exact (congrArg Parse.nextId hjoin).trans hmoved.nextId.symm
  · have hsecond : b.hops = (resolve (.statements second)).hops := by rw [← hprogram]; rfl
    have hfirst : a.hops = (resolve (.statements body)).hops := by rw [← ha]; rfl
    have hboth : joined.hops = (resolve (.statements (body ++ second))).hops := by
      rw [← hjoined]
      rfl
    rw [hboth, hsecond, hfirst, hhops id]

end Lox
