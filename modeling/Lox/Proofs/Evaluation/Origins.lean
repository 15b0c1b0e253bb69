import Lox.Proofs.Evaluation.Faults
import Lox.Proofs.Evaluation.SessionLikeness
import Lox.Proofs.Token.Joining

/-!
Where the tokens of errors stand. The trees of inputs that run have no place that was reported, and an
error of a run is at a word of an input that has run.
-/

namespace Lox

open Run

/-- The words of a text are on lines from the first one on. -/
theorem wordsOf_line (source : String) : ∀ t ∈ wordsOf source, 1 ≤ t.line := by
  intro t ht
  apply (scan_lines source).1
  rw [tokensOf_scan]
  exact List.mem_append_left _ ht

theorem wordsOf_spelled (source : String) : ∀ t ∈ wordsOf source, t.Spelled := by
  intro t ht
  apply scan_spelled source
  rw [tokensOf_scan]
  exact List.mem_append_left _ ht

/-- In the tree of an input with no diagnostic nothing stands for a fault, and its tokens are words of
the input. -/
theorem compile_formed {source : String} {mode : Mode} {first : NodeId}
    (h : (compile source mode first).diagnostics = []) :
    ∀ q ∈ (compile source mode first).program.pieces, q.Formed (· ∈ wordsOf source) := by
  unfold compile compileTokens at h ⊢
  simp only [List.append_eq_nil_iff] at h ⊢
  obtain ⟨⟨_, hread⟩, _⟩ := h
  obtain ⟨ts, hts, hwhole⟩ := parse_whole hread
  refine hwhole.formed fun t ht => ?_
  have hmem := hts.subset ht
  rwa [tokensOf_scan, rest_ofTokens (wordsOf_endFree source) rfl] at hmem

theorem hereditary_formed (T : Token → Prop) : Hereditary (Piece.Formed T) := fun _ h => h.parts

theorem Program.point_from {P : Piece → Prop} (fuel : Nat) {p : Program} {m : Machine}
    (h : ∀ q ∈ p.pieces, P q) (hm : m.heap.From P) (hops : HopMap) :
    (p.point fuel (m.addHops hops)).start.heap.From P ∧ (p.point fuel (m.addHops hops)).From P := by
  cases p with
  | statements body => exact ⟨hm, List.forall_mem_map.1 h⟩
  | expression e => exact ⟨hm, h _ (List.mem_singleton_self _)⟩

namespace Session

/-- The text is one of the inputs that were run. -/
def Ran (fuel : Nat) : List (Mode × String) → Session → String → Prop
  | [], _, _ => False
  | (mode, source) :: rest, s, text =>
    (text = source ∧ (compile source mode s.nextId).diagnostics = []) ∨
      Ran fuel rest (s.run fuel mode source).2 text

variable {fuel : Nat} {T : Token → Prop} {s : Session}

theorem run_formed {mode : Mode} {source : String} (hs : s.machine.heap.From (Piece.Formed T))
    (hT : (compile source mode s.nextId).diagnostics = [] → ∀ t ∈ wordsOf source, T t) :
    (s.run fuel mode source).2.machine.heap.From (Piece.Formed T) := by
  by_cases hc : (compile source mode s.nextId).diagnostics = []
  · have hpieces : ∀ q ∈ (compile source mode s.nextId).program.pieces, q.Formed T :=
      fun q hq => (compile_formed hc q hq).mono (hT hc)
    have hkeeps := program_keeps (hereditary_formed T) fuel hpieces
      (s.machine.addHops (compile source mode s.nextId).hops) hs
    rw [run_accepted hc]
    exact hkeeps.machine.heap
  · rw [run_rejected hc]
    exact hs

/-- The functions that a session leaves are formed of the words of the inputs that it has run. -/
theorem runAll_formed : ∀ {s : Session} (inputs : List (Mode × String)),
    s.machine.heap.From (Piece.Formed T) →
    (∀ text, s.Ran fuel inputs text → ∀ t ∈ wordsOf text, T t) →
    (runAll fuel inputs s).2.machine.heap.From (Piece.Formed T)
  | _, [], hs, _ => hs
  | _, (_, source) :: rest, hs, hT =>
    runAll_formed rest (run_formed hs fun hc => hT source (.inl ⟨rfl, hc⟩))
      fun text htext => hT text (.inr htext)

/-- An error that a step reports is one of the program of its input. -/
theorem reported_eq {mode : Mode} {source : String} {e : RuntimeError}
    (he : e ∈ (s.run fuel mode source).1.reported) :
    (compile source mode s.nextId).diagnostics = [] ∧
      errorOf (Run.program fuel (compile source mode s.nextId).program
        (s.machine.addHops (compile source mode s.nextId).hops)) = some e := by
  by_cases hc : (compile source mode s.nextId).diagnostics = []
  · refine ⟨hc, ?_⟩
    cases hr : Run.program fuel (compile source mode s.nextId).program
        (s.machine.addHops (compile source mode s.nextId).hops) with
    | ok value m =>
      rw [run_finished hc hr] at he
      exact nomatch he
    | error halt m =>
      rw [run_halted hc hr] at he
      cases halt with
      | error e' =>
        obtain rfl := List.mem_singleton.1 he
        rfl
      | outOfFuel => exact nomatch he
  · rw [run_rejected hc] at he
    exact nomatch he

/-- An error of an input on a machine with such functions fits at a token that is such. -/
theorem Sound.reported_fits {visited : Point → Prop} {known : Occurrence → Prop} {mode : Mode}
    {source : String} {e : RuntimeError} (hs : s.Sound visited known)
    (hheap : s.machine.heap.From (Piece.Formed T)) (hT : ∀ t ∈ wordsOf source, T t)
    (he : e ∈ (s.run fuel mode source).1.reported) : e.Fits ∧ T e.token := by
  obtain ⟨hc, herror⟩ := reported_eq he
  obtain ⟨Q, hreaches, hraises⟩ := program_raised herror
  obtain ⟨begun, hQ, _⟩ := (hs.point fuel hc).reaches hreaches
  have hpieces : ∀ q ∈ (compile source mode s.nextId).program.pieces, q.Formed T :=
    fun q hq => (compile_formed hc q hq).mono hT
  obtain ⟨hstart, hpoint⟩ := Program.point_from fuel hpieces hheap (compile source mode s.nextId).hops
  exact hraises.fits hQ (hreaches.from (hereditary_formed T) hstart hpoint).2

end Session

/-- A function whose body fails. -/
def negating : String := "fun f()\x7breturn -nil;\x7d"

end Lox
