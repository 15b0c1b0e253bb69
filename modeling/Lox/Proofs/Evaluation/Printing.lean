import Lox.Proofs.Evaluation.Sequence
import Lox.Proofs.Syntax.Printing
import Lox.Proofs.Token.Writing

/-!
An expression that is a line by itself does what a print statement does that is a script. The passes
take them in by different entries, but find the same expression with the same hops in both.
-/

namespace Lox

open Run

/-- The print statement of an expression. Its semicolon stands on a line of its own, where no comment
of the expression reaches it. -/
def printing (source : String) : String := "print " ++ source ++ "\n;"

section Tokens

variable (source : String)

def printKeyword : Token := ⟨.print, "print", none, 1⟩

theorem scan_print : scan ("print " ++ source) = .token printKeyword :: scan source := by
  have hwritten : ∀ t ∈ [printKeyword], t.Written :=
    List.forall_mem_cons.2 ⟨.keyword (by decide), List.forall_mem_nil _⟩
  have hblank : Tiles (' ' :: source.toList) (⟨.blank, [' ']⟩ :: spans source.toList) :=
    Tiles.cons (s := ⟨.blank, [' ']⟩) (.blank rfl) (tiles_iff.2 rfl)
  have htiles := tiles_spaced hwritten hblank fun c hc => (Option.some.inj hc).symm
  have htext : ("print " ++ source).toList = "print".toList ++ ' ' :: source.toList :=
    String.toList_append
  have hspans : spans ("print".toList ++ ' ' :: source.toList) = _ := tiles_iff.1 htiles
  unfold scan
  rw [htext, hspans]
  show itemsFrom 1 (printKeyword.span :: ⟨.blank, [' ']⟩ :: spans source.toList) = _
  rw [itemsFrom_word, itemsFrom_space]
  rfl

theorem scan_semicolon : scan ";" =
    [.token ⟨.semicolon, ";", none, 1⟩, .token (.synthetic .eof "" 1)] := by
  have hwritten : ∀ t ∈ [(⟨.semicolon, ";", none, 0⟩ : Token)], t.Written :=
    List.forall_mem_cons.2 ⟨.operator (by decide), List.forall_mem_nil _⟩
  exact scan_of_spaced hwritten (.inl rfl) rfl 0

theorem printing_eq : printing source = "print " ++ source ++ "\n" ++ ";" := by
  unfold printing
  rw [@String.append_assoc _ "\n"]
  rfl

/-- Its tokens are those of the expression between the keyword and the semicolon. -/
theorem printing_tokens (h : faultsOf (scan source) = []) :
    faultsOf (scan (printing source)) = [] ∧
      ∃ semicolon mark : Token, semicolon.kind = .semicolon ∧ mark.kind = .eof ∧
        tokensOf (scan (printing source)) = printKeyword :: wordsOf source ++ [semicolon, mark] := by
  have hfaults : faultsOf (scan ("print " ++ source)) = [] := by
    rw [scan_print]
    exact h
  have hwords : wordsOf ("print " ++ source) = printKeyword :: wordsOf source := by
    have htokens : tokensOf (scan ("print " ++ source)) = printKeyword :: tokensOf (scan source) := by
      rw [scan_print]
      rfl
    rw [tokensOf_scan, tokensOf_scan, ← List.cons_append] at htokens
    exact (List.append_inj' htokens rfl).1
  rw [printing_eq, faultsOf_joint hfaults, tokensOf_joint hfaults, scan_semicolon, hwords]
  exact ⟨rfl, _, _, rfl, rfl, rfl⟩

end Tokens

section Compiled

variable {source : String} {first : NodeId} {e : Expr}

/-- The print statement of an expression that is accepted is accepted. It has the same occurrences
with the same hops. -/
theorem compile_printing (hc : (compile source .line first).diagnostics = [])
    (he : (compile source .line first).program = .expression e) :
    compile (printing source) .script first =
      { compile source .line first with program := .statements [.print e] } := by
  obtain ⟨hfaults, hread, hlog⟩ := compile_clean.1 hc
  obtain ⟨hfaults', semicolon, mark, hs, hm, htokens⟩ := printing_tokens source hfaults
  have hparse : parse (wordsOf source ++ [endMark source]) true first =
      ⟨.expression e, [], (compile source .line first).nextId⟩ := by
    rw [← tokensOf_scan]
    exact congrArg₂ (fun p d => Parse.mk p d (compile source .line first).nextId) he hread
  have hprint := parse_print (wordsOf_endFree source) (rfl : (endMark source).kind = .eof) hm
    (rfl : printKeyword.kind = .print) hs hparse
  have hhops : (compile source .line first).hops = (resolve (.expression e)).hops := by
    rw [← he]
    rfl
  have hlog' : (resolve (.expression e)).log = [] := by
    rw [← he]
    exact hlog
  show _ = Compilation.mk _ _ (compile source .line first).diagnostics _
  rw [hc, hhops]
  show compileTokens (faultsOf (scan (printing source))) (tokensOf (scan (printing source))) .script
    first = _
  rw [hfaults', htokens]
  unfold compileTokens
  rw [show (Mode.script == Mode.line) = false from rfl, hprint]
  show Compilation.mk _ _ ([] ++ [] ++ (resolve (.expression e)).log.reverse) _ = _
  rw [hlog']
  rfl

end Compiled

/-- The statement ends as the expression does, but has no value. -/
theorem program_print (fuel : Nat) (e : Expr) (m : Machine) :
    Run.program (fuel + 1) (.statements [.print e]) m =
      (Run.program fuel (.expression e) >>= fun _ => pure none) m := by
  cases he : eval fuel e m with
  | ok v m' =>
    let shown : Machine := { m' with printed := v.text :: m'.printed }
    have hprint : print v m' = .ok () shown := rfl
    have hbare : Run.program fuel (.expression e) m = .ok (some v) shown :=
      (bind_of_ok he).trans (bind_of_ok hprint)
    have hstatement : exec (fuel + 1) (.print e) m = .ok .normal shown := by
      rw [exec]
      exact (bind_of_ok he).trans (bind_of_ok hprint)
    have heach : execEach (fuel + 1) [.print e] m = .ok () shown := bind_of_ok hstatement
    rw [bind_of_ok hbare]
    exact bind_of_ok heach
  | error halt m' =>
    have hbare : Run.program fuel (.expression e) m = .error halt m' := bind_of_error he
    have hstatement : exec (fuel + 1) (.print e) m = .error halt m' := by
      rw [exec]
      exact bind_of_error he
    have heach : execEach (fuel + 1) [.print e] m = .error halt m' := bind_of_error hstatement
    rw [bind_of_error hbare]
    exact bind_of_error heach

/-- The ending without the value, if there is one. -/
def Ending.unvalued : Ending → Ending
  | .finished _ => .finished none
  | ending => ending

/-- Without values and on the same lines, endings that are alike are the same. -/
theorem Ending.Alike.unvalued_eq {R : Lambda → Lambda → Prop} {ending ending' : Ending}
    (h : Ending.Alike (· = 0) R ending.unvalued ending') : ending' = ending.unvalued := by
  cases ending with
  | finished => exact h.of_finished_none
  | rejected => nomatch h
  | failed e =>
    obtain ⟨k, rfl, hfailed⟩ := h.of_failed
    exact hfailed
  | outOfFuel => exact h.of_outOfFuel

section Steps

variable {source : String} {e : Expr}

/-- The print statement leaves the session as the expression does, and shows the same. -/
theorem run_printing_eq {s : Session} (hc : (compile source .line s.nextId).diagnostics = [])
    (he : (compile source .line s.nextId).program = .expression e) (fuel : Nat) :
    s.run (fuel + 1) .script (printing source) =
      (⟨(s.run fuel .line source).1.printed, (s.run fuel .line source).1.ending.unvalued⟩,
        (s.run fuel .line source).2) := by
  have hcompiled := compile_printing hc he
  have hc' : (compile (printing source) .script s.nextId).diagnostics = [] := by
    rw [hcompiled]
    exact hc
  have hprogram (m : Machine) :
      Run.program (fuel + 1) (compile (printing source) .script s.nextId).program m =
        (Run.program fuel (compile source .line s.nextId).program >>= fun _ => pure none) m := by
    rw [hcompiled, he]
    exact program_print fuel e m
  have hhops : (compile (printing source) .script s.nextId).hops =
      (compile source .line s.nextId).hops := by rw [hcompiled]
  have hnext : (compile (printing source) .script s.nextId).nextId =
      (compile source .line s.nextId).nextId := by rw [hcompiled]
  cases hr : Run.program fuel (compile source .line s.nextId).program
      (s.machine.addHops (compile source .line s.nextId).hops) with
  | ok v m =>
    rw [run_finished hc hr, run_finished hc' (by rw [hprogram, hhops, bind_of_ok hr]; rfl), hnext]
    rfl
  | error halt m =>
    rw [run_halted hc hr, run_halted hc' (by rw [hprogram, hhops, bind_of_error hr]), hnext]
    cases halt <;> rfl

/-- An expression has a value, unless it fails. -/
theorem bare_ending {s : Session} (hc : (compile source .line s.nextId).diagnostics = [])
    (he : (compile source .line s.nextId).program = .expression e) (fuel : Nat) :
    (∃ v, (s.run fuel .line source).1.ending = .finished (some v)) ∨
      (∃ err, (s.run fuel .line source).1.ending = .failed err) ∨
      (s.run fuel .line source).1.ending = .outOfFuel := by
  cases hr : Run.program fuel (compile source .line s.nextId).program
      (s.machine.addHops (compile source .line s.nextId).hops) with
  | ok value m =>
    left
    rw [run_finished hc hr]
    rw [he] at hr
    obtain ⟨v, _, _, hvalue⟩ := bind_eq_ok hr
    obtain ⟨_, _, _, hvalue⟩ := bind_eq_ok hvalue
    cases hvalue
    exact ⟨v, rfl⟩
  | error halt m =>
    right
    rw [run_halted hc hr]
    cases halt with
    | error err => exact .inl ⟨err, rfl⟩
    | outOfFuel => exact .inr rfl

/-- Wherever the numbers of the occurrences start, a bare expression is one. -/
theorem bare_expression (hc : (compile source .line 0).diagnostics = [])
    (he : (compile source .line 0).program = .expression e) (first : NodeId) :
    (compile source .line first).diagnostics = [] ∧
      (compile source .line first).program =
        .expression (e.relabel (Token.down 0) (· + first)) := by
  have hmoved : (compile source .line 0).Moved 0 first (compile source .line first) := by
    have hmoved := compile_renumbered source .line 0 first
    rwa [Nat.zero_add] at hmoved
  refine ⟨(compile_diagnostics source .line first).trans hc, ?_⟩
  rw [hmoved.program, he]
  rfl

/-- In every session a bare expression prints what its print statement prints, and leaves the session
in the same state. Both finish or both report the same error, and only that one. It does not matter
whether the statement has greater numbers for its occurrences. -/
theorem run_printing (hc : (compile source .line 0).diagnostics = [])
    (he : (compile source .line 0).program = .expression e) (s : Session) (fuel : Nat) :
    let bare := s.run fuel .line source
    let printed := s.run (fuel + 1) .script (printing source)
    printed.1.printed = bare.1.printed ∧ printed.2 = bare.2 ∧
      ((∃ v, bare.1.ending = .finished (some v) ∧ printed.1.ending = .finished none) ∨
        (∃ err, bare.1.ending = .failed err ∧ printed.1.ending = .failed err ∧
          bare.1.reported = [err] ∧ printed.1.reported = [err]) ∨
        (bare.1.ending = .outOfFuel ∧ printed.1.ending = .outOfFuel)) ∧
      (s.Reachable → ∀ n, s.nextId ≤ n →
        let later := Session.run (fuel + 1) .script (printing source) { s with nextId := n }
        later.1 = printed.1 ∧ bare.2.machine.heap.Alike Lambda.Relocated later.2.machine.heap ∧
          later.2.machine.environment = bare.2.machine.environment) := by
  intro bare printed
  obtain ⟨hcs, hes⟩ := bare_expression hc he s.nextId
  have hprinted : printed = (⟨bare.1.printed, bare.1.ending.unvalued⟩, bare.2) :=
    run_printing_eq hcs hes fuel
  rw [hprinted]
  refine ⟨rfl, rfl, ?_, fun hs n hn => ?_⟩
  · rcases bare_ending hcs hes fuel with ⟨v, hv⟩ | ⟨err, herr⟩ | hout
    · left
      rw [show bare.1.ending = _ from hv]
      exact ⟨v, rfl, rfl⟩
    · right; left
      have hreported : bare.1.reported = [err] := by
        unfold Step.reported
        rw [show bare.1.ending = _ from herr]
      rw [show bare.1.ending = _ from herr]
      exact ⟨err, rfl, rfl, hreported, rfl⟩
    · right; right
      rw [show bare.1.ending = _ from hout]
      exact ⟨rfl, rfl⟩
  · have hc' : (compile (printing source) .script 0).diagnostics = [] := by
      rw [compile_printing hc he]
      exact hc
    intro later
    have hskip : s.Alike { s with nextId := n } := hs.alike.skip (Nat.le_refl s.nextId) hn hn
    obtain ⟨hstep, hsession⟩ : Step.Alike (· = 0) _ printed.1 later.1 ∧ printed.2.Alike later.2 :=
      hskip.accepted (fuel + 1) hc'
    rw [hprinted] at hstep hsession
    refine ⟨?_, hsession.machine.heap.mono Comparison.Code.relocated, hsession.machine.environment⟩
    exact congrArg₂ Step.mk hstep.printed hstep.ending.unvalued_eq

end Steps

/-- A series with an assignment, and a comment that takes in the end of its line. -/
def negation : String := "a=nil,!a//;"

/-- The value is printed once, and the assignment is made in both. -/
theorem run_printing_negation :
    let bare := assignedSession.run 9 .line negation
    let printed := assignedSession.run 10 .script (printing negation)
    (compile negation .line 0).diagnostics = [] ∧ printed.1.printed = ["true"] ∧
      printed.1.ending = .finished none ∧ printed.2 = bare.2 := by
  have hc : (compile negation .line 0).diagnostics = [] := by
    decide +kernel
  obtain ⟨e, he⟩ : ∃ e, (compile negation .line 0).program = .expression e := ⟨_, by cbv⟩
  obtain ⟨hprinted, hsession, hending, -⟩ := run_printing hc he assignedSession 9
  have hbare : (assignedSession.run 9 .line negation).1.printed = ["true"] := by
    cbv
  have hvalue : (assignedSession.run 9 .line negation).1.ending =
      .finished (some (.boolean true)) := by
    cbv
  refine ⟨hc, hprinted.trans hbare, ?_, hsession⟩
  rw [hvalue] at hending
  rcases hending with ⟨_, _, hnone⟩ | ⟨_, hfailed, _⟩ | ⟨hout, _⟩
  · exact hnone
  · cases hfailed
  · cases hout

end Lox
