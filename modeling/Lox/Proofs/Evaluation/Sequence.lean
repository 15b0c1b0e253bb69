import Mathlib
import Lox.Proofs.Evaluation.SessionLikeness
import Lox.Proofs.Joining
import Lox.Proofs.Syntax.RoundTrip

/-!
Two scripts that run one after the other in a session do what they do together as one script.
-/

namespace Lox

open Run

/-- The same function but for its lines and the numbers of its occurrences. -/
def Lambda.Relocated (f f' : Lambda) : Prop := f'.plain = f.plain

theorem Comparison.Code.relocated {c : Comparison} (f f' : Lambda) (h : c.Code f f') :
    f.Relocated f' := by
  obtain ⟨k, j, _, _, rfl⟩ := h
  exact Lambda.relabel_relabel _ _ _ _ f

section Bodies

variable {fuel : Nat} {body body' : List Stmt} {m m' : Machine}

theorem execEach_append_ok (h : execEach fuel body m = .ok () m') :
    execEach fuel (body ++ body') m = execEach fuel body' m' := by
  induction body generalizing m with
  | nil =>
    cases h
    rfl
  | cons s rest ih =>
    obtain ⟨r, n, hs, hrest⟩ := bind_eq_ok h
    exact (bind_of_ok hs).trans (ih hrest)

theorem execEach_append_error {halt : Halt} (h : execEach fuel body m = .error halt m') :
    execEach fuel (body ++ body') m = .error halt m' := by
  induction body generalizing m with
  | nil => cases h
  | cons s rest ih =>
    have hcons (rest : List Stmt) : execEach fuel (s :: rest) m =
        (exec fuel s >>= fun _ => execEach fuel rest) m := rfl
    rw [hcons] at h
    rw [List.cons_append, hcons]
    cases hs : exec fuel s m with
    | ok r n =>
      rw [bind_of_ok hs] at h ⊢
      exact ih h
    | error e n =>
      rw [bind_of_error hs] at h ⊢
      exact h

end Bodies

/-- Nothing is reported of a script with empty lines before it either, wherever its numbers start. -/
theorem blankLines_clean {source : String} (hc : (compile source .script 0).diagnostics = [])
    (k : Nat) (first : NodeId) : (compile (blankLines k ++ source) .script first).diagnostics = [] := by
  rw [(compile_blankLines k source .script first).diagnostics, compile_diagnostics, hc]
  rfl

section Lowered

variable {s : Session} {source : String}

/-- Empty lines before a script change nothing but the line of its error. -/
theorem Session.Alike.lowered (h : s.Alike s) (hc : (compile source .script 0).diagnostics = [])
    (fuel k : Nat) :
    (s.run fuel .script source).1.Alike (fun l => l = 0 ∨ l = k) Lambda.Relocated
      (s.run fuel .script (blankLines k ++ source)).1 := by
  let a := compile source .script s.nextId
  let b := compile (blankLines k ++ source) .script s.nextId
  have hmoved : a.Moved k 0 b := compile_blankLines k source .script s.nextId
  have hca : a.diagnostics = [] := (compile_diagnostics source .script s.nextId).trans hc
  have hcb : b.diagnostics = [] := blankLines_clean hc k s.nextId
  have ha : a.Owns (s.against s).next := compile_owns hca
  have hb : b.Owns (s.against s).next' := compile_owns hcb
  let c := (s.against s).after (fun l => l = 0 ∨ l = k) (.inl rfl) a b
  have hle : (s.against s).Le c := Comparison.le_after ha hb fun _ => .inl
  have hmachine : (s.machine.addHops a.hops).Alike c (s.machine.addHops b.hops) :=
    ⟨h.machine.heap.mono (Comparison.Code.mono hle), h.machine.environment,
      hops_addHops s.machine a.hops, hops_addHops s.machine b.hops, h.machine.printed,
      h.machine.time⟩
  have hplaces : c.Places 0 a.program.ids := h.fresh.places ha rfl hmoved
  have hends := @program_agrees c k 0 fuel (.inr rfl) a.program hplaces _ _ hmachine
  rw [← hmoved.program] at hends
  obtain ⟨hprinted, hending, -⟩ := run_alike hca hcb hends
  exact ⟨hprinted, hending.mono Comparison.Code.relocated⟩

end Lowered

/-- What two runs are compared by of which the second one has the code of a later script already. -/
def Session.joint (s : Session) (a joined : Compilation) : Comparison :=
  { s.against s with
    hops := fun id => a.hops[id]?.or s.machine.hops[id]?
    hops' := fun id => joined.hops[id]?.or s.machine.hops[id]?
    next := a.nextId
    next' := a.nextId }

section Joint

variable {s : Session} {a b joined : Compilation}

/-- The first script is at the same place in both runs. -/
theorem Session.Alike.joint (h : s.Alike s) (ha : a.Owns s.nextId) (hb : b.Owns a.nextId)
    (hhops : ∀ id : NodeId, joined.hops[id]? = b.hops[id]?.or a.hops[id]?) :
    (s.machine.addHops a.hops).Alike (s.joint a joined) (s.machine.addHops joined.hops) ∧
      (s.joint a joined).Places 0 a.program.ids := by
  have hbefore {id : NodeId} (hid : id < a.nextId) : joined.hops[id]? = a.hops[id]? := by
    rw [hhops, hb.other id fun hrange => Nat.not_le.2 hid hrange.1, Option.none_or]
  have hold {id : NodeId} (hid : id < s.nextId) : a.hops[id]? = none :=
    ha.other id fun hrange => Nat.not_le.2 hid hrange.1
  have hle : (s.against s).Le (s.joint a joined) := by
    refine ⟨fun _ hk => hk, ha.next, ha.next, fun id hid => ?_, fun id hid => ?_⟩
    · show a.hops[id]?.or s.machine.hops[id]? = s.machine.hops[id]?
      rw [hold hid, Option.none_or]
    · show joined.hops[id]?.or s.machine.hops[id]? = s.machine.hops[id]?
      rw [hbefore (Nat.lt_of_lt_of_le hid ha.next), hold hid, Option.none_or]
  refine ⟨⟨h.machine.heap.mono (Comparison.Code.mono hle), h.machine.environment,
    hops_addHops s.machine a.hops, hops_addHops s.machine joined.hops, h.machine.printed,
    h.machine.time⟩, fun id hid => ?_⟩
  have hlt := (ha.ids id hid).2
  refine ⟨hlt, hlt, ?_⟩
  show joined.hops[id + 0]?.or _ = a.hops[id]?.or _
  rw [Nat.add_zero, hbefore hlt]

/-- What the runs are compared by when the first script has run. `d` is the second one, which stands
`l` lines further up than in the joined script. -/
def Comparison.continued (c : Comparison) (l : Nat) (d : Compilation) (printed : List String) :
    Comparison where
  lines k := k = 0 ∨ k = l
  unmoved := .inl rfl
  hops id := d.hops[id]?.or (c.hops id)
  hops' := c.hops'
  next := d.nextId
  next' := d.nextId
  before := printed

/-- The second script starts with nothing printed where the joined script goes on. -/
theorem Machine.Alike.continued {m m' : Machine} {d : Compilation} {l : Nat}
    (hm : m.Alike (s.joint a joined) m')
    (hhops : ∀ id : NodeId, joined.hops[id]? = b.hops[id]?.or a.hops[id]?)
    (hd : d.Owns a.nextId) (hmoved : d.Moved l 0 b) :
    let c := (s.joint a joined).continued l d m.printed
    (Machine.addHops { m with printed := [] } d.hops).Alike c m' ∧ c.Places 0 d.program.ids := by
  intro c
  have hle : (s.joint a joined).Le c := by
    refine ⟨fun _ => .inl, hd.next, hd.next, fun id hid => ?_, fun _ _ => rfl⟩
    show d.hops[id]?.or _ = (s.joint a joined).hops id
    rw [hd.other id fun hrange => Nat.not_le.2 hid hrange.1, Option.none_or]
  have hprinted : m'.printed = [] ++ m.printed := by
    rw [hm.printed]
    exact List.append_nil _
  refine ⟨⟨hm.heap.mono (Comparison.Code.mono hle), hm.environment, fun id => ?_, hm.hops', hprinted,
    hm.time⟩, fun id hid => ?_⟩
  · rw [hops_addHops]
    exact congrArg _ (hm.hops id)
  · obtain ⟨hlo, hhi⟩ := hd.ids id hid
    refine ⟨hhi, hhi, ?_⟩
    show joined.hops[id + 0]?.or s.machine.hops[id]? =
      d.hops[id]?.or (a.hops[id]?.or s.machine.hops[id]?)
    have hsame : b.hops[id]? = d.hops[id]? := hmoved.hops id
    rw [Nat.add_zero, hhops, hsame, Option.or_assoc]

end Joint

theorem program_append {fuel : Nat} {body body' : List Stmt} {m m' : Machine}
    (h : execEach fuel body m = .ok () m') :
    Run.program fuel (.statements (body ++ body')) m = Run.program fuel (.statements body') m' := by
  show (execEach fuel (body ++ body') >>= fun _ => pure none) m =
    (execEach fuel body' >>= fun _ => pure none) m'
  cases hr : execEach fuel body' m' with
  | ok u n => rw [bind_of_ok hr, bind_of_ok ((execEach_append_ok h).trans hr)]
  | error halt n => rw [bind_of_error hr, bind_of_error ((execEach_append_ok h).trans hr)]

theorem Halt.ending_ne (halt : Halt) : halt.ending ≠ .finished none := by
  cases halt <;> exact Ending.noConfusion

theorem blankLines_append (i j : Nat) (source : String) :
    blankLines i ++ (blankLines j ++ source) = blankLines (i + j) ++ source := by
  unfold blankLines
  rw [← String.append_assoc, ← String.ofList_append, List.replicate_append_replicate]

section Steps

variable {s : Session} {source source' : String} (hs : s.Alike s)
  (hc : (compile source .script 0).diagnostics = [])
  (hc' : (compile source' .script 0).diagnostics = [])
include hs hc hc'

/-- The joined script does what the first one does. If that does not fail, it goes on as the second
one does in the session that the first one leaves, with as many empty lines before it as one likes. -/
theorem joined_steps (fuel : Nat) :
    let first := s.run fuel .script source
    let joined := s.run fuel .script (source ++ "\n" ++ source')
    (first.1.ending ≠ .finished none ∧ joined.1 = first.1 ∧
        first.2.machine.heap.Alike Lambda.Relocated joined.2.machine.heap ∨
      first.1.ending = .finished none ∧ ∀ l j, l + j = linesBefore source →
        let second := first.2.run fuel .script (blankLines j ++ source')
        joined.1.printed = first.1.printed ++ second.1.printed ∧
          second.1.ending.Alike (fun k => k = 0 ∨ k = l) Lambda.Relocated joined.1.ending ∧
          second.2.machine.heap.Alike Lambda.Relocated joined.2.machine.heap) := by
  intro first joined
  let a := compile source .script s.nextId
  let b := compile (blankLines (linesBefore source) ++ source') .script a.nextId
  let both := compile (source ++ "\n" ++ source') .script s.nextId
  have hca : a.diagnostics = [] := (compile_diagnostics source .script s.nextId).trans hc
  obtain ⟨hboth, hnext, ⟨body, body', ha, hb, hprogram⟩, hhops⟩ := compile_joined hca hc'
  have hown : a.Owns s.nextId := compile_owns hca
  have hcb : b.diagnostics = [] := blankLines_clean hc' (linesBefore source) a.nextId
  obtain ⟨hmachine, hplaces⟩ := hs.joint hown (compile_owns hcb) hhops
  rw [ha] at hplaces
  have hends := @execEach_agrees (s.joint a both) 0 0 fuel rfl body hplaces _ _ hmachine
  rw [show Stmt.relabelAll (Token.down 0) (· + 0) body = body from Stmt.relabelAll_id body] at hends
  generalize hr : execEach fuel body (s.machine.addHops a.hops) = r at hends
  generalize hr' : execEach fuel body (s.machine.addHops both.hops) = r' at hends
  cases hends with
  | @error halt halt' m m' hhalt hm =>
    left
    have hsame : halt' = halt := by
      cases hhalt with
      | error he => exact congrArg Halt.error he.eq
      | outOfFuel => rfl
    have hprinted : m'.printed = m.printed := hm.printed.trans (List.append_nil _)
    have hfirst : first = Session.finish m a.nextId halt.ending := run_halted hca (by
      rw [show (compile source .script s.nextId).program = _ from ha]
      exact bind_of_error hr)
    have hjoined : joined = Session.finish m' both.nextId halt'.ending := run_halted hboth (by
      rw [show (compile (source ++ "\n" ++ source') .script s.nextId).program = _ from hprogram]
      exact bind_of_error (execEach_append_error hr'))
    rw [hfirst, hjoined, hsame]
    refine ⟨halt.ending_ne, ?_, hm.heap.mono Comparison.Code.relocated⟩
    show Step.mk m'.printed.reverse halt.ending = Step.mk m.printed.reverse halt.ending
    rw [hprinted]
  | @ok u u' m m' _ hm =>
    right
    have hfirst : first = Session.finish m a.nextId (.finished none) := run_finished hca (by
      rw [show (compile source .script s.nextId).program = _ from ha]
      exact bind_of_ok hr)
    rw [hfirst]
    refine ⟨rfl, ?_⟩
    intro l j hlj second
    let d := compile (blankLines j ++ source') .script a.nextId
    have hmoved : d.Moved l 0 b := by
      have hmoved := compile_blankLines l (blankLines j ++ source') .script a.nextId
      rw [blankLines_append, hlj] at hmoved
      exact hmoved
    have hcd : d.diagnostics = [] := blankLines_clean hc' j a.nextId
    obtain ⟨hmachine, hplaces⟩ := hm.continued hhops (compile_owns hcd) hmoved
    have hends := @program_agrees _ l 0 fuel (Or.inr rfl) d.program hplaces _ _ hmachine
    rw [← hmoved.program, hb, ← program_append hr', ← hprogram] at hends
    obtain ⟨hprinted, hending, n, n', hn, hsession, hsession'⟩ :=
      @run_alike _ fuel .script _ ⟨{ m with printed := [] }, a.nextId⟩ s _ hcd hboth hends
    have hheap : second.2.machine.heap.Alike Lambda.Relocated joined.2.machine.heap := by
      rw [show second.2 = _ from hsession, show joined.2 = _ from hsession']
      exact hn.heap.mono Comparison.Code.relocated
    exact ⟨hprinted, hending.mono Comparison.Code.relocated, hheap⟩

end Steps

/-- The same error, `k` lines further down. -/
def RuntimeError.down (k : Nat) (e : RuntimeError) : RuntimeError := ⟨e.token.down k, e.fault⟩

theorem RuntimeError.down_zero (e : RuntimeError) : e.down 0 = e := rfl

theorem RuntimeError.down_down (k j : Nat) (e : RuntimeError) : (e.down k).down j = e.down (k + j) := by
  unfold RuntimeError.down
  rw [Token.down_down]

theorem RuntimeError.down_injective {k j : Nat} {e : RuntimeError} (h : e.down k = e.down j) :
    k = j := by
  have hline : e.token.line + k = e.token.line + j := congrArg (fun e => e.token.line) h
  omega

section Endings

variable {K : Nat → Prop} {R : Lambda → Lambda → Prop} {ending : Ending}

theorem Ending.Alike.of_failed {e : RuntimeError} (h : Ending.Alike K R (.failed e) ending) :
    ∃ k, K k ∧ ending = .failed (e.down k) := by
  cases h with
  | @failed _ e' he =>
    obtain ⟨k, hk, htoken⟩ := he.token
    obtain ⟨token, fault⟩ := e'
    exact ⟨k, hk, congrArg Ending.failed (congrArg₂ RuntimeError.mk htoken he.fault)⟩

theorem Ending.Alike.of_finished_none (h : Ending.Alike K R (.finished none) ending) :
    ending = .finished none := by
  cases h with
  | finished hv =>
    cases hv
    rfl

theorem Ending.Alike.of_outOfFuel (h : Ending.Alike K R .outOfFuel ending) : ending = .outOfFuel := by
  cases h
  rfl

end Endings

namespace Session

/-- The script fails with this error in code of its own: the error moves along with the script. -/
def FailsInside (s : Session) (fuel : Nat) (source : String) (e : RuntimeError) : Prop :=
  ∀ k, (s.run fuel .script (blankLines k ++ source)).1.ending = .failed (e.down k)

/-- The script fails with this error in code that the session had before: the error stays where it is
when the script moves. -/
def FailsOutside (s : Session) (fuel : Nat) (source : String) (e : RuntimeError) : Prop :=
  ∀ k, (s.run fuel .script (blankLines k ++ source)).1.ending = .failed e

end Session

theorem blankLines_zero (source : String) : blankLines 0 ++ source = source := String.empty_append

/-- An error is in the code of the script or in older code. -/
theorem Session.Alike.fails {s : Session} {source : String} {fuel : Nat} {e : RuntimeError}
    (hs : s.Alike s) (hc : (compile source .script 0).diagnostics = [])
    (he : (s.run fuel .script source).1.ending = .failed e) :
    s.FailsInside fuel source e ∨ s.FailsOutside fuel source e := by
  have hmoves (k : Nat) : ∃ l, (l = 0 ∨ l = k) ∧
      (s.run fuel .script (blankLines k ++ source)).1.ending = .failed (e.down l) := by
    have hending := (hs.lowered hc fuel k).ending
    rw [he] at hending
    exact hending.of_failed
  have hc₁ : (compile (blankLines 1 ++ source) .script 0).diagnostics = [] := blankLines_clean hc 1 0
  obtain ⟨l₁, hl₁, he₁⟩ := hmoves 1
  -- what holds with one empty line fixes which of the two holds with more of them
  have hmore (k : Nat) : ∃ l, (l = l₁ ∨ l = l₁ + k) ∧
      (s.run fuel .script (blankLines (k + 1) ++ source)).1.ending = .failed (e.down l) := by
    have hending := (hs.lowered hc₁ fuel k).ending
    rw [he₁, blankLines_append] at hending
    obtain ⟨l, hl, hfailed⟩ := hending.of_failed
    rw [RuntimeError.down_down] at hfailed
    exact ⟨l₁ + l, by omega, hfailed⟩
  have hboth (k : Nat) : ∃ l, (l = 0 ∨ l = k + 1) ∧ (l = l₁ ∨ l = l₁ + k) ∧
      (s.run fuel .script (blankLines (k + 1) ++ source)).1.ending = .failed (e.down l) := by
    obtain ⟨l, hl, hfailed⟩ := hmoves (k + 1)
    obtain ⟨l', hl', hfailed'⟩ := hmore k
    have hsame : l = l' := RuntimeError.down_injective (Ending.failed.inj (hfailed.symm.trans hfailed'))
    exact ⟨l, hl, hsame ▸ hl', hfailed⟩
  have hzero : (s.run fuel .script (blankLines 0 ++ source)).1.ending = .failed e := by
    rw [blankLines_zero]
    exact he
  rcases hl₁ with hstays | hmoved
  · right
    intro k
    cases k with
    | zero => exact hzero
    | succ k =>
      obtain ⟨l, hl, hl', hfailed⟩ := hboth k
      have hl : l = 0 := by omega
      rw [hfailed, hl, RuntimeError.down_zero]
  · left
    intro k
    cases k with
    | zero => exact hzero
    | succ k =>
      obtain ⟨l, hl, hl', hfailed⟩ := hboth k
      have hl : l = k + 1 := by omega
      rw [hfailed, hl]

/-- Of a script without a diagnostic all is run, so that it is not rejected. -/
theorem script_ending {s : Session} {source : String}
    (hc : (compile source .script 0).diagnostics = []) (fuel : Nat) :
    (s.run fuel .script source).1.ending = .finished none ∨
      (s.run fuel .script source).1.ending = .outOfFuel ∨
      ∃ e, (s.run fuel .script source).1.ending = .failed e := by
  have hca : (compile source .script s.nextId).diagnostics = [] :=
    (compile_diagnostics source .script s.nextId).trans hc
  cases hr : Run.program fuel (compile source .script s.nextId).program
      (s.machine.addHops (compile source .script s.nextId).hops) with
  | ok value m =>
    left
    obtain ⟨body, hprogram, _⟩ := parse_phrase (script_clean hca).2.1
    have hbody : (compile source .script s.nextId).program = .statements body := hprogram
    have hvalue : value = none := by
      rw [hbody] at hr
      obtain ⟨_, _, _, hnone⟩ := bind_eq_ok hr
      cases hnone
      rfl
    rw [run_finished hca hr, hvalue]
    rfl
  | error halt m =>
    right
    rw [run_halted hca hr]
    cases halt with
    | error e => exact .inr ⟨e, rfl⟩
    | outOfFuel => exact .inl rfl

/-- A script without an error. -/
def assigning : String := "var a;\na=nil;"

/-- A script that fails after it has printed a variable of the first one. -/
def straying : String := "print a;print b;"

def assignedSession : Session := ((Session.start 0).run 9 .script assigning).2

def strayError : RuntimeError := ⟨.synthetic .identifier "b" 1, .undefinedVariable "b"⟩

end Lox
