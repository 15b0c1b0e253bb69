import Lox.Proofs.Evaluation.SessionLikeness
import Lox.Proofs.Renaming.Running

/-!
One step of a session, with an input and with the same input that has another name for a variable. What
was there before is related to itself, as no frame of it is marked, and the step shows the same.
-/

namespace Lox

open Run

variable {c : Change} {k n : Nat}

/-- Code within scopes that are not marked matches itself. -/
theorem Lambda.matched_self (f : Lambda) (k : Nat) :
    f.Matched c.matching (List.replicate k false) f := by
  have hmatched := Lambda.matched_relabel (M := c.matching) (f := id) (g := id) f
    (List.replicate k []) fun w _ => Word.fits_unmarked (.unmarked w.token)
  rwa [Lambda.relabel_id, map_unmarked, List.length_replicate] at hmatched

theorem Environment.marked_self {e : Environment} (h : ∀ frame ∈ e.frames, frame < n) :
    e.Marked (List.replicate n false) (List.replicate e.outer.length false) := by
  have hmarks : List.replicate e.outer.length false ++ [false] =
      List.replicate e.frames.length false := List.replicate_succ'.symm
  unfold Environment.Marked
  rw [hmarks]
  generalize e.frames = frames at h
  induction frames with
  | nil => exact .nil
  | cons frame rest ih =>
    rw [List.forall_mem_cons] at h
    exact .cons (by rw [List.getElem?_replicate, if_pos h.1]) (ih h.2)

/-- All frames of the code's environment exist. -/
theorem Mirrors.frames_lt {w : View} {e : Environment} {Γ : Layers} (h : Mirrors w e Γ)
    (hw : w.Sound) : ∀ frame ∈ e.frames, frame < w.heap.frames.size := by
  induction h with
  | global => exact List.forall_mem_singleton.2 hw.global
  | block _ inner _ _ ih | call _ inner _ _ ih | super _ _ _ inner _ _ _ ih =>
    exact List.forall_mem_cons.2 ⟨inner.2, ih⟩
  | method _ inner _ _ made _ _ receives _ _ ih =>
    refine List.forall_mem_cons.2 ⟨inner.2, ?_⟩
    rw [(bindMethod_closure made).1]
    exact List.forall_mem_cons.2 ⟨receives.2, ih⟩

section Self

variable {w : View}

theorem closure_self {f : Closure} (h : ∀ frame ∈ f.environment.frames, frame < w.heap.frames.size)
    (receiver : List Bool) (hr : ∀ m ∈ receiver, m = false) :
    f.Renamed c (List.replicate w.heap.frames.size false) receiver f := by
  refine ⟨rfl, rfl, rfl, rfl, _, Environment.marked_self h, ?_⟩
  rw [List.eq_replicate_iff.2 ⟨rfl, hr⟩, List.replicate_append_replicate]
  exact Lambda.matched_self f.function _

variable (hw : w.Sound)
include hw

theorem Closure.Sound.renamed {f : Closure} (h : f.Sound w) :
    f.Renamed c (List.replicate w.heap.frames.size false) [] f := by
  refine closure_self ?_ [] (List.forall_mem_nil _)
  cases h with
  | plain environment => exact environment.frames_lt hw
  | bound _ made _ _ receives _ outer =>
    rw [(bindMethod_closure made).1]
    exact List.forall_mem_cons.2 ⟨receives.2, outer.frames_lt hw⟩

theorem Class.Sound.renamed {cls : Class} (h : cls.Sound w) :
    cls.Renamed c (List.replicate w.heap.frames.size false) cls := by
  have hbody : ∀ body ∈ cls.own :: cls.ancestors,
      ClassBody.Renamed c (List.replicate w.heap.frames.size false) body body := by
    intro body hmem
    refine ⟨rfl, rfl, fun x => ?_⟩
    cases hx : body.methods[x]? with
    | none => exact .none
    | some method =>
      obtain ⟨_, _, outer, _⟩ := h body hmem x method hx
      exact .some (closure_self (outer.frames_lt hw) [false] (by simp))
  rw [List.forall_mem_cons] at hbody
  exact ⟨hbody.1, List.forall₂_same.2 hbody.2⟩

theorem Value.Sound.renamed {v : Value} (h : v.Sound w) :
    v.Renamed c (List.replicate w.heap.frames.size false) v := by
  cases v with
  | nil => exact .nil
  | boolean b => exact .boolean b
  | number x => exact .number x
  | string s => exact .string s
  | native f => exact .native f
  | function f => exact .function (Closure.Sound.renamed hw h)
  | «class» cls => exact .class (Class.Sound.renamed hw h)
  | «instance» o => exact .instance ⟨rfl, Class.Sound.renamed hw h⟩

/-- A sound heap is related to itself. -/
theorem View.Sound.renamed :
    w.heap.Renamed c (List.replicate w.heap.frames.size false) w.heap where
  global := by rw [List.getElem?_replicate, if_pos hw.global]
  frames := List.length_replicate.symm
  frames' := List.length_replicate.symm
  objects := rfl
  closures := rfl
  slot frame m hm x := by
    rw [List.getElem?_replicate] at hm
    split at hm
    · obtain rfl := Option.some.inj hm
      rw [Renaming.key_false]
      cases hx : w.heap.slot? frame x with
      | none => exact .none
      | some slot =>
        cases slot with
        | unassigned => exact .some .unassigned
        | assigned v => exact .some (.assigned (Value.Sound.renamed hw (hw.slots frame x v hx)))
    · cases hm
  property object x := by
    cases hx : w.heap.property? object x with
    | none => exact .none
    | some v => exact .some (Value.Sound.renamed hw (hw.properties object x v hx))

end Self

/-- Two functions that match within some scopes. -/
def Change.Code (c : Change) (f f' : Lambda) : Prop := ∃ Γ, f.Matched c.matching Γ f'

section Code

variable {w : List Bool}

theorem Closure.Renamed.alike {receiver : List Bool} {f f' : Closure}
    (h : f.Renamed c w receiver f') : f.Alike c.Code f' :=
  let ⟨Γ, _, hmatched⟩ := h.function
  ⟨h.id, h.name, ⟨receiver ++ Γ, hmatched⟩, h.environment, h.isInitializer⟩

theorem ClassBody.Renamed.alike {b b' : ClassBody} (h : b.Renamed c w b') : b.Alike c.Code b' :=
  ⟨h.id, h.name, fun x => rel_mono (fun _ _ => Closure.Renamed.alike) (h.methods x)⟩

theorem Class.Renamed.alike {cls cls' : Class} (h : cls.Renamed c w cls') : cls.Alike c.Code cls' :=
  ⟨h.own.alike, h.ancestors.imp fun _ _ => ClassBody.Renamed.alike⟩

theorem Value.Renamed.alike {v v' : Value} (h : v.Renamed c w v') : v.Alike c.Code v' := by
  cases h with
  | nil => exact .nil
  | boolean b => exact .boolean b
  | number x => exact .number x
  | string s => exact .string s
  | native f => exact .native f
  | function h => exact .function h.alike
  | «class» h => exact .class h.alike
  | «instance» h => exact .instance ⟨h.id, h.cls.alike⟩

theorem Slot.Renamed.alike {s s' : Slot} (h : s.Renamed c w s') : s.Alike c.Code s' := by
  cases h with
  | unassigned => exact .unassigned
  | assigned h => exact .assigned h.alike

end Code

/-- How two steps end of which the second one has another name for a variable. -/
inductive Ending.Renamed (c : Change) : Ending → Ending → Prop where
  | finished {v v' : Option Value} (h : Option.Rel (Value.Alike c.Code) v v') :
    Renamed c (.finished v) (.finished v')
  | failed {e e' : RuntimeError} (h : e.Renamed c e') : Renamed c (.failed e) (.failed e')
  | outOfFuel : Renamed c .outOfFuel .outOfFuel

theorem Halt.Renamed.ending {halt halt' : Halt} (h : halt.Renamed c halt') :
    halt.ending.Renamed c halt'.ending := by
  cases h with
  | error he => exact .failed he
  | outOfFuel => exact .outOfFuel

section Programs

variable {w : List Bool} {fuel : Nat}

theorem execEach_meets {body body' : List Stmt} (h : Stmt.MatchedAll c.matching [] body body') :
    Run.Meet c [] (fun _ => Eq) w (execEach fuel body) (execEach fuel body') := by
  induction body generalizing w body' with
  | nil =>
    cases h
    exact .pure rfl
  | cons s rest ih =>
    cases h with
    | cons hst hrest => exact ((renames c fuel).exec hst).bind fun _ _ _ _ _ => ih hrest

theorem program_meets {p p' : Program} (h : p.Matched c.matching p') :
    Run.Meet c [] (fun w => Option.Rel (Value.Renamed c w)) w (Run.program fuel p)
      (Run.program fuel p') := by
  cases h with
  | statements h => exact (execEach_meets h).bind fun _ _ _ _ _ => .pure .none
  | expression h =>
    refine ((renames c fuel).eval h).bind fun w' hw v v' hv => ?_
    exact (print_meets hv).bind fun w'' hw' _ _ _ => .pure (.some (hv.mono hw'))

end Programs

/-- What two steps show and leave of which the second one has another name for a variable. -/
structure Session.StepRenamed (c : Change) (a b : Step × Session) : Prop where
  printed : b.1.printed = a.1.printed
  ending : a.1.ending.Renamed c b.1.ending
  nextId : b.2.nextId = a.2.nextId
  globals : ∀ x, Option.Rel (Slot.Alike c.Code) (a.2.machine.heap.slot? Environment.global.inner x)
    (b.2.machine.heap.slot? Environment.global.inner x)
  machine : ∃ w, a.2.machine.Renamed c [] w b.2.machine

section Step

variable {visited : Point → Prop} {known : Occurrence → Prop} {s : Session} {mode : Mode}
  {source source' : String}

theorem finish_renamed {w : List Bool} {m m' : Machine} {ending ending' : Ending} {next : NodeId}
    (hm : m.Renamed c [] w m') (he : ending.Renamed c ending') :
    Session.StepRenamed c (Session.finish m next ending) (Session.finish m' next ending') where
  printed := congrArg List.reverse hm.printed
  ending := he
  nextId := rfl
  globals x := rel_mono (fun _ _ => Slot.Renamed.alike) (hm.heap.slot 0 false hm.heap.global x)
  machine := ⟨w, hm.heap, hm.environment, hm.marked, hm.hops, hm.hops', rfl, hm.time⟩

theorem addHops_renamed {w : List Bool} {m : Machine} {hops hops' : HopMap}
    (hheap : m.heap.Renamed c w m.heap) (hmarked : m.environment.Marked w [])
    (hall : ∀ id, c.hops id = (m.addHops hops).hops[id]?)
    (hhops : ∀ id : NodeId, hops'[id]? = hops[id]?) :
    (m.addHops hops).Renamed c [] w (m.addHops hops') := by
  refine ⟨hheap, rfl, hmarked, fun id => (hall id).symm, fun id => ?_, rfl, rfl⟩
  rw [hall, hops_addHops, hops_addHops, hhops]

/-- Two inputs whose programs match show the same in a session. -/
theorem Session.Sound.run_matched (hs : s.Sound visited known) (fuel : Nat)
    (hc : (compile source mode s.nextId).diagnostics = [])
    (hc' : (compile source' mode s.nextId).diagnostics = [])
    (hnext : (compile source' mode s.nextId).nextId = (compile source mode s.nextId).nextId)
    (hhops : ∀ id : NodeId, (compile source' mode s.nextId).hops[id]? =
      (compile source mode s.nextId).hops[id]?)
    (hall : ∀ id, c.hops id = (s.machine.addHops (compile source mode s.nextId).hops).hops[id]?)
    (hm : (compile source mode s.nextId).program.Matched c.matching
      (compile source' mode s.nextId).program) :
    Session.StepRenamed c (s.run fuel mode source) (s.run fuel mode source') := by
  have hheap := View.Sound.renamed (c := c) hs.heap
  have hmarked : s.machine.environment.Marked (List.replicate s.machine.heap.frames.size false) [] := by
    rw [hs.environment]
    exact Environment.Marked.global hheap.global
  have hmachine := addHops_renamed hheap hmarked hall hhops
  obtain ⟨w, _, hends⟩ := @program_meets c _ fuel _ _ hm _ _ hmachine
  generalize hr : Run.program fuel (compile source mode s.nextId).program
    (s.machine.addHops (compile source mode s.nextId).hops) = r at hends
  generalize hr' : Run.program fuel (compile source' mode s.nextId).program
    (s.machine.addHops (compile source' mode s.nextId).hops) = r' at hends
  cases hends with
  | ok hv hm =>
    rw [run_finished hc hr, run_finished hc' hr', hnext]
    exact finish_renamed hm (.finished (rel_mono (fun _ _ => Value.Renamed.alike) hv))
  | error hhalt hm =>
    rw [run_halted hc hr, run_halted hc' hr', hnext]
    exact finish_renamed hm hhalt.ending

end Step

end Lox
