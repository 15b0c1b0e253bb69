import Lox.Proofs.Evaluation.Accesses
import Lox.Proofs.Evaluation.Likeness
import Lox.Proofs.Loops.Hops

/-!
Values and heaps of two runs, of which the second one has increments in loop bodies. Its bodies have
frames of their own, so its frames have other numbers, and a list gives the frame of the second run for
each one of the first. Closures keep the frames that they were made in, and with them those of the
bodies.
-/

namespace Lox

/-- The frames of two environments correspond, but for those of the marked scopes, which the second one
has besides. The global frame is outside of all scopes. -/
def Environment.Beside (w : List FrameId) (K : List Bool) (e e' : Environment) : Prop :=
  Padded (fun frame frame' => w[frame]? = some frame') (fun _ => True) (K ++ [false]) e.frames e'.frames

/-- The same closure with code that has increments in loop bodies. The code of a method that is not bound
has one scope more around it, that of the receiver, and an initializer finds its receiver in its own
environment. -/
structure Closure.Beside (d : Detour) (w : List FrameId) (receiver : List Bool) (f f' : Closure) :
    Prop where
  id : f'.id = f.id
  name : f'.name = f.name
  isInitializer : f'.isInitializer = f.isInitializer
  function : ∃ K, f.environment.Beside w K f'.environment ∧
    f.function.Inlined d.Leads (receiver ++ K) f'.function ∧
    (f.isInitializer = true → (receiver ++ K).head? ≠ some true)
  proper : f.function.Proper

structure ClassBody.Beside (d : Detour) (w : List FrameId) (b b' : ClassBody) : Prop where
  id : b'.id = b.id
  name : b'.name = b.name
  methods : ∀ x : String, Option.Rel (Closure.Beside d w [false]) b.methods[x]? b'.methods[x]?

structure Class.Beside (d : Detour) (w : List FrameId) (c c' : Class) : Prop where
  own : c.own.Beside d w c'.own
  ancestors : List.Forall₂ (ClassBody.Beside d w) c.ancestors c'.ancestors

structure Instance.Beside (d : Detour) (w : List FrameId) (o o' : Instance) : Prop where
  id : o'.id = o.id
  cls : o.cls.Beside d w o'.cls

/-- The same value but for the code of functions and the numbers of their frames. -/
inductive Value.Beside (d : Detour) (w : List FrameId) : Value → Value → Prop where
  | nil : Beside d w .nil .nil
  | boolean (b : Bool) : Beside d w (.boolean b) (.boolean b)
  | number (x : Float) : Beside d w (.number x) (.number x)
  | string (s : String) : Beside d w (.string s) (.string s)
  | native (f : Native) : Beside d w (.native f) (.native f)
  | function {f f' : Closure} (h : f.Beside d w [] f') : Beside d w (.function f) (.function f')
  | «class» {c c' : Class} (h : c.Beside d w c') : Beside d w (.class c) (.class c')
  | «instance» {o o' : Instance} (h : o.Beside d w o') : Beside d w (.instance o) (.instance o')

inductive Slot.Beside (d : Detour) (w : List FrameId) : Slot → Slot → Prop where
  | unassigned : Beside d w .unassigned .unassigned
  | assigned {v v' : Value} (h : v.Beside d w v') : Beside d w (.assigned v) (.assigned v')

/-- Each frame of the first heap has one of the second heap that holds the same. There may be more frames
in the second heap. -/
structure Heap.Beside (d : Detour) (w : List FrameId) (h h' : Heap) : Prop where
  global : w[0]? = some 0
  frames : h.frames.size = w.length
  frames' : ∀ frame ∈ w, frame < h'.frames.size
  distinct : w.Nodup
  objects : h'.objects.size = h.objects.size
  closures : h'.closures = h.closures
  slot : ∀ frame frame', w[frame]? = some frame' → ∀ x,
    Option.Rel (Slot.Beside d w) (h.slot? frame x) (h'.slot? frame' x)
  property : ∀ object x,
    Option.Rel (Value.Beside d w) (h.property? object x) (h'.property? object x)

variable {d d' : Detour} {w w' : List FrameId} {K : List Bool}

/-! What is related stays so when frames and hops are added. -/

section Mono

variable (hd : d.Le d') (hw : w <+: w')

include hw in
theorem Environment.Beside.mono {e e' : Environment} (h : e.Beside w K e') : e.Beside w' K e' := by
  obtain ⟨more, rfl⟩ := hw
  refine Padded.imp (fun frame frame' hf => ?_) (fun _ _ => trivial) h
  rwa [List.getElem?_append_left (List.getElem?_eq_some_iff.1 hf).1]

include hd hw

theorem Closure.Beside.mono {receiver : List Bool} {f f' : Closure} (h : f.Beside d w receiver f') :
    f.Beside d' w' receiver f' :=
  let ⟨K, henvironment, hinlined, hinitializer⟩ := h.function
  ⟨h.id, h.name, h.isInitializer,
    ⟨K, henvironment.mono hw, hinlined.mono fun _ _ _ => Detour.Leads.mono hd, hinitializer⟩, h.proper⟩

theorem ClassBody.Beside.mono {b b' : ClassBody} (h : b.Beside d w b') : b.Beside d' w' b' :=
  ⟨h.id, h.name, fun x => rel_mono (fun _ _ => Closure.Beside.mono hd hw) (h.methods x)⟩

theorem Class.Beside.mono {c c' : Class} (h : c.Beside d w c') : c.Beside d' w' c' :=
  ⟨h.own.mono hd hw, h.ancestors.imp fun _ _ => ClassBody.Beside.mono hd hw⟩

theorem Value.Beside.mono {v v' : Value} (h : v.Beside d w v') : v.Beside d' w' v' := by
  cases h with
  | nil => exact .nil
  | boolean b => exact .boolean b
  | number x => exact .number x
  | string s => exact .string s
  | native f => exact .native f
  | function h => exact .function (h.mono hd hw)
  | «class» h => exact .class (h.mono hd hw)
  | «instance» h => exact .instance ⟨h.id, h.cls.mono hd hw⟩

theorem Slot.Beside.mono {s s' : Slot} (h : s.Beside d w s') : s.Beside d' w' s' := by
  cases h with
  | unassigned => exact .unassigned
  | assigned h => exact .assigned (h.mono hd hw)

end Mono

theorem Detour.Le.refl (d : Detour) : d.Le d := ⟨Nat.le_refl _, fun _ _ => rfl, fun _ _ => rfl⟩

/-- More hops leave heaps as they are. -/
theorem Heap.Beside.detour {h h' : Heap} (hh : h.Beside d w h') (hd : d.Le d') : h.Beside d' w h' :=
  { hh with
    slot := fun frame frame' hf x =>
      rel_mono (fun _ _ => Slot.Beside.mono hd (List.prefix_refl w)) (hh.slot frame frame' hf x)
    property := fun object x =>
      rel_mono (fun _ _ => Value.Beside.mono hd (List.prefix_refl w)) (hh.property object x) }

namespace Environment.Beside

variable {e e' : Environment}

theorem frame (h : e.Beside w K e') (i : Nat) :
    Option.Rel (fun frame frame' => w[frame]? = some frame') (e.frames[i]?)
      (e'.frames[placeIn K i]?) := by
  have hframe := Padded.getElem? h i
  rwa [placeIn_concat] at hframe

/-- The frame some hops out is the one as many hops out as the added frames make it. -/
theorem ancestor (h : e.Beside w K e') (i : Nat) :
    Option.Rel (fun a a' : Environment => w[a.inner]? = some a'.inner) (e.ancestor? i)
      (e'.ancestor? (placeIn K i)) := by
  have hframe := h.frame i
  rw [← Environment.ancestor?_inner, ← Environment.ancestor?_inner] at hframe
  generalize e.ancestor? i = a? at hframe ⊢
  generalize e'.ancestor? (placeIn K i) = a?' at hframe ⊢
  cases a? with
  | none =>
    cases a?' with
    | none => exact .none
    | some => cases hframe
  | some a =>
    cases a?' with
    | none => cases hframe
    | some a' =>
      cases hframe with
      | some hinner => exact .some hinner

/-- Where something may be declared the innermost frames correspond. -/
theorem inner (h : e.Beside w K e') (hK : K.head? ≠ some true) : w[e.inner]? = some e'.inner := by
  have hframe := h.frame 0
  rw [placeIn_zero hK] at hframe
  cases hframe with
  | some hinner => exact hinner

/-- A frame more in both, for the scope that is entered. -/
theorem child (h : e.Beside w K e') (frame' : FrameId) :
    Environment.Beside (w ++ [frame']) (false :: K) ⟨w.length, e.frames⟩ ⟨frame', e'.frames⟩ :=
  .same List.getElem?_concat_length (h.mono (List.prefix_append w [frame']))

/-- A frame more in the second one only, for the body of a loop. -/
theorem childAdded (h : e.Beside w K e') (frame' : FrameId) :
    Environment.Beside w (true :: K) e ⟨frame', e'.frames⟩ := .added trivial h

theorem global (h : w[0]? = some 0) : Environment.global.Beside w [] Environment.global :=
  .same h .nil

end Environment.Beside

section Values

variable {v v' u u' : Value} {c c' : Class}

theorem Value.Beside.resembles (h : v.Beside d w v') : v.Resembles v' := by
  cases h with
  | nil => exact .nil
  | boolean b => exact .boolean b
  | number x => exact .number x
  | string s => exact .string s
  | native f => exact .native f
  | function h => exact .function h.id h.name
  | «class» h => exact .class h.own.id h.own.name
  | «instance» h => exact .instance h.id h.cls.own.name

theorem Lambda.Inlined.params {R : List Bool → Role → Reference → Prop} {f f' : Lambda}
    (h : f.Inlined R K f') : f'.params = f.params := by
  cases h
  rfl

theorem Closure.Beside.params {receiver : List Bool} {f f' : Closure} (h : f.Beside d w receiver f') :
    f'.function.params = f.function.params :=
  let ⟨_, _, hinlined, _⟩ := h.function
  hinlined.params

theorem Closure.Beside.arity {receiver : List Bool} {f f' : Closure} (h : f.Beside d w receiver f') :
    f'.function.arity = f.function.arity := congrArg List.length h.params

theorem Class.Beside.method? (h : c.Beside d w c') (x : String) :
    Option.Rel (Closure.Beside d w [false]) (c.method? x) (c'.method? x) :=
  rel_findSome? (fun _ _ hb => hb.methods x) (.cons h.own h.ancestors)

theorem Class.Beside.initializer? (h : c.Beside d w c') :
    Option.Rel (Closure.Beside d w [false]) c.initializer? c'.initializer? := h.method? "init"

theorem Class.Beside.arity (h : c.Beside d w c') : c'.arity = c.arity :=
  Class.arity_eq_of_rel (fun _ _ => Closure.Beside.arity) h.initializer?

end Values

namespace Heap.Beside

variable {h h' : Heap}

theorem slot_isSome (hh : h.Beside d w h') {frame frame' : FrameId} (hf : w[frame]? = some frame')
    (x : String) : (h'.slot? frame' x).isSome = (h.slot? frame x).isSome :=
  isSome_of_rel (hh.slot frame frame' hf x)

/-- A frame of the first heap is one that there is. -/
theorem lt (hh : h.Beside d w h') {frame frame' : FrameId} (hf : w[frame]? = some frame') :
    frame < h.frames.size := by
  rw [hh.frames]
  exact (List.getElem?_eq_some_iff.1 hf).1

/-- A frame more in both heaps. -/
theorem newFrame (hh : h.Beside d w h') (outer outer' : List FrameId) :
    (h.newFrame outer).2.Beside d (w ++ [h'.frames.size]) (h'.newFrame outer').2 where
  global := by
    rw [List.getElem?_append_left (List.getElem?_eq_some_iff.1 hh.global).1]
    exact hh.global
  frames := by rw [Heap.size_newFrame, hh.frames, List.length_append, List.length_singleton]
  frames' frame hmem := by
    rw [Heap.size_newFrame]
    rcases List.mem_append.1 hmem with hold | hnew
    · exact Nat.lt_succ_of_lt (hh.frames' frame hold)
    · rw [List.mem_singleton.1 hnew]
      exact Nat.lt_succ_self _
  distinct := by
    refine List.nodup_append.2 ⟨hh.distinct, List.pairwise_singleton _ _, fun frame hold other hnew => ?_⟩
    rw [List.mem_singleton.1 hnew]
    exact Nat.ne_of_lt (hh.frames' frame hold)
  objects := hh.objects
  closures := hh.closures
  slot frame frame' hf x := by
    rw [Heap.slot?_newFrame, Heap.slot?_newFrame]
    by_cases hlt : frame < w.length
    · rw [List.getElem?_append_left hlt] at hf
      exact rel_mono (fun _ _ => Slot.Beside.mono (Detour.Le.refl d) (List.prefix_append w _))
        (hh.slot frame frame' hf x)
    · -- The new frames are empty.
      rw [List.getElem?_append_right (Nat.le_of_not_lt hlt), List.getElem?_singleton] at hf
      split at hf
      · obtain rfl := Option.some.inj hf
        have hnone {g : Heap} {i : FrameId} (hi : ¬ i < g.frames.size) : g.slot? i x = none := by
          unfold Heap.slot?
          rw [Array.getElem?_eq_none (Nat.le_of_not_lt hi)]
          rfl
        rw [hnone (hh.frames ▸ hlt), hnone (Nat.lt_irrefl _)]
        exact .none
      · cases hf
  property object x :=
    rel_mono (fun _ _ => Value.Beside.mono (Detour.Le.refl d) (List.prefix_append w _))
      (hh.property object x)

/-- A frame more in the second heap only. -/
theorem newAdded (hh : h.Beside d w h') (outer : List FrameId) :
    h.Beside d w (h'.newFrame outer).2 :=
  { hh with
    frames' := fun frame hmem => by
      rw [Heap.size_newFrame]
      exact Nat.lt_succ_of_lt (hh.frames' frame hmem)
    slot := fun frame frame' hf x => by
      rw [Heap.slot?_newFrame]
      exact hh.slot frame frame' hf x }

theorem setSlot (hh : h.Beside d w h') {frame frame' : FrameId} (hf : w[frame]? = some frame')
    (x : String) {s s' : Slot} (hs : s.Beside d w s') :
    (h.setSlot frame x s).Beside d w (h'.setSlot frame' x s') :=
  { hh with
    frames := by rw [Heap.size_setSlot, hh.frames]
    frames' := fun other hmem => by
      rw [Heap.size_setSlot]
      exact hh.frames' other hmem
    slot := fun other other' ho y => by
      rw [Heap.slot?_setSlot h (hh.lt hf), Heap.slot?_setSlot h' (hh.frames' _ (List.mem_of_getElem? hf))]
      have hsame : frame' = other' ↔ frame = other := by
        refine ⟨fun heq => ?_, fun heq => ?_⟩
        · subst heq
          exact (List.getElem?_inj (List.getElem?_eq_some_iff.1 hf).1 hh.distinct).1 (hf.trans ho.symm)
        · subst heq
          exact Option.some.inj (hf.symm.trans ho)
      by_cases hwritten : frame = other ∧ x = y
      · rw [if_pos hwritten, if_pos ⟨hsame.2 hwritten.1, hwritten.2⟩]
        exact .some hs
      · rw [if_neg hwritten, if_neg fun heq => hwritten ⟨hsame.1 heq.1, heq.2⟩]
        exact hh.slot other other' ho y }

theorem newObject (hh : h.Beside d w h') {p p' : Properties}
    (hp : ∀ x : String, Option.Rel (Value.Beside d w) p[x]? p'[x]?) :
    (h.newObject p).2.Beside d w (h'.newObject p').2 :=
  { hh with
    objects := by simp only [Heap.newObject, Array.size_push, hh.objects]
    property := Heap.rel_newObject hh.objects hp hh.property }

theorem setProperty (hh : h.Beside d w h') (object : ObjectId) (x : String) {v v' : Value}
    (hv : v.Beside d w v') :
    (h.setProperty object x v).Beside d w (h'.setProperty object x v') :=
  { hh with
    objects := by simp only [Heap.setProperty, Array.size_modify, hh.objects]
    property := Heap.rel_setProperty hh.objects hv hh.property object x }

end Heap.Beside

end Lox
