import Lox.Proofs.Heap.Links

/-!
What an operation on environments changes. It writes one slot of one frame, or it adds an empty frame or
a handle, or it leaves everything as it was, and one that fails leaves everything as it was.
-/

namespace Lox

/-- One slot of one frame with what is put into it. -/
structure Writing where
  frame : FrameId
  name : String
  slot : Slot

/-- How far a slot has come: absent, unassigned, assigned. -/
def Slot.stage : Option Slot → Nat
  | none => 0
  | some .unassigned => 1
  | some (.assigned _) => 2

theorem Slot.stage_le (slot : Option Slot) : stage slot ≤ 2 := by
  match slot with
  | none | some .unassigned | some (.assigned _) => simp [stage]

/-- What a read of the slot answers. -/
def Slot.answer (name : Token) : Option Slot → ScopeAnswer
  | none => .failed ⟨name, .undefinedVariable name.lexeme⟩
  | some .unassigned => .failed ⟨name, .unassignedVariable name.lexeme⟩
  | some (.assigned value) => .value value

/-- What the operation writes if it succeeds. What is defined or bound goes into the innermost frame,
what is assigned into the nearest frame that has the name, or into the one at the distance. -/
def ScopeOperation.writing? (w : Workspace) : ScopeOperation → Option Writing
  | .define handle name value => w.handles[handle]?.map fun e =>
    ⟨e.inner, name.lexeme, (value.map Slot.assigned).getD .unassigned⟩
  | .bind handle name value => w.handles[handle]?.map fun e => ⟨e.inner, name, .assigned value⟩
  | .assign handle name value => w.handles[handle]?.bind fun e =>
    (w.heap.holder? e name.lexeme).map (⟨·, name.lexeme, .assigned value⟩)
  | .assignAt handle distance name value => w.handles[handle]?.bind fun e =>
    (e.ancestor? distance).map fun a => ⟨a.inner, name.lexeme, .assigned value⟩
  | .create | .child _ | .copy _ | .enclosing _ | .ancestor _ _ | .get _ _ | .getAt _ _ _ => none

namespace Workspace

def write (w : Workspace) (x : Writing) : Workspace :=
  { w with heap := w.heap.setSlot x.frame x.name x.slot }

/-- All that an operation can do. -/
inductive Effect (w : Workspace) (o : ScopeOperation) : ScopeAnswer × Workspace → Prop where
  | nothing {answer} (h : answer ≠ .done) : Effect w o (answer, w)
  | handle (e : Environment) : Effect w o (w.keep e)
  | frame (outer : List FrameId) :
    Effect w o (keep { w with heap := (w.heap.newFrame outer).2 } (w.heap.newFrame outer).1)
  | write (x : Writing) (hx : o.writing? w = some x) (existing : x.frame < w.heap.frames.size)
    (forward : Slot.stage (w.heap.slot? x.frame x.name) ≤ Slot.stage (some x.slot)) :
    Effect w o (.done, w.write x)

variable {w w' w'' : Workspace} {o : ScopeOperation}

section Effects

theorem effect_at? {handle : Nat} {next : Environment → ScopeAnswer × Workspace}
    (h : ∀ e, w.handles[handle]? = some e → Effect w o (next e)) : Effect w o (w.at? handle next) := by
  unfold at?
  cases he : w.handles[handle]? with
  | none => exact .nothing ScopeAnswer.noConfusion
  | some e => exact h e he

theorem effect_keep? (e? : Option Environment) : Effect w o (w.keep? e?) := by
  cases e? with
  | none => exact .nothing ScopeAnswer.noConfusion
  | some e => exact .handle e

theorem effect_read (frame : FrameId) (name : Token) :
    Effect w o (w.access (.read frame name) .value) := by
  unfold access Access.read
  cases w.heap.slot? frame name.lexeme with
  | none => exact .nothing ScopeAnswer.noConfusion
  | some slot => cases slot <;> exact .nothing ScopeAnswer.noConfusion

theorem effect_overwrite {frame : FrameId} {name : Token} {value : Value}
    (hx : o.writing? w = some ⟨frame, name.lexeme, .assigned value⟩) :
    Effect w o (w.access (.overwrite frame name value) fun _ => .done) := by
  unfold access Access.overwrite
  cases hs : w.heap.slot? frame name.lexeme with
  | none => exact .nothing ScopeAnswer.noConfusion
  | some slot => exact .write _ hx (Heap.slot?_lt (Option.isSome_of_eq_some hs)) (Slot.stage_le _)

theorem effect_define {e : Environment} {name : Token} {value : Option Value}
    (hx : o.writing? w = some ⟨e.inner, name.lexeme, (value.map Slot.assigned).getD .unassigned⟩)
    (he : e.inner < w.heap.frames.size) :
    Effect w o (w.access (.define e name value) fun _ => .done) := by
  unfold access Access.define
  cases hs : w.heap.slot? e.inner name.lexeme with
  | some slot => exact .nothing ScopeAnswer.noConfusion
  | none =>
    refine .write _ hx he ?_
    rw [show w.heap.slot? _ _ = none from hs]
    exact Nat.zero_le _

/-- The handles are for frames that there are. -/
def Existing (w : Workspace) : Prop := ∀ e ∈ w.handles, e.inner < w.heap.frames.size

theorem effect_apply (hw : w.Existing) (o : ScopeOperation) : Effect w o (w.apply o) := by
  cases o with
  | create => exact .frame []
  | child handle => exact effect_at? fun e _ => .frame e.frames
  | copy handle => exact effect_at? fun e _ => .handle e
  | enclosing handle => exact effect_at? fun e _ => effect_keep? _
  | ancestor handle distance => exact effect_at? fun e _ => effect_keep? _
  | define handle name value =>
    refine effect_at? fun e he => effect_define ?_ (hw e (Array.mem_of_getElem? he))
    rw [ScopeOperation.writing?, he]
    rfl
  | bind handle name value =>
    refine effect_at? fun e he => .write ⟨e.inner, name, .assigned value⟩ ?_
      (hw e (Array.mem_of_getElem? he)) (Slot.stage_le _)
    rw [ScopeOperation.writing?, he]
    rfl
  | assign handle name value =>
    refine effect_at? fun e he => ?_
    unfold access Access.assign
    cases hh : w.heap.holder? e name.lexeme with
    | none => exact .nothing ScopeAnswer.noConfusion
    | some frame =>
      apply effect_overwrite
      rw [ScopeOperation.writing?, he, Option.bind_some, hh]
      rfl
  | assignAt handle distance name value =>
    refine effect_at? fun e he => ?_
    unfold Access.assignAt
    cases ha : e.ancestor? distance with
    | none => exact .nothing ScopeAnswer.noConfusion
    | some a =>
      apply effect_overwrite
      rw [ScopeOperation.writing?, he, Option.bind_some, ha]
      rfl
  | get handle name =>
    refine effect_at? fun e _ => ?_
    unfold access Access.get
    cases w.heap.holder? e name.lexeme with
    | none => exact .nothing ScopeAnswer.noConfusion
    | some frame => exact effect_read frame name
  | getAt handle distance name =>
    refine effect_at? fun e _ => ?_
    unfold Access.getAt
    cases e.ancestor? distance with
    | none => exact .nothing ScopeAnswer.noConfusion
    | some a => exact effect_read a.inner name

end Effects

section Reading

variable {x : Writing} {handle : Nat} {e : Environment}

theorem slot?_write (existing : x.frame < w.heap.frames.size) (frame : FrameId) (name : String) :
    (w.write x).heap.slot? frame name =
      if x.frame = frame ∧ x.name = name then some x.slot else w.heap.slot? frame name :=
  Heap.slot?_setSlot w.heap existing frame x.name name x.slot

theorem answer_read (frame : FrameId) (name : Token) :
    (w.access (.read frame name) .value).1 = Slot.answer name (w.heap.slot? frame name.lexeme) := by
  unfold access Access.read
  match w.heap.slot? frame name.lexeme with
  | none | some .unassigned | some (.assigned _) => rfl

theorem at?_of_handle (he : w.handles[handle]? = some e)
    (next : Environment → ScopeAnswer × Workspace) : w.at? handle next = next e := by
  unfold at?
  rw [he]

/-- A read answers what the nearest slot of the name says. -/
theorem answer_get (he : w.handles[handle]? = some e) (name : Token) :
    (w.apply (.get handle name)).1 =
      Slot.answer name ((w.heap.holder? e name.lexeme).bind (w.heap.slot? · name.lexeme)) := by
  show (w.at? handle _).1 = _
  rw [at?_of_handle he]
  unfold access Access.get
  cases w.heap.holder? e name.lexeme with
  | none => rfl
  | some frame => exact answer_read frame name

theorem answer_getAt (he : w.handles[handle]? = some e) (distance : Nat) (name : Token) :
    (w.apply (.getAt handle distance name)).1 =
      Slot.answer name ((e.ancestor? distance).bind (w.heap.slot? ·.inner name.lexeme)) := by
  show (w.at? handle _).1 = _
  rw [at?_of_handle he]
  unfold Access.getAt
  cases e.ancestor? distance with
  | none => rfl
  | some a => exact answer_read a.inner name

/-- A test that is changed for one element, which now passes, finds that element or what it found. -/
theorem find?_changed {α : Type} (p q : α → Bool) {c : α} (hc : q c = true)
    (h : ∀ a ≠ c, q a = p a) (l : List α) : l.find? q = some c ∨ l.find? q = l.find? p := by
  induction l with
  | nil => exact .inr rfl
  | cons a l ih =>
    by_cases ha : a = c
    · rw [ha, List.find?_cons_of_pos hc]
      exact .inl rfl
    · rw [List.find?_cons, List.find?_cons, h a ha]
      cases p a with
      | true => exact .inr rfl
      | false => exact ih

/-- The nearest slot of a name is the one that is written, or the one that it was. -/
theorem nearest_write (existing : x.frame < w.heap.frames.size) (e : Environment) (y : String) :
    ((w.write x).heap.holder? e y = some x.frame ∧ y = x.name) ∨
      ((w.write x).heap.holder? e y).bind ((w.write x).heap.slot? · y) =
        (w.heap.holder? e y).bind (w.heap.slot? · y) := by
  by_cases hy : y = x.name
  · subst hy
    have hwritten : ((w.write x).heap.slot? x.frame x.name).isSome = true := by
      rw [slot?_write existing, if_pos ⟨rfl, rfl⟩]
      rfl
    have hother : ∀ frame ≠ x.frame,
        (w.write x).heap.slot? frame x.name = w.heap.slot? frame x.name := by
      intro frame hframe
      rw [slot?_write existing, if_neg fun h => hframe h.1.symm]
    have hholder : (w.write x).heap.holder? e x.name = some x.frame ∨
        (w.write x).heap.holder? e x.name = w.heap.holder? e x.name :=
      find?_changed (fun frame => (w.heap.slot? frame x.name).isSome) _ hwritten
        (fun frame hframe => congrArg Option.isSome (hother frame hframe)) e.frames
    rcases hholder with hholder | hholder
    · exact .inl ⟨hholder, rfl⟩
    · rw [hholder]
      cases hframe : w.heap.holder? e x.name with
      | none => exact .inr rfl
      | some frame =>
        by_cases hx : frame = x.frame
        · exact .inl ⟨congrArg some hx, rfl⟩
        · exact .inr (hother frame hx)
  · have hsame (frame : FrameId) : (w.write x).heap.slot? frame y = w.heap.slot? frame y := by
      rw [slot?_write existing, if_neg fun h => hy h.2.symm]
    right
    unfold Heap.holder?
    simp only [hsame]

end Reading

/-- What is to be seen of a write to one slot. A read that finds this slot nearest, or at the distance,
answers what was written, and every other read answers what it did. -/
structure Shown (w : Workspace) (x : Writing) (w' : Workspace) : Prop where
  only : w' = w.write x
  existing : x.frame < w.heap.frames.size
  slots : ∀ frame name, w'.heap.slot? frame name =
    if x.frame = frame ∧ x.name = name then some x.slot else w.heap.slot? frame name
  get : ∀ handle e, w.handles[handle]? = some e → ∀ y : Token, (w'.apply (.get handle y)).1 =
    if w'.heap.holder? e y.lexeme = some x.frame ∧ y.lexeme = x.name then Slot.answer y (some x.slot)
    else (w.apply (.get handle y)).1
  getAt : ∀ handle e, w.handles[handle]? = some e → ∀ distance (y : Token),
    (w'.apply (.getAt handle distance y)).1 =
      if (e.ancestor? distance).map Environment.inner = some x.frame ∧ y.lexeme = x.name
      then Slot.answer y (some x.slot) else (w.apply (.getAt handle distance y)).1

theorem shown_write {x : Writing} (existing : x.frame < w.heap.frames.size) :
    w.Shown x (w.write x) := by
  refine ⟨rfl, existing, slot?_write existing, fun handle e he y => ?_, fun handle e he distance y => ?_⟩
  · have he' : (w.write x).handles[handle]? = some e := he
    rw [answer_get he', answer_get he]
    split
    next h => rw [h.1, Option.bind_some, slot?_write existing, if_pos ⟨rfl, h.2.symm⟩]
    next h => rw [(nearest_write existing e y.lexeme).resolve_left h]
  · have he' : (w.write x).handles[handle]? = some e := he
    rw [answer_getAt he', answer_getAt he]
    cases ha : e.ancestor? distance with
    | none => rfl
    | some a =>
      rw [Option.bind_some, Option.bind_some, Option.map_some, slot?_write existing]
      by_cases h : x.frame = a.inner ∧ x.name = y.lexeme
      · rw [if_pos h, if_pos ⟨congrArg some h.1.symm, h.2.symm⟩]
      · rw [if_neg h, if_neg fun h' => h ⟨(Option.some.inj h'.1).symm, h'.2.symm⟩]

/-- What a workspace keeps of an earlier one: its handles, and its frames with slots that have only gone
forward. -/
structure Continues (w w' : Workspace) : Prop where
  handles : ∀ i < w.handles.size, w'.handles[i]? = w.handles[i]?
  size : w.handles.size ≤ w'.handles.size
  frames : w.heap.frames.size ≤ w'.heap.frames.size
  slots : ∀ frame name, Slot.stage (w.heap.slot? frame name) ≤ Slot.stage (w'.heap.slot? frame name)

namespace Continues

theorem refl (w : Workspace) : w.Continues w :=
  ⟨fun _ _ => rfl, Nat.le_refl _, Nat.le_refl _, fun _ _ => Nat.le_refl _⟩

theorem trans (h : w.Continues w') (h' : w'.Continues w'') : w.Continues w'' where
  handles i hi := (h'.handles i (Nat.lt_of_lt_of_le hi h.size)).trans (h.handles i hi)
  size := Nat.le_trans h.size h'.size
  frames := Nat.le_trans h.frames h'.frames
  slots frame name := Nat.le_trans (h.slots frame name) (h'.slots frame name)

theorem keep (e : Environment) : w.Continues (w.keep e).2 where
  handles i hi := by
    show (w.handles.push e)[i]? = _
    rw [Array.getElem?_push, if_neg (Nat.ne_of_lt hi)]
  size := by
    show _ ≤ (w.handles.push e).size
    rw [Array.size_push]
    exact Nat.le_succ _
  frames := Nat.le_refl _
  slots _ _ := Nat.le_refl _

theorem newFrame (outer : List FrameId) : w.Continues { w with heap := (w.heap.newFrame outer).2 } where
  handles _ _ := rfl
  size := Nat.le_refl _
  frames := by
    rw [Heap.size_newFrame]
    exact Nat.le_succ _
  slots frame name := Nat.le_of_eq (congrArg Slot.stage (w.heap.slot?_newFrame outer frame name).symm)

theorem write {x : Writing} (existing : x.frame < w.heap.frames.size)
    (forward : Slot.stage (w.heap.slot? x.frame x.name) ≤ Slot.stage (some x.slot)) :
    w.Continues (w.write x) where
  handles _ _ := rfl
  size := Nat.le_refl _
  frames := Nat.le_of_eq (Heap.size_setSlot _ _ _).symm
  slots frame name := by
    rw [slot?_write existing]
    split
    next h => rwa [h.1, h.2] at forward
    next h => exact Nat.le_refl _

end Continues

/-- What an answer says about the workspace that is left. -/
structure Exact (w : Workspace) (o : ScopeOperation) (r : ScopeAnswer × Workspace) : Prop where
  failed : ∀ error, r.1 = .failed error → r.2 = w
  frames : r.1 ≠ .done → ∀ frame < w.heap.frames.size, r.2.heap.frames[frame]? = w.heap.frames[frame]?
  done : r.1 = .done → ∃ x, o.writing? w = some x ∧ w.Shown x r.2

namespace Effect

variable {r : ScopeAnswer × Workspace}

theorem continues (h : Effect w o r) : w.Continues r.2 := by
  cases h with
  | nothing _ => exact .refl w
  | handle e => exact .keep e
  | frame outer => exact (Continues.newFrame outer).trans (.keep _)
  | write x _ existing forward => exact .write existing forward

theorem exact (h : Effect w o r) : w.Exact o r where
  failed error hr := by
    cases h with
    | nothing _ => rfl
    | handle e => cases hr
    | frame outer => cases hr
    | write x _ _ _ => cases hr
  frames hr frame hframe := by
    cases h with
    | nothing _ => rfl
    | handle e => rfl
    | frame outer =>
      show (w.heap.frames.push ∅)[frame]? = _
      rw [Array.getElem?_push, if_neg (Nat.ne_of_lt hframe)]
    | write x _ _ _ => exact absurd rfl hr
  done hr := by
    cases h with
    | nothing hanswer => exact absurd hr hanswer
    | handle e => cases hr
    | frame outer => cases hr
    | write x hx existing _ => exact ⟨x, hx, shown_write existing⟩

end Effect

end Workspace

namespace Linked

/-- The links of the frames that there were are as they were. -/
structure LinksKept (l l' : Linked) : Prop where
  size : l.frames.size ≤ l'.frames.size
  links : ∀ frame < l.frames.size, l'.link? frame = l.link? frame

namespace LinksKept

variable {l l' l'' : Linked}

theorem refl (l : Linked) : l.LinksKept l := ⟨Nat.le_refl _, fun _ _ => rfl⟩

theorem trans (h : l.LinksKept l') (h' : l'.LinksKept l'') : l.LinksKept l'' :=
  ⟨Nat.le_trans h.size h'.size, fun frame hframe =>
    (h'.links frame (Nat.lt_of_lt_of_le hframe h.size)).trans (h.links frame hframe)⟩

theorem setSlot (frame : FrameId) (name : String) (slot : Slot) :
    l.LinksKept (l.setSlot frame name slot) := by
  refine ⟨Nat.le_of_eq ?_, fun other _ => link?_setSlot l frame other name slot⟩
  unfold Linked.setSlot
  rw [Array.size_modify]

theorem keep? (frame? : Option FrameId) : l.LinksKept (l.keep? frame?).2 := by
  cases frame? with
  | none => exact .refl l
  | some frame => exact ⟨Nat.le_refl _, fun _ _ => rfl⟩

theorem add (enclosing : Option FrameId) : l.LinksKept (l.add enclosing).2 := by
  constructor
  · show _ ≤ (l.frames.push _).size
    rw [Array.size_push]
    exact Nat.le_succ _
  · intro frame hframe
    show ((l.frames.push _)[frame]?).bind _ = _
    rw [Array.getElem?_push, if_neg (Nat.ne_of_lt hframe)]
    rfl

theorem read (frame : FrameId) (name : Token) : l.LinksKept (l.read frame name).2 := by
  unfold Linked.read
  split <;> exact .refl l

theorem overwrite (frame : FrameId) (name : Token) (value : Value) :
    l.LinksKept (l.overwrite frame name value).2 := by
  unfold Linked.overwrite
  split
  · exact .setSlot _ _ _
  · exact .refl l

theorem define (frame : FrameId) (name : Token) (value : Option Value) :
    l.LinksKept (l.define frame name value).2 := by
  unfold Linked.define
  split
  · exact .refl l
  · exact .setSlot _ _ _

theorem after {name : Token} {next : FrameId → ScopeAnswer × Linked}
    (h : ∀ frame, l.LinksKept (next frame).2) (found : Option FrameId) :
    l.LinksKept (l.after name next found).2 := by
  cases found with
  | none => exact .refl l
  | some frame => exact h frame

theorem at? {handle : Nat} {next : FrameId → Option (ScopeAnswer × Linked)}
    (h : ∀ frame, ∀ r ∈ next frame, l.LinksKept r.2) :
    ∀ r ∈ l.at? handle next, l.LinksKept r.2 := by
  unfold Linked.at?
  cases l.handles[handle]? with
  | some frame => exact h frame
  | none =>
    intro r hr
    obtain rfl := Option.some.inj hr
    exact .refl l

theorem apply (o : ScopeOperation) : ∀ r ∈ l.apply o, l.LinksKept r.2 := by
  have hsome {r : ScopeAnswer × Linked} (h : l.LinksKept r.2) : ∀ r' ∈ some r, l.LinksKept r'.2 :=
    fun _ hr => Option.some.inj hr ▸ h
  cases o with
  | create => exact hsome (.add none)
  | child handle => exact at? fun frame => hsome (.add (some frame))
  | copy handle => exact at? fun frame => hsome (.keep? (some frame))
  | enclosing handle => exact at? fun frame => hsome (.keep? _)
  | ancestor handle distance => exact at? fun frame => hsome (.keep? _)
  | define handle name value => exact at? fun frame => hsome (.define frame name value)
  | bind handle name value => exact at? fun frame => hsome (.setSlot frame name _)
  | assignAt handle distance name value =>
    exact at? fun frame => hsome (.after (fun a => .overwrite a name value) _)
  | getAt handle distance name => exact at? fun frame => hsome (.after (fun a => .read a name) _)
  | assign handle name value =>
    refine at? fun frame r hr => ?_
    obtain ⟨found, _, rfl⟩ := Option.map_eq_some_iff.1 hr
    exact .after (fun a => .overwrite a name value) found
  | get handle name =>
    refine at? fun frame r hr => ?_
    obtain ⟨found, _, rfl⟩ := Option.map_eq_some_iff.1 hr
    exact .after (fun a => .read a name) found

end LinksKept

variable {l : Linked} {w : Workspace}

theorem Shows.workspace_existing (h : l.Shows w) : w.Existing := by
  intro e he
  have hlt := h.existing e he
  rwa [← Array.size_map, h.values] at hlt

theorem Shows.continues (h : l.Shows w) (operations : List ScopeOperation) :
    w.Continues (w.applyAll operations).2 := by
  induction operations generalizing l w with
  | nil => exact .refl w
  | cons o rest ih =>
    obtain ⟨_, _, hfirst⟩ := apply_agrees h o
    exact (Workspace.effect_apply h.workspace_existing o).continues.trans (ih hfirst)

theorem LinksKept.applyAll (operations : List ScopeOperation) :
    ∀ r ∈ l.applyAll operations, l.LinksKept r.2 := by
  induction operations generalizing l with
  | nil =>
    intro r hr
    obtain rfl := Option.some.inj hr
    exact .refl l
  | cons o rest ih =>
    intro r hr
    obtain ⟨first, hfirst, hr⟩ := Option.bind_eq_some_iff.1 hr
    obtain ⟨others, hothers, hr⟩ := Option.bind_eq_some_iff.1 hr
    obtain rfl := Option.some.inj hr
    exact (LinksKept.apply o first hfirst).trans (ih others hothers)

end Linked

/-- An operation that fails changes nothing. One that is done has written one slot, which is seen by the
reads that find it nearest and by no others, and any other leaves the frames that there are. Handles,
links and frames stay through any number of operations, and slots only go forward. -/
theorem operations_exact :
    Linked.initial.Shows .initial ∧ ∀ {l : Linked} {w : Workspace}, l.Shows w →
      (∀ o, w.Exact o (w.apply o)) ∧
      ∀ operations, ∃ l', l.applyAll operations = some ((w.applyAll operations).1, l') ∧
        l'.Shows (w.applyAll operations).2 ∧ w.Continues (w.applyAll operations).2 ∧
        l.LinksKept l' := by
  refine ⟨Linked.initial_shows, fun {l w} h => ⟨fun o => ?_, fun operations => ?_⟩⟩
  · exact (Workspace.effect_apply h.workspace_existing o).exact
  · obtain ⟨l', happly, hshows⟩ := Linked.applyAll_agrees h operations
    exact ⟨l', happly, hshows, h.continues operations, Linked.LinksKept.applyAll operations _ happly⟩

/-- A variable with a value, and in a scope inside, which has two handles, one of the same name without a
value. -/
def aliasedScope : List ScopeOperation :=
  let a := Token.synthetic .identifier "a" 1
  [.define 0 a (some (.boolean true)), .child 0, .copy 1, .define 1 a none]

/-- What is assigned through one handle of the scope inside is read through the other, and the variable
further out is as it was. -/
theorem operations_exact_aliased :
    let w := (Workspace.initial.applyAll aliasedScope).2
    let a := Token.synthetic .identifier "a" 1
    w.Shown ⟨1, "a", .assigned .nil⟩ (w.apply (.assign 2 a .nil)).2 ∧
      ((w.apply (.assign 2 a .nil)).2.apply (.get 1 a)).1 = .value .nil ∧
      ((w.apply (.assign 2 a .nil)).2.apply (.get 0 a)).1 = .value (.boolean true) := by
  obtain ⟨l, _, hshows⟩ := Linked.applyAll_agrees Linked.initial_shows aliasedScope
  have hstep := (operations_exact.2 hshows).1 (.assign 2 (.synthetic .identifier "a" 1) .nil)
  obtain ⟨x, hx, hshown⟩ := hstep.done rfl
  obtain rfl : (⟨1, "a", .assigned .nil⟩ : Writing) = x := Option.some.inj hx
  exact ⟨hshown, rfl, rfl⟩

end Lox
