import Lox.Heap.Workspace
import Mathlib.Logic.Relation

/-!
Frames that are joined by links. An environment here is a frame alone, and what lies around it is found
by walking along the links. The operations on environments give the same answers as on lists of frames,
since every link leads to an older frame.
-/

namespace Lox

/-- The names of a frame, and the frame around it. -/
structure LinkedFrame where
  values : Frame
  enclosing : Option FrameId

/-- Frames with their links, and the frames that have handles, the first one first. -/
structure Linked where
  frames : Array LinkedFrame
  handles : Array FrameId

namespace Linked

def link? (l : Linked) (frame : FrameId) : Option FrameId :=
  l.frames[frame]?.bind LinkedFrame.enclosing

def slot? (l : Linked) (frame : FrameId) (name : String) : Option Slot :=
  l.frames[frame]?.bind (·.values[name]?)

def setSlot (l : Linked) (frame : FrameId) (name : String) (slot : Slot) : Linked :=
  { l with frames := l.frames.modify frame fun f => { f with values := f.values.insert name slot } }

/-- Walks outward to the first frame that has the name, and looks at no more frames than are allowed. -/
def walk (l : Linked) (name : String) : Nat → FrameId → Option (Option FrameId)
  | 0, _ => none
  | n + 1, frame =>
    match l.slot? frame name with
    | some _ => some (some frame)
    | none =>
      match l.link? frame with
      | some outer => l.walk name n outer
      | none => some none

/-- The first frame outward that has the name. A walk past more frames than there are goes in a circle
and has no result. -/
def search (l : Linked) (name : String) (frame : FrameId) : Option (Option FrameId) :=
  l.walk name (l.frames.size + 1) frame

/-- Walks along a number of links. -/
def ancestor? (l : Linked) : FrameId → Nat → Option FrameId
  | frame, 0 => some frame
  | frame, n + 1 => (l.link? frame).bind (l.ancestor? · n)

def read (l : Linked) (frame : FrameId) (name : Token) : ScopeAnswer × Linked :=
  match l.slot? frame name.lexeme with
  | some (.assigned value) => (.value value, l)
  | some .unassigned => (.failed ⟨name, .unassignedVariable name.lexeme⟩, l)
  | none => (.failed ⟨name, .undefinedVariable name.lexeme⟩, l)

def overwrite (l : Linked) (frame : FrameId) (name : Token) (value : Value) : ScopeAnswer × Linked :=
  match l.slot? frame name.lexeme with
  | some _ => (.done, l.setSlot frame name.lexeme (.assigned value))
  | none => (.failed ⟨name, .undefinedVariable name.lexeme⟩, l)

def define (l : Linked) (frame : FrameId) (name : Token) (value : Option Value) :
    ScopeAnswer × Linked :=
  match l.slot? frame name.lexeme with
  | some _ => (.failed ⟨name, .alreadyDefined name.lexeme⟩, l)
  | none => (.done, l.setSlot frame name.lexeme ((value.map Slot.assigned).getD .unassigned))

/-- What is done in the frame that a walk has led to. -/
def after (l : Linked) (name : Token) (next : FrameId → ScopeAnswer × Linked) :
    Option FrameId → ScopeAnswer × Linked
  | some frame => next frame
  | none => (.failed ⟨name, .undefinedVariable name.lexeme⟩, l)

/-- Gives a frame the next handle. -/
def keep (l : Linked) (frame : FrameId) : ScopeAnswer × Linked :=
  (.handle l.handles.size, { l with handles := l.handles.push frame })

def keep? (l : Linked) : Option FrameId → ScopeAnswer × Linked
  | some frame => l.keep frame
  | none => (.handle none, l)

/-- A new frame with a handle. -/
def add (l : Linked) (enclosing : Option FrameId) : ScopeAnswer × Linked :=
  keep { l with frames := l.frames.push ⟨∅, enclosing⟩ } l.frames.size

def at? (l : Linked) (handle : Nat) (next : FrameId → Option (ScopeAnswer × Linked)) :
    Option (ScopeAnswer × Linked) :=
  match l.handles[handle]? with
  | some frame => next frame
  | none => some (.unknownHandle, l)

/-- There is no result if a walk does not end. -/
def apply (l : Linked) : ScopeOperation → Option (ScopeAnswer × Linked)
  | .create => some (l.add none)
  | .child handle => l.at? handle fun frame => some (l.add (some frame))
  | .copy handle => l.at? handle fun frame => some (l.keep frame)
  | .enclosing handle => l.at? handle fun frame => some (l.keep? (l.link? frame))
  | .ancestor handle distance => l.at? handle fun frame => some (l.keep? (l.ancestor? frame distance))
  | .define handle name value => l.at? handle fun frame => some (l.define frame name value)
  | .bind handle name value => l.at? handle fun frame =>
    some (.done, l.setSlot frame name (.assigned value))
  | .assign handle name value => l.at? handle fun frame =>
    (l.search name.lexeme frame).map (l.after name (l.overwrite · name value))
  | .assignAt handle distance name value => l.at? handle fun frame =>
    some (l.after name (l.overwrite · name value) (l.ancestor? frame distance))
  | .get handle name => l.at? handle fun frame =>
    (l.search name.lexeme frame).map (l.after name (l.read · name))
  | .getAt handle distance name => l.at? handle fun frame =>
    some (l.after name (l.read · name) (l.ancestor? frame distance))

def applyAll (l : Linked) : List ScopeOperation → Option (List ScopeAnswer × Linked)
  | [] => some ([], l)
  | o :: rest => do
    let (answer, l) ← l.apply o
    let (answers, l) ← l.applyAll rest
    pure (answer :: answers, l)

/-- One handle, for a new outermost scope. -/
def initial : Linked := ⟨#[⟨∅, none⟩], #[0]⟩

/-- One frame is linked to another that lies around it. -/
def Encloses (l : Linked) (outer inner : FrameId) : Prop := l.link? inner = some outer

/-- The links lead from one frame to the next and end with the last one. -/
def Chain (l : Linked) : FrameId → List FrameId → Prop
  | frame, [] => l.link? frame = none
  | frame, outer :: rest => l.link? frame = some outer ∧ l.Chain outer rest

variable {l : Linked}

section Walks

variable {frame outer : FrameId} {name : String}

theorem walk_found {slot : Slot} (h : l.slot? frame name = some slot) (n : Nat) :
    l.walk name (n + 1) frame = some (some frame) := by
  rw [walk, h]

theorem walk_outward (h : l.slot? frame name = none) (hlink : l.link? frame = some outer) (n : Nat) :
    l.walk name (n + 1) frame = l.walk name n outer := by
  rw [walk, h, hlink]

theorem walk_lost (h : l.slot? frame name = none) (hlink : l.link? frame = none) (n : Nat) :
    l.walk name (n + 1) frame = some none := by
  rw [walk, h, hlink]

/-- A walk that ends is the same however many more frames are allowed. -/
theorem walk_mono {n m : Nat} {found : Option FrameId} (h : l.walk name n frame = some found)
    (hnm : n ≤ m) : l.walk name m frame = some found := by
  induction n generalizing m frame with
  | zero => cases h
  | succ n ih =>
    obtain ⟨m, rfl⟩ : ∃ k, m = k + 1 := ⟨m - 1, by omega⟩
    cases hslot : l.slot? frame name with
    | some slot => exact (walk_found hslot m).trans ((walk_found hslot n).symm.trans h)
    | none =>
      cases hlink : l.link? frame with
      | none => exact (walk_lost hslot hlink m).trans ((walk_lost hslot hlink n).symm.trans h)
      | some outer =>
        rw [walk_outward hslot hlink] at h ⊢
        exact ih h (Nat.le_of_succ_le_succ hnm)

end Walks

/-- Only a frame that exists is linked to another. -/
theorem lt_of_link? {frame outer : FrameId} (h : l.link? frame = some outer) :
    frame < l.frames.size := by
  obtain ⟨f, hf, _⟩ := Option.bind_eq_some_iff.1 h
  exact (Array.getElem?_eq_some_iff.1 hf).1

@[simp] theorem link?_setSlot (l : Linked) (written frame : FrameId) (name : String) (slot : Slot) :
    (l.setSlot written name slot).link? frame = l.link? frame := by
  unfold setSlot link?
  rw [Array.getElem?_modify]
  split
  · cases l.frames[frame]? <;> rfl
  · rfl

/-- Every link leads to an older frame. -/
def Descends (l : Linked) : Prop := ∀ frame outer, l.link? frame = some outer → outer < frame

namespace Descends

variable (h : l.Descends)
include h

/-- No links lead from a frame back to it. -/
theorem acyclic (frame : FrameId) : ¬ Relation.TransGen l.Encloses frame frame := by
  have hlt : ∀ outer inner, Relation.TransGen l.Encloses outer inner → outer < inner := by
    intro outer inner hpath
    induction hpath with
    | single hlink => exact h _ _ hlink
    | tail _ hlink ih => exact Nat.lt_trans ih (h _ _ hlink)
  exact fun hpath => Nat.lt_irrefl frame (hlt frame frame hpath)

/-- A walk looks at fewer frames than the number of the first. -/
theorem walk_ends (name : String) {n : Nat} {frame : FrameId} (hn : frame < n) :
    ∃ found, l.walk name n frame = some found := by
  induction n generalizing frame with
  | zero => exact absurd hn (Nat.not_lt_zero frame)
  | succ n ih =>
    cases hslot : l.slot? frame name with
    | some slot => exact ⟨_, walk_found hslot n⟩
    | none =>
      cases hlink : l.link? frame with
      | none => exact ⟨_, walk_lost hslot hlink n⟩
      | some outer =>
        obtain ⟨found, hfound⟩ := ih (Nat.lt_of_lt_of_le (h frame outer hlink) (Nat.le_of_lt_succ hn))
        exact ⟨found, (walk_outward hslot hlink n).trans hfound⟩

/-- Every walk ends. -/
theorem search_ends (name : String) (frame : FrameId) : ∃ found, l.search name frame = some found := by
  by_cases hframe : frame < l.frames.size + 1
  · exact h.walk_ends name hframe
  · have hlink : l.link? frame = none :=
      Option.eq_none_iff_forall_ne_some.2 fun outer hlink =>
        hframe (Nat.lt_succ_of_lt (lt_of_link? hlink))
    cases hslot : l.slot? frame name with
    | some slot => exact ⟨_, walk_found hslot _⟩
    | none => exact ⟨_, walk_lost hslot hlink _⟩

end Descends

/-- A chain is made of older frames, so only their links matter. -/
theorem Chain.congr {l l' : Linked} (hd : l.Descends) {frame : FrameId} {outer : List FrameId}
    (h : l.Chain frame outer) (hlinks : ∀ inner ≤ frame, l'.link? inner = l.link? inner) :
    l'.Chain frame outer := by
  induction outer generalizing frame with
  | nil => exact (hlinks frame (Nat.le_refl frame)).trans h
  | cons first rest ih =>
    have hlt : first < frame := hd frame first h.1
    refine ⟨(hlinks frame (Nat.le_refl frame)).trans h.1, ih h.2 fun inner hle => ?_⟩
    exact hlinks inner (Nat.le_trans hle (Nat.le_of_lt hlt))

/-- The same frames with the same handles, and an environment is a chain of links. -/
structure Shows (l : Linked) (w : Workspace) : Prop where
  values : l.frames.map LinkedFrame.values = w.heap.frames
  handles : l.handles = w.handles.map Environment.inner
  descends : l.Descends
  chain : ∀ e ∈ w.handles, l.Chain e.inner e.outer
  existing : ∀ e ∈ w.handles, e.inner < l.frames.size

namespace Chain

variable {e : Environment}

theorem link?_eq (h : l.Chain e.inner e.outer) : l.link? e.inner = e.enclosing?.map Environment.inner := by
  obtain ⟨frame, outer⟩ := e
  cases outer with
  | nil => exact h
  | cons first rest => exact h.1

theorem enclosing (h : l.Chain e.inner e.outer) {a : Environment} (ha : e.enclosing? = some a) :
    l.Chain a.inner a.outer := by
  obtain ⟨frame, outer⟩ := e
  cases outer with
  | nil => cases ha
  | cons first rest =>
    obtain rfl := Option.some.inj ha
    exact h.2

/-- Walking along links gives the ancestors in order. -/
theorem ancestor?_eq (h : l.Chain e.inner e.outer) (n : Nat) :
    l.ancestor? e.inner n = (e.ancestor? n).map Environment.inner := by
  induction n generalizing e with
  | zero => rfl
  | succ n ih =>
    unfold Linked.ancestor? Environment.ancestor?
    rw [h.link?_eq]
    cases ha : e.enclosing? with
    | none => rfl
    | some a => exact ih (h.enclosing ha)

theorem ancestor (h : l.Chain e.inner e.outer) {n : Nat} {a : Environment}
    (ha : e.ancestor? n = some a) : l.Chain a.inner a.outer := by
  induction n generalizing e with
  | zero =>
    obtain rfl := Option.some.inj ha
    exact h
  | succ n ih =>
    obtain ⟨b, hb, ha⟩ := Option.bind_eq_some_iff.1 ha
    exact ih (h.enclosing hb) ha

/-- The walk stops where the name is found first in the list of frames. -/
theorem walk_eq {w : Workspace} (hslot : ∀ frame name, l.slot? frame name = w.heap.slot? frame name)
    (h : l.Chain e.inner e.outer) (name : String) :
    l.walk name (e.outer.length + 1) e.inner = some (w.heap.holder? e name) := by
  obtain ⟨frame, outer⟩ := e
  unfold Heap.holder? Environment.frames
  induction outer generalizing frame with
  | nil =>
    cases hs : l.slot? frame name with
    | some slot => rw [walk_found hs, List.find?_cons, ← hslot, hs]; rfl
    | none => rw [walk_lost hs h, List.find?_cons, ← hslot, hs]; rfl
  | cons first rest ih =>
    cases hs : l.slot? frame name with
    | some slot => rw [walk_found hs, List.find?_cons, ← hslot, hs]; rfl
    | none =>
      have hmissing : ¬ (w.heap.slot? frame name).isSome = true := by simp [← hslot, hs]
      rw [walk_outward hs h.1]
      refine (ih first h.2).trans (congrArg some (Eq.symm ?_))
      exact List.find?_cons_of_neg hmissing

/-- A chain of older and older frames is not longer than the number of its first. -/
theorem length_le (hd : l.Descends) {frame : FrameId} {outer : List FrameId}
    (h : l.Chain frame outer) : outer.length ≤ frame := by
  induction outer generalizing frame with
  | nil => exact Nat.zero_le frame
  | cons first rest ih => exact Nat.lt_of_le_of_lt (ih h.2) (hd frame first h.1)

theorem search_eq (hd : l.Descends) {w : Workspace}
    (hslot : ∀ frame name, l.slot? frame name = w.heap.slot? frame name)
    (h : l.Chain e.inner e.outer) (name : String) :
    l.search name e.inner = some (w.heap.holder? e name) := by
  refine walk_mono (h.walk_eq hslot name) (Nat.succ_le_succ ?_)
  cases houter : e.outer with
  | nil => exact Nat.zero_le _
  | cons first rest =>
    rw [houter] at h
    exact Nat.le_of_lt (Nat.lt_of_le_of_lt (h.length_le hd) (lt_of_link? h.1))

end Chain

theorem ancestor?_le (h : l.Descends) {frame outer : FrameId} {n : Nat}
    (ho : l.ancestor? frame n = some outer) : outer ≤ frame := by
  induction n generalizing frame with
  | zero => exact Nat.le_of_eq (Option.some.inj ho).symm
  | succ n ih =>
    obtain ⟨next, hnext, ho⟩ := Option.bind_eq_some_iff.1 ho
    exact Nat.le_trans (ih ho) (Nat.le_of_lt (h frame next hnext))

/-- The same answer, and what is left shows the same. -/
def Agrees (result : Option (ScopeAnswer × Linked)) (expected : ScopeAnswer × Workspace) : Prop :=
  ∃ l, result = some (expected.1, l) ∧ l.Shows expected.2

namespace Shows

variable {w : Workspace} (h : l.Shows w)
include h

theorem slot?_eq (frame : FrameId) (name : String) : l.slot? frame name = w.heap.slot? frame name := by
  unfold Linked.slot? Heap.slot?
  rw [← h.values, Array.getElem?_map]
  cases l.frames[frame]? <;> rfl

theorem answer (a : ScopeAnswer) : Agrees (some (a, l)) (a, w) := ⟨l, rfl, h⟩

theorem setSlot (frame : FrameId) (name : String) (slot : Slot) :
    (l.setSlot frame name slot).Shows { w with heap := w.heap.setSlot frame name slot } where
  values := by
    unfold Linked.setSlot Heap.setSlot
    rw [← h.values]
    apply Array.ext_getElem?
    intro i
    simp only [Array.getElem?_map, Array.getElem?_modify]
    split <;> cases l.frames[i]? <;> rfl
  handles := h.handles
  descends inner outer hlink := h.descends inner outer (by rwa [link?_setSlot] at hlink)
  chain e he := (h.chain e he).congr h.descends fun inner _ => l.link?_setSlot frame inner name slot
  existing e he := by
    unfold Linked.setSlot
    rw [Array.size_modify]
    exact h.existing e he

theorem keep {e : Environment} (hc : l.Chain e.inner e.outer) (he : e.inner < l.frames.size) :
    Agrees (some (l.keep e.inner)) (w.keep e) := by
  refine ⟨{ l with handles := l.handles.push e.inner }, ?_, ?_⟩
  · unfold Linked.keep Workspace.keep
    rw [h.handles, Array.size_map]
  · refine ⟨h.values, ?_, h.descends, ?_, ?_⟩
    · unfold Workspace.keep
      rw [Array.map_push, h.handles]
    · intro a ha
      rcases Array.mem_push.1 ha with ha | rfl
      · exact (h.chain a ha).congr h.descends fun _ _ => rfl
      · exact hc.congr h.descends fun _ _ => rfl
    · intro a ha
      rcases Array.mem_push.1 ha with ha | rfl
      · exact h.existing a ha
      · exact he

theorem keep? {e? : Option Environment} (hc : ∀ e ∈ e?, l.Chain e.inner e.outer)
    (he : ∀ e ∈ e?, e.inner < l.frames.size) :
    Agrees (some (l.keep? (e?.map Environment.inner))) (w.keep? e?) := by
  cases e? with
  | none => exact h.answer _
  | some e => exact h.keep (hc e rfl) (he e rfl)

/-- A new frame is linked to one that is there. -/
theorem add {outer : List FrameId} {enclosing : Option FrameId}
    (hfirst : enclosing = outer.head?) (hc : ∀ first rest, outer = first :: rest → l.Chain first rest)
    (he : ∀ first ∈ enclosing, first < l.frames.size) :
    Agrees (some (l.add enclosing))
      (Workspace.keep { w with heap := (w.heap.newFrame outer).2 } (w.heap.newFrame outer).1) := by
  let l' : Linked := { l with frames := l.frames.push ⟨∅, enclosing⟩ }
  have hsize : w.heap.frames.size = l.frames.size := by rw [← h.values, Array.size_map]
  have hsize' : l'.frames.size = l.frames.size + 1 := Array.size_push _
  have hlink : ∀ inner < l.frames.size, l'.link? inner = l.link? inner := by
    intro inner hlt
    unfold Linked.link?
    rw [Array.getElem?_push, if_neg (Nat.ne_of_lt hlt)]
  have hnew : l'.link? l.frames.size = enclosing := by
    unfold Linked.link?
    rw [Array.getElem?_push, if_pos rfl]
    rfl
  have hold {frame : FrameId} {rest : List FrameId} (hlt : frame < l.frames.size)
      (hc : l.Chain frame rest) : l'.Chain frame rest :=
    hc.congr h.descends fun inner hle => hlink inner (Nat.lt_of_le_of_lt hle hlt)
  have hshows : l'.Shows { w with heap := (w.heap.newFrame outer).2 } := by
    refine ⟨?_, h.handles, ?_, fun e hmem => hold (h.existing e hmem) (h.chain e hmem), ?_⟩
    · show (l.frames.push _).map _ = w.heap.frames.push ∅
      rw [Array.map_push, h.values]
    · intro inner first hl
      by_cases hlt : inner < l.frames.size
      · rw [hlink inner hlt] at hl
        exact h.descends inner first hl
      · by_cases heq : inner = l.frames.size
        · rw [heq, hnew] at hl
          exact heq ▸ he first hl
        · have hgt : l.frames.size < inner := Nat.lt_of_le_of_ne (Nat.le_of_not_lt hlt) (Ne.symm heq)
          have hnone : l'.frames[inner]? = none := Array.getElem?_eq_none (hsize' ▸ hgt)
          unfold Linked.link? at hl
          rw [hnone] at hl
          cases hl
    · intro e hmem
      rw [hsize']
      exact Nat.lt_succ_of_lt (h.existing e hmem)
  have hchain : l'.Chain l.frames.size outer := by
    cases outer with
    | nil => exact hnew.trans hfirst
    | cons first rest => exact ⟨hnew.trans hfirst, hold (he first hfirst) (hc first rest rfl)⟩
  have hkept := @keep l' _ hshows ⟨l.frames.size, outer⟩ hchain (hsize' ▸ Nat.lt_succ_self _)
  rw [← hsize] at hkept
  unfold Linked.add
  rw [← hsize]
  exact hkept

end Shows

section Accesses

variable {w : Workspace} (h : l.Shows w)
include h

theorem at?_agrees {handle : Nat} {next : FrameId → Option (ScopeAnswer × Linked)}
    {next' : Environment → ScopeAnswer × Workspace}
    (hn : ∀ e ∈ w.handles, Agrees (next e.inner) (next' e)) :
    Agrees (l.at? handle next) (w.at? handle next') := by
  unfold Linked.at? Workspace.at?
  rw [h.handles, Array.getElem?_map]
  cases he : w.handles[handle]? with
  | none => exact h.answer .unknownHandle
  | some e => exact hn e (Array.mem_of_getElem? he)

theorem define_agrees (e : Environment) (name : Token) (value : Option Value) :
    Agrees (some (l.define e.inner name value)) (w.access (.define e name value) fun _ => .done) := by
  unfold Linked.define Workspace.access Access.define
  rw [h.slot?_eq]
  cases w.heap.slot? e.inner name.lexeme with
  | some slot => exact h.answer _
  | none => exact ⟨_, rfl, h.setSlot _ _ _⟩

theorem read_agrees (frame : FrameId) (name : Token) :
    Agrees (some (l.read frame name)) (w.access (.read frame name) .value) := by
  unfold Linked.read Workspace.access Access.read
  rw [h.slot?_eq]
  cases w.heap.slot? frame name.lexeme with
  | none => exact h.answer _
  | some slot => cases slot <;> exact h.answer _

theorem overwrite_agrees (frame : FrameId) (name : Token) (value : Value) :
    Agrees (some (l.overwrite frame name value))
      (w.access (.overwrite frame name value) fun _ => .done) := by
  unfold Linked.overwrite Workspace.access Access.overwrite
  rw [h.slot?_eq]
  cases w.heap.slot? frame name.lexeme with
  | none => exact h.answer _
  | some slot => exact ⟨_, rfl, h.setSlot _ _ _⟩

/-- Both go on with the frame that was found, or fail if there is none. -/
theorem after_agrees {α : Type} {name : Token} {next : FrameId → ScopeAnswer × Linked}
    {action : FrameId → Access α} {answer : α → ScopeAnswer}
    (hn : ∀ frame, Agrees (some (next frame)) (w.access (action frame) answer))
    (found : Option FrameId) :
    Agrees (some (l.after name next found)) (w.access (fun heap => match found with
      | some frame => action frame heap
      | none => Access.fail name (.undefinedVariable name.lexeme) heap) answer) := by
  cases found with
  | some frame => exact hn frame
  | none => exact h.answer _

end Accesses

/-- One operation on linked frames and on lists of frames. -/
theorem apply_agrees {w : Workspace} (h : l.Shows w) (o : ScopeOperation) :
    Agrees (l.apply o) (w.apply o) := by
  cases o with
  | create => exact h.add rfl nofun nofun
  | child handle =>
    refine at?_agrees h fun e he => h.add rfl ?_ ?_
    · intro first rest hf
      obtain ⟨rfl, rfl⟩ := List.cons.inj hf
      exact h.chain e he
    · intro first hfirst
      obtain rfl := Option.some.inj hfirst
      exact h.existing e he
  | copy handle => exact at?_agrees h fun e he => h.keep (h.chain e he) (h.existing e he)
  | enclosing handle =>
    refine at?_agrees h fun e he => ?_
    have hchain := h.chain e he
    rw [hchain.link?_eq]
    refine h.keep? (fun a ha => hchain.enclosing ha) fun a ha => ?_
    have hlink : l.link? e.inner = some a.inner := by rw [hchain.link?_eq, ha]; rfl
    exact Nat.lt_trans (h.descends _ _ hlink) (h.existing e he)
  | ancestor handle distance =>
    refine at?_agrees h fun e he => ?_
    have hchain := h.chain e he
    rw [hchain.ancestor?_eq]
    refine h.keep? (fun a ha => hchain.ancestor ha) fun a ha => ?_
    have hwalk : l.ancestor? e.inner distance = some a.inner := by rw [hchain.ancestor?_eq, ha]; rfl
    exact Nat.lt_of_le_of_lt (ancestor?_le h.descends hwalk) (h.existing e he)
  | define handle name value => exact at?_agrees h fun e _ => define_agrees h e name value
  | bind handle name value => exact at?_agrees h fun e _ => ⟨_, rfl, h.setSlot _ _ _⟩
  | assign handle name value =>
    refine at?_agrees h fun e he => ?_
    rw [(h.chain e he).search_eq h.descends h.slot?_eq]
    exact after_agrees h (fun frame => overwrite_agrees h frame name value) _
  | assignAt handle distance name value =>
    refine at?_agrees h fun e he => ?_
    rw [(h.chain e he).ancestor?_eq]
    unfold Access.assignAt
    cases e.ancestor? distance with
    | some a => exact overwrite_agrees h a.inner name value
    | none => exact h.answer _
  | get handle name =>
    refine at?_agrees h fun e he => ?_
    rw [(h.chain e he).search_eq h.descends h.slot?_eq]
    exact after_agrees h (fun frame => read_agrees h frame name) _
  | getAt handle distance name =>
    refine at?_agrees h fun e he => ?_
    rw [(h.chain e he).ancestor?_eq]
    unfold Access.getAt
    cases e.ancestor? distance with
    | some a => exact read_agrees h a.inner name
    | none => exact h.answer _

/-- Any number of operations give the same answers on linked frames and on lists of frames. -/
theorem applyAll_agrees {w : Workspace} (h : l.Shows w) (operations : List ScopeOperation) :
    ∃ l', l.applyAll operations = some ((w.applyAll operations).1, l') ∧
      l'.Shows (w.applyAll operations).2 := by
  induction operations generalizing l w with
  | nil => exact ⟨l, rfl, h⟩
  | cons o rest ih =>
    obtain ⟨l₁, hfirst, h₁⟩ := apply_agrees h o
    obtain ⟨l₂, hrest, h₂⟩ := ih h₁
    refine ⟨l₂, ?_, h₂⟩
    unfold Linked.applyAll
    rw [hfirst]
    show (l₁.applyAll rest).bind _ = _
    rw [hrest]
    rfl

theorem initial_shows : initial.Shows .initial where
  values := by simp [initial, Workspace.initial, Heap.newFrame, Heap.empty]
  handles := by simp [initial, Workspace.initial, Heap.newFrame, Heap.empty]
  descends frame outer h := by
    unfold initial link? at h
    cases frame with
    | zero => cases h
    | succ frame => cases h
  chain e he := by
    obtain rfl : e = ⟨0, []⟩ := by simpa [Workspace.initial, Heap.newFrame, Heap.empty] using he
    rfl
  existing e he := by
    obtain rfl : e = ⟨0, []⟩ := by simpa [Workspace.initial, Heap.newFrame, Heap.empty] using he
    exact Nat.zero_lt_one

end Linked

end Lox
