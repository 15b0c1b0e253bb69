import Lox.Value

namespace Lox

/-- What a frame holds for a name that it has. -/
inductive Slot where
  | unassigned
  | assigned (value : Value)

abbrev Frame := Std.TreeMap String Slot

abbrev Properties := Std.TreeMap String Value

/-- All that a running program can change: the frames, the properties of instances and classes, and
how many closures there are. -/
structure Heap where
  frames : Array Frame
  objects : Array Properties
  closures : Nat

namespace Heap

def empty : Heap := ⟨#[], #[], 0⟩

/-- A new frame with no name in it, inside those of `outer`. -/
def newFrame (h : Heap) (outer : List FrameId) : Environment × Heap :=
  (⟨h.frames.size, outer⟩, { h with frames := h.frames.push ∅ })

def slot? (h : Heap) (frame : FrameId) (name : String) : Option Slot :=
  h.frames[frame]?.bind (·[name]?)

def setSlot (h : Heap) (frame : FrameId) (name : String) (slot : Slot) : Heap :=
  { h with frames := h.frames.modify frame (·.insert name slot) }

/-- The nearest frame that has the name. -/
def holder? (h : Heap) (e : Environment) (name : String) : Option FrameId :=
  e.frames.find? fun frame => (h.slot? frame name).isSome

def newObject (h : Heap) (properties : Properties) : ObjectId × Heap :=
  (h.objects.size, { h with objects := h.objects.push properties })

def property? (h : Heap) (object : ObjectId) (name : String) : Option Value :=
  h.objects[object]?.bind (·[name]?)

def setProperty (h : Heap) (object : ObjectId) (name : String) (value : Value) : Heap :=
  { h with objects := h.objects.modify object (·.insert name value) }

/-- A new frame has no name, so nothing that is read changes. -/
@[simp] theorem slot?_newFrame (h : Heap) (outer : List FrameId) (frame : FrameId) (name : String) :
    (h.newFrame outer).2.slot? frame name = h.slot? frame name := by
  unfold newFrame slot?
  rw [Array.getElem?_push]
  split
  · subst_vars; simp
  · rfl

/-- Only a frame that there is has names. -/
theorem slot?_lt {h : Heap} {frame : FrameId} {x : String} (hx : (h.slot? frame x).isSome) :
    frame < h.frames.size := by
  by_cases hlt : frame < h.frames.size
  · exact hlt
  · unfold slot? at hx
    rw [Array.getElem?_eq_none (Nat.le_of_not_lt hlt)] at hx
    cases hx

theorem size_setSlot {h : Heap} (frame : FrameId) (x : String) (slot : Slot) :
    (h.setSlot frame x slot).frames.size = h.frames.size := by
  unfold setSlot
  rw [Array.size_modify]

theorem size_newFrame {h : Heap} (outer : List FrameId) :
    (h.newFrame outer).2.frames.size = h.frames.size + 1 := by
  unfold newFrame
  rw [Array.size_push]

/-- A write shows in its own slot only. -/
theorem slot?_setSlot (h : Heap) {written : FrameId} (hw : written < h.frames.size)
    (frame : FrameId) (name other : String) (slot : Slot) :
    (h.setSlot written name slot).slot? frame other =
      if written = frame ∧ name = other then some slot else h.slot? frame other := by
  unfold setSlot slot?
  rw [Array.getElem?_modify]
  by_cases hf : written = frame
  · subst hf
    simp [Array.getElem?_eq_getElem hw, Std.TreeMap.getElem?_insert]
  · simp [hf]

/-- A write to a frame that there is not changes nothing. -/
theorem setSlot_absent {h : Heap} {frame : FrameId} (hf : ¬ frame < h.frames.size) (name : String)
    (slot : Slot) : h.setSlot frame name slot = h := by
  simp [setSlot, Array.modify, Array.modifyM, hf]

@[simp] theorem slot?_newObject (h : Heap) (properties : Properties) (frame : FrameId)
    (name : String) : (h.newObject properties).2.slot? frame name = h.slot? frame name := rfl

@[simp] theorem slot?_setProperty (h : Heap) (object : ObjectId) (name : String) (value : Value)
    (frame : FrameId) (other : String) :
    (h.setProperty object name value).slot? frame other = h.slot? frame other := rfl

/-- A write shows in its own property only. -/
theorem property?_setProperty (h : Heap) {written : ObjectId} (hw : written < h.objects.size)
    (object : ObjectId) (name other : String) (value : Value) :
    (h.setProperty written name value).property? object other =
      if written = object ∧ name = other then some value else h.property? object other := by
  unfold setProperty property?
  rw [Array.getElem?_modify]
  by_cases ho : written = object
  · subst ho
    simp [Array.getElem?_eq_getElem hw, Std.TreeMap.getElem?_insert]
  · simp [ho]

/-- A write to a table that there is not changes nothing. -/
theorem setProperty_absent {h : Heap} {object : ObjectId} (ho : ¬ object < h.objects.size)
    (name : String) (value : Value) : h.setProperty object name value = h := by
  simp [setProperty, Array.modify, Array.modifyM, ho]

/-- A new table shows under its own number only. -/
theorem property?_newObject (h : Heap) (properties : Properties) (object : ObjectId)
    (name : String) :
    (h.newObject properties).2.property? object name =
      if object = h.objects.size then properties[name]? else h.property? object name := by
  unfold newObject property?
  rw [Array.getElem?_push]
  split
  · rfl
  · rfl

end Heap

end Lox
