import Lox.Evaluation
import Lox.Proofs.Evaluation.Accesses
import Lox.Proofs.Evaluation.Likeness
import Lox.Proofs.Renaming.Scopes

/-!
Values and heaps of two runs, of which the second one has another name for a variable. Some of the
frames are marked, those of the scopes that have the variable. In a marked frame the two names have
changed places, and code is related if it matches within the marks of the frames that it runs in.
-/

namespace Lox

/-- Another name for a variable, the hops of the text that has it, and the tokens that are spelled
differently. -/
structure Change extends Renaming where
  hops : NodeId → Option Nat
  respelled : Token → Prop

/-- Outside of marked scopes tokens are the same. In a marked scope the old name has become the new
one. -/
inductive Token.Renamed (c : Change) : Bool → Token → Token → Prop where
  | unmarked (t : Token) : Token.Renamed c false t t
  | other {t} (hold : t.lexeme ≠ c.old) (hnew : t.lexeme ≠ c.new) : Token.Renamed c true t t
  | respelled {t} (hold : t.lexeme = c.old) (h : c.respelled t) :
    Token.Renamed c true t { t with lexeme := c.new }

def Change.matching (c : Change) : Matching := ⟨c.hops, Token.Renamed c⟩

/-- The frames of an environment have these marks, and the global one has none. -/
def Environment.Marked (w : List Bool) (e : Environment) (Γ : List Bool) : Prop :=
  List.Forall₂ (fun frame m => w[frame]? = some m) e.frames (Γ ++ [false])

/-- The same closure with code that matches in its environment. The code of a method that is not bound
has one scope more around it, that of the receiver. -/
structure Closure.Renamed (c : Change) (w receiver : List Bool) (f f' : Closure) : Prop where
  id : f'.id = f.id
  name : f'.name = f.name
  environment : f'.environment = f.environment
  isInitializer : f'.isInitializer = f.isInitializer
  function : ∃ Γ, f.environment.Marked w Γ ∧
    f.function.Matched c.matching (receiver ++ Γ) f'.function

structure ClassBody.Renamed (c : Change) (w : List Bool) (b b' : ClassBody) : Prop where
  id : b'.id = b.id
  name : b'.name = b.name
  methods : ∀ x : String, Option.Rel (Closure.Renamed c w [false]) b.methods[x]? b'.methods[x]?

structure Class.Renamed (c : Change) (w : List Bool) (cls cls' : Class) : Prop where
  own : cls.own.Renamed c w cls'.own
  ancestors : List.Forall₂ (ClassBody.Renamed c w) cls.ancestors cls'.ancestors

structure Instance.Renamed (c : Change) (w : List Bool) (o o' : Instance) : Prop where
  id : o'.id = o.id
  cls : o.cls.Renamed c w o'.cls

/-- The same value but for the code of functions. -/
inductive Value.Renamed (c : Change) (w : List Bool) : Value → Value → Prop where
  | nil : Renamed c w .nil .nil
  | boolean (b : Bool) : Renamed c w (.boolean b) (.boolean b)
  | number (x : Float) : Renamed c w (.number x) (.number x)
  | string (s : String) : Renamed c w (.string s) (.string s)
  | native (f : Native) : Renamed c w (.native f) (.native f)
  | function {f f' : Closure} (h : f.Renamed c w [] f') : Renamed c w (.function f) (.function f')
  | «class» {cls cls' : Class} (h : cls.Renamed c w cls') : Renamed c w (.class cls) (.class cls')
  | «instance» {o o' : Instance} (h : o.Renamed c w o') : Renamed c w (.instance o) (.instance o')

inductive Slot.Renamed (c : Change) (w : List Bool) : Slot → Slot → Prop where
  | unassigned : Renamed c w .unassigned .unassigned
  | assigned {v v' : Value} (h : v.Renamed c w v') : Renamed c w (.assigned v) (.assigned v')

/-- The same heap but for the names in marked frames and the code of functions. Each frame has a
mark. -/
structure Heap.Renamed (c : Change) (w : List Bool) (h h' : Heap) : Prop where
  global : w[0]? = some false
  frames : h.frames.size = w.length
  frames' : h'.frames.size = w.length
  objects : h'.objects.size = h.objects.size
  closures : h'.closures = h.closures
  slot : ∀ frame m, w[frame]? = some m → ∀ x,
    Option.Rel (Slot.Renamed c w) (h.slot? frame x) (h'.slot? frame (c.key m x))
  property : ∀ object x,
    Option.Rel (Value.Renamed c w) (h.property? object x) (h'.property? object x)

variable {c : Change} {w w' : List Bool} {m : Bool}

namespace Token.Renamed

variable {t t' : Token}

theorem lexeme (h : t.Renamed c m t') : t'.lexeme = c.key m t.lexeme := by
  cases h with
  | unmarked t => rfl
  | other hold hnew => exact (Renaming.key_plain hold hnew).symm
  | respelled hold _ =>
    rw [hold]
    exact (Equiv.swap_apply_left c.old c.new).symm

theorem line (h : t.Renamed c m t') : t'.line = t.line := by
  cases h <;> rfl

theorem same (h : t.Renamed c false t') : t' = t := by
  cases h
  rfl

/-- A name that is not changed. -/
theorem plain (m : Bool) (hold : t.lexeme ≠ c.old) (hnew : t.lexeme ≠ c.new) : t.Renamed c m t := by
  cases m with
  | false => exact .unmarked t
  | true => exact .other hold hnew

/-- `this` and `super` are not names of variables. -/
theorem implicit (m : Bool) (h : Implicit t.lexeme) : t.Renamed c m t := by
  rcases h with h | h
  · exact plain m (h ▸ c.oldName.1.symm) (h ▸ c.newName.1.symm)
  · exact plain m (h ▸ c.oldName.2.symm) (h ▸ c.newName.2.symm)

end Token.Renamed

theorem key_implicit {x : String} (h : Implicit x) : c.key m x = x := by
  rcases h with rfl | rfl
  · exact Renaming.key_this
  · exact Renaming.key_super

/-! Marks stay as they are, so what is related stays so when frames are added. -/

section Mono

variable (hw : w <+: w')
include hw

theorem getElem?_prefix {i : Nat} {m : Bool} (h : w[i]? = some m) : w'[i]? = some m := by
  obtain ⟨more, rfl⟩ := hw
  rw [List.getElem?_append_left (List.getElem?_eq_some_iff.1 h).1, h]

theorem Environment.Marked.mono {e : Environment} {Γ : List Bool} (h : e.Marked w Γ) :
    e.Marked w' Γ := h.imp fun _ _ => getElem?_prefix hw

theorem Closure.Renamed.mono {receiver : List Bool} {f f' : Closure}
    (h : f.Renamed c w receiver f') : f.Renamed c w' receiver f' :=
  let ⟨Γ, hmarked, hmatched⟩ := h.function
  ⟨h.id, h.name, h.environment, h.isInitializer, Γ, hmarked.mono hw, hmatched⟩

theorem ClassBody.Renamed.mono {b b' : ClassBody} (h : b.Renamed c w b') : b.Renamed c w' b' :=
  ⟨h.id, h.name, fun x => rel_mono (fun _ _ => Closure.Renamed.mono hw) (h.methods x)⟩

theorem Class.Renamed.mono {cls cls' : Class} (h : cls.Renamed c w cls') : cls.Renamed c w' cls' :=
  ⟨h.own.mono hw, h.ancestors.imp fun _ _ => ClassBody.Renamed.mono hw⟩

theorem Value.Renamed.mono {v v' : Value} (h : v.Renamed c w v') : v.Renamed c w' v' := by
  cases h with
  | nil => exact .nil
  | boolean b => exact .boolean b
  | number x => exact .number x
  | string s => exact .string s
  | native f => exact .native f
  | function h => exact .function (h.mono hw)
  | «class» h => exact .class (h.mono hw)
  | «instance» h => exact .instance ⟨h.id, h.cls.mono hw⟩

theorem Slot.Renamed.mono {s s' : Slot} (h : s.Renamed c w s') : s.Renamed c w' s' := by
  cases h with
  | unassigned => exact .unassigned
  | assigned h => exact .assigned (h.mono hw)

end Mono

section Environments

variable {e : Environment} {Γ : List Bool}

/-- The frame in which a name is looked up has the mark of its scope. -/
theorem Environment.Marked.ancestor (h : e.Marked w Γ) {distance : Nat} {target : Environment}
    (ht : e.ancestor? distance = some target) :
    w[target.inner]? = some ((Γ[distance]?).getD false) := by
  have hframe : e.frames[distance]? = some target.inner := by
    rw [← Environment.ancestor?_inner, ht]
    rfl
  have hall : e.frames.map (w[·]?) = (Γ ++ [false]).map some := by
    rw [← List.forall₂_eq_eq_eq, List.forall₂_map_left_iff, List.forall₂_map_right_iff]
    exact h
  have hmark := congrArg (·[distance]?) hall
  simp only [List.getElem?_map, hframe, Option.map_some] at hmark
  cases hm : (Γ ++ [false])[distance]? with
  | none =>
    rw [hm] at hmark
    cases hmark
  | some m =>
    rw [hm] at hmark
    rw [Option.some.inj hmark]
    congr 1
    by_cases hlt : distance < Γ.length
    · rw [List.getElem?_append_left hlt] at hm
      rw [hm]
      rfl
    · -- What lies outside of all scopes is the global frame.
      have hle := Nat.le_of_not_lt hlt
      rw [List.getElem?_append_right hle] at hm
      rw [List.getElem?_eq_none hle]
      rw [List.getElem?_singleton] at hm
      split at hm
      · exact (Option.some.inj hm).symm
      · cases hm

theorem Environment.Marked.inner (h : e.Marked w Γ) : w[e.inner]? = some (Γ.headD false) := by
  have hself : e.ancestor? 0 = some e := rfl
  have hzero := h.ancestor hself
  rwa [← List.head?_eq_getElem?, ← List.headD_eq_head?_getD] at hzero

/-- A frame more, for the scope that is entered. -/
theorem Environment.Marked.child (h : e.Marked w Γ) (m : Bool) :
    Environment.Marked (w ++ [m]) ⟨w.length, e.frames⟩ (m :: Γ) :=
  .cons List.getElem?_concat_length (h.mono (List.prefix_append w [m]))

theorem Environment.Marked.global (h : w[0]? = some false) : Environment.global.Marked w [] :=
  .cons h .nil

end Environments

section Values

variable {v v' u u' : Value} {cls cls' : Class}

theorem Value.Renamed.resembles (h : v.Renamed c w v') : v.Resembles v' := by
  cases h with
  | nil => exact .nil
  | boolean b => exact .boolean b
  | number x => exact .number x
  | string s => exact .string s
  | native f => exact .native f
  | function h => exact .function h.id h.name
  | «class» h => exact .class h.own.id h.own.name
  | «instance» h => exact .instance h.id h.cls.own.name

/-- Functions that match have as many parameters. -/
theorem Lambda.Matched.arity {M : Matching} {Γ : List Bool} {f f' : Lambda}
    (h : f.Matched M Γ f') : f'.arity = f.arity := by
  cases h with
  | mk hp _ => exact hp.length_eq.symm

theorem Closure.Renamed.arity {receiver : List Bool} {f f' : Closure}
    (h : f.Renamed c w receiver f') : f'.function.arity = f.function.arity :=
  let ⟨_, _, hmatched⟩ := h.function
  hmatched.arity

theorem Class.Renamed.method? (h : cls.Renamed c w cls') (x : String) :
    Option.Rel (Closure.Renamed c w [false]) (cls.method? x) (cls'.method? x) :=
  rel_findSome? (fun _ _ hb => hb.methods x) (.cons h.own h.ancestors)

theorem Class.Renamed.initializer? (h : cls.Renamed c w cls') :
    Option.Rel (Closure.Renamed c w [false]) cls.initializer? cls'.initializer? := h.method? "init"

theorem Class.Renamed.arity (h : cls.Renamed c w cls') : cls'.arity = cls.arity :=
  Class.arity_eq_of_rel (fun _ _ => Closure.Renamed.arity) h.initializer?

end Values

namespace Heap.Renamed

variable {h h' : Heap}

theorem slot_isSome (hh : h.Renamed c w h') {frame : FrameId} (hm : w[frame]? = some m)
    (x : String) : (h'.slot? frame (c.key m x)).isSome = (h.slot? frame x).isSome :=
  isSome_of_rel (hh.slot frame m hm x)

/-- A frame more, which is empty in both heaps and may be marked. -/
theorem newFrame (hh : h.Renamed c w h') (outer : List FrameId) (m : Bool) :
    (h.newFrame outer).2.Renamed c (w ++ [m]) (h'.newFrame outer).2 where
  global := getElem?_prefix (List.prefix_append w [m]) hh.global
  frames := by simp only [Heap.newFrame, Array.size_push, hh.frames, List.length_append,
    List.length_singleton]
  frames' := by simp only [Heap.newFrame, Array.size_push, hh.frames', List.length_append,
    List.length_singleton]
  objects := hh.objects
  closures := hh.closures
  slot frame k hk x := by
    rw [Heap.slot?_newFrame, Heap.slot?_newFrame]
    by_cases hlt : frame < w.length
    · rw [List.getElem?_append_left hlt] at hk
      exact rel_mono (fun _ _ => Slot.Renamed.mono (List.prefix_append w [m])) (hh.slot frame k hk x)
    · have hnone {g : Heap} (hg : g.frames.size = w.length) (y : String) : g.slot? frame y = none := by
        unfold Heap.slot?
        rw [Array.getElem?_eq_none (hg ▸ Nat.le_of_not_lt hlt)]
        rfl
      rw [hnone hh.frames, hnone hh.frames']
      exact .none
  property object x :=
    rel_mono (fun _ _ => Value.Renamed.mono (List.prefix_append w [m])) (hh.property object x)

/-- A name of a marked frame is written under the name that it has there. -/
theorem setSlot (hh : h.Renamed c w h') {frame : FrameId} (hm : w[frame]? = some m) (x : String)
    {s s' : Slot} (hs : s.Renamed c w s') :
    (h.setSlot frame x s).Renamed c w (h'.setSlot frame (c.key m x) s') where
  global := hh.global
  frames := by rw [Heap.size_setSlot, hh.frames]
  frames' := by rw [Heap.size_setSlot, hh.frames']
  objects := hh.objects
  closures := hh.closures
  slot other k hk y := by
    have hsize := (List.getElem?_eq_some_iff.1 hm).1
    rw [Heap.slot?_setSlot h (by rw [hh.frames]; exact hsize),
      Heap.slot?_setSlot h' (by rw [hh.frames']; exact hsize)]
    have hsame : frame = other ∧ c.key m x = c.key k y ↔ frame = other ∧ x = y := by
      refine and_congr_right fun heq => ?_
      subst heq
      obtain rfl := Option.some.inj (hm.symm.trans hk)
      exact (c.key m).injective.eq_iff
    by_cases hwritten : frame = other ∧ x = y
    · rw [if_pos hwritten, if_pos (hsame.2 hwritten)]
      exact .some hs
    · rw [if_neg hwritten, if_neg (mt hsame.1 hwritten)]
      exact hh.slot other k hk y
  property := hh.property

theorem newObject (hh : h.Renamed c w h') {p p' : Properties}
    (hp : ∀ x : String, Option.Rel (Value.Renamed c w) p[x]? p'[x]?) :
    (h.newObject p).2.Renamed c w (h'.newObject p').2 where
  global := hh.global
  frames := hh.frames
  frames' := hh.frames'
  objects := by simp only [Heap.newObject, Array.size_push, hh.objects]
  closures := hh.closures
  slot := hh.slot
  property := Heap.rel_newObject hh.objects hp hh.property

theorem setProperty (hh : h.Renamed c w h') (object : ObjectId) (x : String) {v v' : Value}
    (hv : v.Renamed c w v') :
    (h.setProperty object x v).Renamed c w (h'.setProperty object x v') where
  global := hh.global
  frames := hh.frames
  frames' := hh.frames'
  objects := by simp only [Heap.setProperty, Array.size_modify, hh.objects]
  closures := hh.closures
  slot := hh.slot
  property := Heap.rel_setProperty hh.objects hv hh.property object x

end Heap.Renamed

end Lox
