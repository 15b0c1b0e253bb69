import Lox.Proofs.Evaluation.Operators
import Lox.Proofs.Outcome
import Lox.Proofs.Syntax.Embedding
import Mathlib.Data.List.Forall2

/-!
Values and heaps that are alike but for the code of their functions, and the accesses that keep them
alike. `R` relates the code of one side to that of the other, and `K` says how many lines further down
the tokens of the other side may stand.
-/

namespace Lox

/-- The same closure with code that is related. -/
structure Closure.Alike (R : Lambda → Lambda → Prop) (f f' : Closure) : Prop where
  id : f'.id = f.id
  name : f'.name = f.name
  function : R f.function f'.function
  environment : f'.environment = f.environment
  isInitializer : f'.isInitializer = f.isInitializer

structure ClassBody.Alike (R : Lambda → Lambda → Prop) (b b' : ClassBody) : Prop where
  id : b'.id = b.id
  name : b'.name = b.name
  methods : ∀ x : String, Option.Rel (Closure.Alike R) b.methods[x]? b'.methods[x]?

structure Class.Alike (R : Lambda → Lambda → Prop) (c c' : Class) : Prop where
  own : c.own.Alike R c'.own
  ancestors : List.Forall₂ (ClassBody.Alike R) c.ancestors c'.ancestors

structure Instance.Alike (R : Lambda → Lambda → Prop) (o o' : Instance) : Prop where
  id : o'.id = o.id
  cls : o.cls.Alike R o'.cls

/-- The same value but for the code of functions. -/
inductive Value.Alike (R : Lambda → Lambda → Prop) : Value → Value → Prop where
  | nil : Alike R .nil .nil
  | boolean (b : Bool) : Alike R (.boolean b) (.boolean b)
  | number (x : Float) : Alike R (.number x) (.number x)
  | string (s : String) : Alike R (.string s) (.string s)
  | native (f : Native) : Alike R (.native f) (.native f)
  | function {f f' : Closure} (h : f.Alike R f') : Alike R (.function f) (.function f')
  | «class» {c c' : Class} (h : c.Alike R c') : Alike R (.class c) (.class c')
  | «instance» {o o' : Instance} (h : o.Alike R o') : Alike R (.instance o) (.instance o')

inductive Slot.Alike (R : Lambda → Lambda → Prop) : Slot → Slot → Prop where
  | unassigned : Alike R .unassigned .unassigned
  | assigned {v v' : Value} (h : v.Alike R v') : Alike R (.assigned v) (.assigned v')

/-- The same heap but for the code of functions. -/
structure Heap.Alike (R : Lambda → Lambda → Prop) (h h' : Heap) : Prop where
  frames : h'.frames.size = h.frames.size
  objects : h'.objects.size = h.objects.size
  closures : h'.closures = h.closures
  slot : ∀ frame x, Option.Rel (Slot.Alike R) (h.slot? frame x) (h'.slot? frame x)
  property : ∀ object x, Option.Rel (Value.Alike R) (h.property? object x) (h'.property? object x)

/-- The same token, as many lines further down as `K` allows. -/
def Token.Lowered (K : Nat → Prop) (t t' : Token) : Prop := ∃ k, K k ∧ t' = t.down k

/-- Two declarations of one name with code that is related. -/
structure FunctionDecl.Alike (K : Nat → Prop) (R : Lambda → Lambda → Prop) (d d' : FunctionDecl) :
    Prop where
  name : d.name.Lowered K d'.name
  function : R d.function d'.function

/-- The same fault of the same token, except for its line. -/
structure RuntimeError.Alike (K : Nat → Prop) (e e' : RuntimeError) : Prop where
  fault : e'.fault = e.fault
  token : e.token.Lowered K e'.token

/-- Two accesses that end alike on heaps that are alike. -/
abbrev Access.Agrees {α β : Type} (K : Nat → Prop) (R : Lambda → Lambda → Prop) (A : α → β → Prop)
    (q : Access α) (q' : Access β) : Prop :=
  Agree (RuntimeError.Alike K) (Heap.Alike R) A q q'

section Options

variable {α β : Type} {A B : α → β → Prop} {a? : Option α} {b? : Option β}

theorem isSome_of_rel (h : Option.Rel A a? b?) : b?.isSome = a?.isSome := by
  cases h <;> rfl

theorem rel_mono (hAB : ∀ a b, A a b → B a b) (h : Option.Rel A a? b?) : Option.Rel B a? b? := by
  cases h with
  | none => exact .none
  | some h => exact .some (hAB _ _ h)

/-- What is found first along two lists that are related is related. -/
theorem rel_findSome? {γ δ : Type} {C : γ → δ → Prop} {f : γ → Option α} {g : δ → Option β}
    (hfg : ∀ c d, C c d → Option.Rel A (f c) (g d)) {cs : List γ} {ds : List δ}
    (h : List.Forall₂ C cs ds) : Option.Rel A (cs.findSome? f) (ds.findSome? g) := by
  induction h with
  | nil => exact .none
  | @cons c d cs ds hc _ ih =>
    have hfirst := hfg c d hc
    rw [List.findSome?_cons, List.findSome?_cons]
    generalize f c = a? at hfirst ⊢
    generalize g d = b? at hfirst ⊢
    cases hfirst with
    | none => exact ih
    | some ha => exact .some ha

end Options

/-- A class takes as many arguments as its initializer does. -/
theorem Class.arity_eq_of_rel {A : Closure → Closure → Prop} {c c' : Class}
    (hA : ∀ f f', A f f' → f'.function.arity = f.function.arity)
    (h : Option.Rel A c.initializer? c'.initializer?) : c'.arity = c.arity := by
  unfold Class.arity
  generalize c.initializer? = f? at h ⊢
  generalize c'.initializer? = f?' at h ⊢
  cases h with
  | none => rfl
  | some hf => exact hA _ _ hf

section Objects

variable {A : Value → Value → Prop} {h h' : Heap}

/-- New tables that are related leave all properties related. -/
theorem Heap.rel_newObject (hsize : h'.objects.size = h.objects.size) {p p' : Properties}
    (hp : ∀ x : String, Option.Rel A p[x]? p'[x]?)
    (hh : ∀ object x, Option.Rel A (h.property? object x) (h'.property? object x))
    (object : ObjectId) (x : String) :
    Option.Rel A ((h.newObject p).2.property? object x) ((h'.newObject p').2.property? object x) := by
  rw [Heap.property?_newObject, Heap.property?_newObject, hsize]
  by_cases ho : object = h.objects.size
  · rw [if_pos ho, if_pos ho]
    exact hp x
  · rw [if_neg ho, if_neg ho]
    exact hh object x

/-- Writing values that are related to one property leaves all properties related. -/
theorem Heap.rel_setProperty (hsize : h'.objects.size = h.objects.size) {v v' : Value} (hv : A v v')
    (hh : ∀ object x, Option.Rel A (h.property? object x) (h'.property? object x))
    (written : ObjectId) (x : String) (object : ObjectId) (y : String) :
    Option.Rel A ((h.setProperty written x v).property? object y)
      ((h'.setProperty written x v').property? object y) := by
  by_cases hlt : written < h.objects.size
  · rw [Heap.property?_setProperty h hlt, Heap.property?_setProperty h' (hsize ▸ hlt)]
    by_cases hwritten : written = object ∧ x = y
    · rw [if_pos hwritten, if_pos hwritten]
      exact .some hv
    · rw [if_neg hwritten, if_neg hwritten]
      exact hh object y
  · rw [Heap.setProperty_absent hlt, Heap.setProperty_absent (hsize ▸ hlt)]
    exact hh object y

end Objects

section Mono

variable {R R' : Lambda → Lambda → Prop}

theorem Closure.Alike.mono (hR : ∀ f f', R f f' → R' f f') {f f' : Closure} (h : f.Alike R f') :
    f.Alike R' f' := ⟨h.id, h.name, hR _ _ h.function, h.environment, h.isInitializer⟩

theorem ClassBody.Alike.mono (hR : ∀ f f', R f f' → R' f f') {b b' : ClassBody}
    (h : b.Alike R b') : b.Alike R' b' :=
  ⟨h.id, h.name, fun x => rel_mono (fun _ _ => Closure.Alike.mono hR) (h.methods x)⟩

theorem Class.Alike.mono (hR : ∀ f f', R f f' → R' f f') {c c' : Class} (h : c.Alike R c') :
    c.Alike R' c' := ⟨h.own.mono hR, h.ancestors.imp fun _ _ => ClassBody.Alike.mono hR⟩

theorem Value.Alike.mono (hR : ∀ f f', R f f' → R' f f') {v v' : Value} (h : v.Alike R v') :
    v.Alike R' v' := by
  cases h with
  | nil => exact .nil
  | boolean b => exact .boolean b
  | number x => exact .number x
  | string s => exact .string s
  | native f => exact .native f
  | function h => exact .function (h.mono hR)
  | «class» h => exact .class (h.mono hR)
  | «instance» h => exact .instance ⟨h.id, h.cls.mono hR⟩

theorem Slot.Alike.mono (hR : ∀ f f', R f f' → R' f f') {s s' : Slot} (h : s.Alike R s') :
    s.Alike R' s' := by
  cases h with
  | unassigned => exact .unassigned
  | assigned h => exact .assigned (h.mono hR)

theorem Heap.Alike.mono (hR : ∀ f f', R f f' → R' f f') {h h' : Heap} (hh : h.Alike R h') :
    h.Alike R' h' :=
  ⟨hh.frames, hh.objects, hh.closures,
    fun frame x => rel_mono (fun _ _ => Slot.Alike.mono hR) (hh.slot frame x),
    fun object x => rel_mono (fun _ _ => Value.Alike.mono hR) (hh.property object x)⟩

end Mono

variable {K : Nat → Prop} {R : Lambda → Lambda → Prop}

namespace Token.Lowered

variable {t t' : Token}

theorem lexeme (h : t.Lowered K t') : t'.lexeme = t.lexeme := by
  obtain ⟨k, _, rfl⟩ := h
  rfl

theorem refl (hK : K 0) (t : Token) : t.Lowered K t := ⟨0, hK, rfl⟩

end Token.Lowered

section Values

variable {v v' w w' : Value} {c c' : Class}

theorem Value.Alike.resembles (h : v.Alike R v') : v.Resembles v' := by
  cases h with
  | nil => exact .nil
  | boolean b => exact .boolean b
  | number x => exact .number x
  | string s => exact .string s
  | native f => exact .native f
  | function h => exact .function h.id h.name
  | «class» h => exact .class h.own.id h.own.name
  | «instance» h => exact .instance h.id h.cls.own.name

theorem Class.Alike.method? (h : c.Alike R c') (x : String) :
    Option.Rel (Closure.Alike R) (c.method? x) (c'.method? x) :=
  rel_findSome? (fun _ _ hb => hb.methods x) (.cons h.own h.ancestors)

theorem Class.Alike.initializer? (h : c.Alike R c') :
    Option.Rel (Closure.Alike R) c.initializer? c'.initializer? := h.method? "init"

end Values

namespace Heap.Alike

variable {h h' : Heap}

theorem empty : Heap.empty.Alike R Heap.empty :=
  ⟨rfl, rfl, rfl, fun _ _ => .none, fun _ _ => .none⟩

theorem holder? (hh : h.Alike R h') (e : Environment) (x : String) :
    h'.holder? e x = h.holder? e x := by
  have hsome (frame : FrameId) : (h'.slot? frame x).isSome = (h.slot? frame x).isSome :=
    isSome_of_rel (hh.slot frame x)
  unfold Heap.holder?
  simp only [hsome]

theorem newFrame (hh : h.Alike R h') (outer : List FrameId) :
    (h.newFrame outer).2.Alike R (h'.newFrame outer).2 where
  frames := by simp only [Heap.newFrame, Array.size_push, hh.frames]
  objects := hh.objects
  closures := hh.closures
  slot frame x := by
    rw [Heap.slot?_newFrame, Heap.slot?_newFrame]
    exact hh.slot frame x
  property := hh.property

theorem setSlot (hh : h.Alike R h') (frame : FrameId) (x : String) {s s' : Slot}
    (hs : s.Alike R s') : (h.setSlot frame x s).Alike R (h'.setSlot frame x s') where
  frames := by simp only [Heap.setSlot, Array.size_modify, hh.frames]
  objects := hh.objects
  closures := hh.closures
  slot other y := by
    by_cases hsize : frame < h.frames.size
    · have hsize' : frame < h'.frames.size := by rw [hh.frames]; exact hsize
      rw [Heap.slot?_setSlot h hsize, Heap.slot?_setSlot h' hsize']
      by_cases hwritten : frame = other ∧ x = y
      · rw [if_pos hwritten, if_pos hwritten]
        exact .some hs
      · rw [if_neg hwritten, if_neg hwritten]
        exact hh.slot other y
    · -- There is no such frame, so nothing is written.
      have hsize' : ¬ frame < h'.frames.size := by rw [hh.frames]; exact hsize
      rw [Heap.setSlot_absent hsize, Heap.setSlot_absent hsize']
      exact hh.slot other y
  property := hh.property

theorem newObject (hh : h.Alike R h') {p p' : Properties}
    (hp : ∀ x : String, Option.Rel (Value.Alike R) p[x]? p'[x]?) :
    (h.newObject p).2.Alike R (h'.newObject p').2 where
  frames := hh.frames
  objects := by simp only [Heap.newObject, Array.size_push, hh.objects]
  closures := hh.closures
  slot := hh.slot
  property := Heap.rel_newObject hh.objects hp hh.property

theorem setProperty (hh : h.Alike R h') (object : ObjectId) (x : String) {v v' : Value}
    (hv : v.Alike R v') : (h.setProperty object x v).Alike R (h'.setProperty object x v') where
  frames := hh.frames
  objects := by simp only [Heap.setProperty, Array.size_modify, hh.objects]
  closures := hh.closures
  slot := hh.slot
  property := Heap.rel_setProperty hh.objects hv hh.property object x

end Heap.Alike

namespace Access

variable {e : Environment} {frame : FrameId} {x x' : Token} {v v' : Value}

theorem fail_agrees {α β : Type} {A : α → β → Prop} (hx : x.Lowered K x') (fault : RuntimeFault) :
    Agrees K R A (fail x fault) (fail x' fault) := .throw ⟨rfl, hx⟩

theorem read_agrees (hx : x.Lowered K x') :
    Agrees K R (Value.Alike R) (read frame x) (read frame x') := by
  intro h h' hh
  have hslot := hh.slot frame x.lexeme
  unfold read
  rw [hx.lexeme]
  generalize h.slot? frame x.lexeme = s? at hslot ⊢
  generalize h'.slot? frame x.lexeme = s?' at hslot ⊢
  cases hslot with
  | none => exact fail_agrees hx _ h h' hh
  | some hs =>
    cases hs with
    | unassigned => exact fail_agrees hx _ h h' hh
    | assigned hv => exact .ok hv hh

theorem overwrite_agrees (hx : x.Lowered K x') (hv : v.Alike R v') :
    Agrees K R Eq (overwrite frame x v) (overwrite frame x' v') := by
  intro h h' hh
  have hslot := hh.slot frame x.lexeme
  unfold overwrite
  rw [hx.lexeme]
  generalize h.slot? frame x.lexeme = s? at hslot ⊢
  generalize h'.slot? frame x.lexeme = s?' at hslot ⊢
  cases hslot with
  | none => exact fail_agrees hx _ h h' hh
  | some _ => exact .ok rfl (hh.setSlot frame x.lexeme (.assigned hv))

theorem define_agrees (hx : x.Lowered K x') {value value' : Option Value}
    (hv : Option.Rel (Value.Alike R) value value') :
    Agrees K R Eq (define e x value) (define e x' value') := by
  intro h h' hh
  have hslot := hh.slot e.inner x.lexeme
  have hnew : Slot.Alike R ((value.map Slot.assigned).getD .unassigned)
      ((value'.map Slot.assigned).getD .unassigned) := by
    cases hv with
    | none => exact .unassigned
    | some hv => exact .assigned hv
  unfold define
  rw [hx.lexeme]
  generalize h.slot? e.inner x.lexeme = s? at hslot ⊢
  generalize h'.slot? e.inner x.lexeme = s?' at hslot ⊢
  cases hslot with
  | none => exact .ok rfl (hh.setSlot e.inner x.lexeme hnew)
  | some _ => exact fail_agrees hx _ h h' hh

theorem bind_agrees (y : String) (hv : v.Alike R v') :
    Agrees K R Eq (bind e y v) (bind e y v') := fun _ _ hh =>
  .ok rfl (hh.setSlot e.inner y (.assigned hv))

theorem get_agrees (hx : x.Lowered K x') : Agrees K R (Value.Alike R) (get e x) (get e x') := by
  intro h h' hh
  unfold get
  rw [hx.lexeme, hh.holder? e x.lexeme]
  cases h.holder? e x.lexeme with
  | none => exact fail_agrees hx _ h h' hh
  | some frame => exact read_agrees hx h h' hh

theorem assign_agrees (hx : x.Lowered K x') (hv : v.Alike R v') :
    Agrees K R Eq (assign e x v) (assign e x' v') := by
  intro h h' hh
  unfold assign
  rw [hx.lexeme, hh.holder? e x.lexeme]
  cases h.holder? e x.lexeme with
  | none => exact fail_agrees hx _ h h' hh
  | some frame => exact overwrite_agrees hx hv h h' hh

theorem getAt_agrees (distance : Nat) (hx : x.Lowered K x') :
    Agrees K R (Value.Alike R) (getAt e distance x) (getAt e distance x') := by
  unfold getAt
  rw [hx.lexeme]
  cases e.ancestor? distance with
  | none => exact fail_agrees hx _
  | some ancestor => exact read_agrees hx

theorem assignAt_agrees (distance : Nat) (hx : x.Lowered K x') (hv : v.Alike R v') :
    Agrees K R Eq (assignAt e distance x v) (assignAt e distance x' v') := by
  unfold assignAt
  rw [hx.lexeme]
  cases e.ancestor? distance with
  | none => exact fail_agrees hx _
  | some ancestor => exact overwrite_agrees hx hv

theorem child_agrees (e : Environment) : Agrees K R Eq (child e) (child e) := by
  intro h h' hh
  have hsame : (h'.newFrame e.frames).1 = (h.newFrame e.frames).1 := by
    simp only [Heap.newFrame, hh.frames]
  exact .ok hsame.symm (hh.newFrame e.frames)

theorem defineAll_agrees {bindings bindings' : List (Token × Value)}
    (hb : List.Forall₂ (fun b b' => b.1.Lowered K b'.1 ∧ b.2.Alike R b'.2) bindings bindings') :
    Agrees K R Eq (defineAll e bindings) (defineAll e bindings') := by
  induction hb with
  | nil => exact .pure rfl
  | @cons b b' _ _ hb _ ih =>
    obtain ⟨x, v⟩ := b
    obtain ⟨x', v'⟩ := b'
    exact (define_agrees hb.1 (.some hb.2)).bind fun _ _ _ => ih

theorem newObject_agrees {p p' : Properties}
    (hp : ∀ x : String, Option.Rel (Value.Alike R) p[x]? p'[x]?) :
    Agrees K R Eq (newObject p) (newObject p') := by
  intro h h' hh
  have hsame : (h'.newObject p').1 = (h.newObject p).1 := hh.objects
  exact .ok hsame.symm (hh.newObject hp)

theorem setProperty_agrees (object : ObjectId) (y : String) (hv : v.Alike R v') :
    Agrees K R Eq (setProperty object y v) (setProperty object y v') := fun _ _ hh =>
  .ok rfl (hh.setProperty object y hv)

theorem newClosure_agrees (name : Option String) {f f' : Lambda} (hf : R f f') (e : Environment)
    (isInitializer : Bool) :
    Agrees K R (Closure.Alike R) (newClosure name f e isInitializer)
      (newClosure name f' e isInitializer) := by
  intro h h' hh
  have hcount : h'.closures + 1 = h.closures + 1 := by rw [hh.closures]
  exact .ok ⟨hh.closures, rfl, hf, rfl, rfl⟩ ⟨hh.frames, hh.objects, hcount, hh.slot, hh.property⟩

theorem bindMethod_agrees {f f' : Closure} (hf : f.Alike R f') {o o' : Instance}
    (ho : o.Alike R o') : Agrees K R (Closure.Alike R) (bindMethod f o) (bindMethod f' o') := by
  unfold bindMethod
  rw [hf.environment, hf.name, hf.isInitializer]
  refine (child_agrees f.environment).bind fun inner _ hinner => ?_
  subst hinner
  refine (bind_agrees "this" (.instance ho)).bind fun _ _ _ => ?_
  exact newClosure_agrees f.name hf.function inner f.isInitializer

theorem instanceProperty_agrees {o o' : Instance} (ho : o.Alike R o') (hx : x.Lowered K x') :
    Agrees K R (Value.Alike R) (instanceProperty o x) (instanceProperty o' x') := by
  intro h h' hh
  have hproperty := hh.property o.id x.lexeme
  have hmethod := ho.cls.method? x.lexeme
  unfold instanceProperty
  rw [hx.lexeme, ho.id]
  generalize h.property? o.id x.lexeme = v? at hproperty ⊢
  generalize h'.property? o.id x.lexeme = v?' at hproperty ⊢
  cases hproperty with
  | some hv => exact .ok hv hh
  | none =>
    generalize o.cls.method? x.lexeme = f? at hmethod ⊢
    generalize o'.cls.method? x.lexeme = f?' at hmethod ⊢
    cases hmethod with
    | none => exact fail_agrees hx _ h h' hh
    | some hf => exact (bindMethod_agrees hf ho).map (fun _ _ => Value.Alike.function) h h' hh

theorem classProperty_agrees {c c' : Class} (hc : c.Alike R c') (hx : x.Lowered K x') :
    Agrees K R (Value.Alike R) (classProperty c x) (classProperty c' x') := by
  intro h h' hh
  have hproperty := hh.property c.own.id x.lexeme
  unfold classProperty
  rw [hx.lexeme, hc.own.id]
  generalize h.property? c.own.id x.lexeme = v? at hproperty ⊢
  generalize h'.property? c.own.id x.lexeme = v?' at hproperty ⊢
  cases hproperty with
  | some hv => exact .ok hv hh
  | none => exact fail_agrees hx _ h h' hh

section Tables

variable {decls decls' : List FunctionDecl}

theorem rel_insert {α β : Type} {A : α → β → Prop} {t : Std.TreeMap String α}
    {t' : Std.TreeMap String β} (ht : ∀ y : String, Option.Rel A t[y]? t'[y]?) (x : String) {a : α}
    {b : β} (hab : A a b) (y : String) : Option.Rel A (t.insert x a)[y]? (t'.insert x b)[y]? := by
  rw [Std.TreeMap.getElem?_insert, Std.TreeMap.getElem?_insert]
  by_cases hy : compare x y = .eq
  · rw [if_pos hy, if_pos hy]
    exact .some hab
  · rw [if_neg hy, if_neg hy]
    exact ht y

theorem methodTable_agrees (e : Environment)
    (hd : List.Forall₂ (FunctionDecl.Alike K R) decls decls') {t t' : Std.TreeMap String Closure}
    (ht : ∀ y : String, Option.Rel (Closure.Alike R) t[y]? t'[y]?) :
    Agrees K R (fun t t' => ∀ y : String, Option.Rel (Closure.Alike R) t[y]? t'[y]?)
      (methodTable e decls t) (methodTable e decls' t') := by
  induction hd generalizing t t' with
  | nil => exact .pure ht
  | @cons d d' _ _ hd _ ih =>
    obtain ⟨x, f⟩ := d
    obtain ⟨x', f'⟩ := d'
    have hx : x'.lexeme = x.lexeme := hd.name.lexeme
    unfold methodTable
    rw [hx]
    refine (newClosure_agrees _ hd.function e _).bind fun c c' hc => ?_
    exact ih (rel_insert ht x.lexeme hc)

theorem staticTable_agrees (e : Environment)
    (hd : List.Forall₂ (FunctionDecl.Alike K R) decls decls') {t t' : Properties}
    (ht : ∀ y : String, Option.Rel (Value.Alike R) t[y]? t'[y]?) :
    Agrees K R (fun t t' => ∀ y : String, Option.Rel (Value.Alike R) t[y]? t'[y]?)
      (staticTable e decls t) (staticTable e decls' t') := by
  induction hd generalizing t t' with
  | nil => exact .pure ht
  | @cons d d' _ _ hd _ ih =>
    obtain ⟨x, f⟩ := d
    obtain ⟨x', f'⟩ := d'
    have hx : x'.lexeme = x.lexeme := hd.name.lexeme
    unfold staticTable
    rw [hx]
    refine (newClosure_agrees _ hd.function e _).bind fun c c' hc => ?_
    exact ih (rel_insert ht x.lexeme (.function hc))

end Tables

end Access

namespace Run

variable {K : Nat → Prop} {R : Lambda → Lambda → Prop} {superclass superclass' : Option Class}

theorem methodEnvironment_agrees (e : Environment)
    (hs : Option.Rel (Class.Alike R) superclass superclass') :
    Access.Agrees K R Eq (methodEnvironment e superclass) (methodEnvironment e superclass') := by
  cases hs with
  | none => exact .pure rfl
  | some hc =>
    refine (Access.child_agrees e).bind fun inner _ hinner => ?_
    subst hinner
    exact (Access.bind_agrees "super" (.class hc)).bind fun _ _ _ => .pure rfl

theorem defineClass_agrees (e : Environment) {x x' : Token} (hx : x.Lowered K x')
    (hs : Option.Rel (Class.Alike R) superclass superclass')
    {own own' statics statics' : List FunctionDecl}
    (hown : List.Forall₂ (FunctionDecl.Alike K R) own own')
    (hstatics : List.Forall₂ (FunctionDecl.Alike K R) statics statics') :
    Access.Agrees K R Eq (defineClass x superclass own statics e)
      (defineClass x' superclass' own' statics' e) := by
  have hancestors : List.Forall₂ (ClassBody.Alike R)
      ((superclass.map fun cls => cls.own :: cls.ancestors).getD [])
      ((superclass'.map fun cls => cls.own :: cls.ancestors).getD []) := by
    cases hs with
    | none => exact .nil
    | some hc => exact .cons hc.own hc.ancestors
  unfold defineClass
  refine (Access.define_agrees hx .none).bind fun _ _ _ => ?_
  refine (methodEnvironment_agrees e hs).bind fun inner _ heq => ?_
  subst heq
  refine (Access.methodTable_agrees inner hown fun _ => .none).bind fun methods methods' hmethods => ?_
  refine (Access.staticTable_agrees inner hstatics fun _ => .none).bind
    fun statics statics' hproperties => ?_
  refine (Access.newObject_agrees hproperties).bind fun id _ hid => ?_
  subst hid
  rw [hx.lexeme]
  exact Access.assign_agrees hx (.class ⟨⟨rfl, rfl, hmethods⟩, hancestors⟩)

/-- A call binds the parameters inside the environment of the closure. -/
theorem bindParameters_agrees {f f' : Closure} (he : f'.environment = f.environment)
    {vs vs' : List Value}
    (hb : List.Forall₂ (fun b b' => b.1.Lowered K b'.1 ∧ b.2.Alike R b'.2)
      (f.function.params.zip vs) (f'.function.params.zip vs')) :
    Access.Agrees K R Eq (callEnvironment f vs) (callEnvironment f' vs') := by
  unfold callEnvironment
  rw [he]
  refine (Access.child_agrees f.environment).bind fun inner _ hinner => ?_
  subst hinner
  exact (Access.defineAll_agrees hb).bind fun _ _ _ => .pure rfl

end Run

end Lox
