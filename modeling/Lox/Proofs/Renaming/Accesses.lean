import Lox.Proofs.Outcome
import Lox.Proofs.Renaming.Heaps

/-!
Accesses to two heaps, of which the second one has another name for a variable. They end alike, and
the frames that they add have the marks of the scopes that are entered.
-/

namespace Lox

/-- The fault with another name in its message. -/
def RuntimeFault.naming (x : String) : RuntimeFault → RuntimeFault
  | .undefinedVariable _ => .undefinedVariable x
  | .unassignedVariable _ => .unassignedVariable x
  | .alreadyDefined _ => .alreadyDefined x
  | fault => fault

/-- The same error, unless it is about the variable. Then the new name stands in its token and in its
message. -/
inductive RuntimeError.Renamed (c : Change) : RuntimeError → RuntimeError → Prop where
  | same (e : RuntimeError) : Renamed c e e
  | respelled {t : Token} (fault : RuntimeFault) (hold : t.lexeme = c.old) (h : c.respelled t) :
    Renamed c ⟨t, fault⟩ ⟨{ t with lexeme := c.new }, fault.naming c.new⟩

/-- Two accesses that end alike on heaps that are alike. -/
abbrev Access.Meet {α β : Type} (c : Change) (A : List Bool → α → β → Prop) (w : List Bool)
    (q : Access α) (q' : Access β) : Prop :=
  Lox.Meet (RuntimeError.Renamed c) (Heap.Renamed c) A w q q'

variable {c : Change} {w : List Bool} {m : Bool} {Γ : List Bool}

theorem fault_renamed {t t' : Token} (ht : t.Renamed c m t') (fault : String → RuntimeFault)
    (hf : ∀ x y, (fault x).naming y = fault y) :
    RuntimeError.Renamed c ⟨t, fault t.lexeme⟩ ⟨t', fault t'.lexeme⟩ := by
  cases ht with
  | unmarked | other => exact .same _
  | respelled hold h =>
    have hrenamed := RuntimeError.Renamed.respelled (fault t.lexeme) hold h
    rwa [hf] at hrenamed

namespace Access

variable {e : Environment} {frame : FrameId} {x x' : Token} {v v' : Value}

theorem read_meets (hm : w[frame]? = some m) (hx : x.Renamed c m x') :
    Access.Meet c (Value.Renamed c) w (read frame x) (read frame x') := by
  refine .of_agree fun h h' hh => ?_
  have hslot := hh.slot frame m hm x.lexeme
  unfold read
  rw [← hx.lexeme] at hslot
  generalize h.slot? frame x.lexeme = s? at hslot ⊢
  generalize h'.slot? frame x'.lexeme = s?' at hslot ⊢
  cases hslot with
  | none => exact .error (fault_renamed hx .undefinedVariable fun _ _ => rfl) hh
  | some hs =>
    cases hs with
    | unassigned => exact .error (fault_renamed hx .unassignedVariable fun _ _ => rfl) hh
    | assigned hv => exact .ok hv hh

theorem overwrite_meets (hm : w[frame]? = some m) (hx : x.Renamed c m x') (hv : v.Renamed c w v') :
    Access.Meet c (fun _ => Eq) w (overwrite frame x v) (overwrite frame x' v') := by
  refine .of_agree fun h h' hh => ?_
  have hslot := hh.slot frame m hm x.lexeme
  have hset := hh.setSlot hm x.lexeme (.assigned hv)
  unfold overwrite
  rw [← hx.lexeme] at hslot hset
  generalize h.slot? frame x.lexeme = s? at hslot ⊢
  generalize h'.slot? frame x'.lexeme = s?' at hslot ⊢
  cases hslot with
  | none => exact .error (fault_renamed hx .undefinedVariable fun _ _ => rfl) hh
  | some _ => exact .ok rfl hset

theorem define_meets (he : e.Marked w Γ) (hx : x.Renamed c (Γ.headD false) x')
    {value value' : Option Value} (hv : Option.Rel (Value.Renamed c w) value value') :
    Access.Meet c (fun _ => Eq) w (define e x value) (define e x' value') := by
  refine .of_agree fun h h' hh => ?_
  have hnew : Slot.Renamed c w ((value.map Slot.assigned).getD .unassigned)
      ((value'.map Slot.assigned).getD .unassigned) := by
    cases hv with
    | none => exact .unassigned
    | some hv => exact .assigned hv
  have hslot := hh.slot e.inner _ he.inner x.lexeme
  have hset := hh.setSlot he.inner x.lexeme hnew
  unfold define
  rw [← hx.lexeme] at hslot hset
  generalize h.slot? e.inner x.lexeme = s? at hslot ⊢
  generalize h'.slot? e.inner x'.lexeme = s?' at hslot ⊢
  cases hslot with
  | none => exact .ok rfl hset
  | some _ => exact .error (fault_renamed hx .alreadyDefined fun _ _ => rfl) hh

theorem bind_meets (he : e.Marked w Γ) {y : String} (hy : Implicit y) (hv : v.Renamed c w v') :
    Access.Meet c (fun _ => Eq) w (bind e y v) (bind e y v') := by
  refine .of_agree fun h h' hh => ?_
  have hset := hh.setSlot he.inner y (.assigned hv)
  rw [key_implicit hy] at hset
  exact .ok rfl hset

/-- The global frame is never marked. -/
theorem holder?_global {h h' : Heap} (hh : h.Renamed c w h') (y : String) :
    h'.holder? .global y = h.holder? .global y := by
  have hsome : (h'.slot? 0 y).isSome = (h.slot? 0 y).isSome := hh.slot_isSome hh.global y
  unfold Heap.holder? Environment.global Environment.frames
  rw [List.find?_singleton, List.find?_singleton, hsome]

theorem get_global_meets (x : Token) :
    Access.Meet c (Value.Renamed c) w (get .global x) (get .global x) := by
  intro h h' hh
  unfold get
  rw [holder?_global hh]
  cases hholder : h.holder? .global x.lexeme with
  | none => exact ⟨w, List.prefix_refl w, .error (.same _) hh⟩
  | some frame =>
    obtain rfl := List.mem_singleton.1 (List.mem_of_find?_eq_some hholder)
    exact read_meets hh.global (.unmarked x) h h' hh

theorem assign_global_meets (x : Token) (hv : v.Renamed c w v') :
    Access.Meet c (fun _ => Eq) w (assign .global x v) (assign .global x v') := by
  intro h h' hh
  unfold assign
  rw [holder?_global hh]
  cases hholder : h.holder? .global x.lexeme with
  | none => exact ⟨w, List.prefix_refl w, .error (.same _) hh⟩
  | some frame =>
    obtain rfl := List.mem_singleton.1 (List.mem_of_find?_eq_some hholder)
    exact overwrite_meets hh.global (.unmarked x) hv h h' hh

theorem getAt_meets (he : e.Marked w Γ) (distance : Nat)
    (hx : x.Renamed c ((Γ[distance]?).getD false) x') :
    Access.Meet c (Value.Renamed c) w (getAt e distance x) (getAt e distance x') := by
  unfold getAt
  cases ht : e.ancestor? distance with
  | none => exact .of_agree (.throw (fault_renamed hx .undefinedVariable fun _ _ => rfl))
  | some target => exact read_meets (he.ancestor ht) hx

theorem assignAt_meets (he : e.Marked w Γ) (distance : Nat)
    (hx : x.Renamed c ((Γ[distance]?).getD false) x') (hv : v.Renamed c w v') :
    Access.Meet c (fun _ => Eq) w (assignAt e distance x v) (assignAt e distance x' v') := by
  unfold assignAt
  cases ht : e.ancestor? distance with
  | none => exact .of_agree (.throw (fault_renamed hx .undefinedVariable fun _ _ => rfl))
  | some target => exact overwrite_meets (he.ancestor ht) hx hv

/-- The new frame has the mark of the scope that is entered. -/
theorem child_meets (he : e.Marked w Γ) (m : Bool) :
    Access.Meet c (fun w inner inner' => inner' = inner ∧ inner.Marked w (m :: Γ)) w (child e)
      (child e) := by
  intro h h' hh
  refine ⟨w ++ [m], List.prefix_append w [m], .ok ⟨?_, ?_⟩ (hh.newFrame e.frames m)⟩
  · show Environment.mk h'.frames.size e.frames = ⟨h.frames.size, e.frames⟩
    rw [hh.frames', hh.frames]
  · show Environment.Marked _ ⟨h.frames.size, e.frames⟩ _
    rw [hh.frames]
    exact he.child m

/-- A token and a value that are bound, as they are in the two runs. -/
structure Bound (c : Change) (w : List Bool) (m : Bool) (b b' : Token × Value) : Prop where
  name : b.1.Renamed c m b'.1
  value : b.2.Renamed c w b'.2

theorem bound_zip {names names' : List Token} (hn : List.Forall₂ (Token.Renamed c m) names names')
    {vs vs' : List Value} (hvs : List.Forall₂ (Value.Renamed c w) vs vs') :
    List.Forall₂ (Bound c w m) (names.zip vs) (names'.zip vs') := by
  induction hn generalizing vs vs' with
  | nil => exact .nil
  | cons hx _ ih =>
    cases hvs with
    | nil => exact .nil
    | cons hv hvs => exact .cons ⟨hx, hv⟩ (ih hvs)

theorem defineAll_meets {bindings bindings' : List (Token × Value)} (he : e.Marked w (m :: Γ))
    (hb : List.Forall₂ (Bound c w m) bindings bindings') :
    Access.Meet c (fun _ => Eq) w (defineAll e bindings) (defineAll e bindings') := by
  induction bindings generalizing w bindings' with
  | nil =>
    cases hb
    exact .pure rfl
  | cons b rest ih =>
    cases hb with
    | @cons _ b' _ rest' hb hrest =>
      obtain ⟨y, u⟩ := b
      obtain ⟨y', u'⟩ := b'
      refine (define_meets he hb.name (.some hb.value)).bind fun w' hw _ _ _ => ?_
      exact ih (he.mono hw) (hrest.imp fun _ _ hb => ⟨hb.name, hb.value.mono hw⟩)

theorem newObject_meets {p p' : Properties}
    (hp : ∀ y : String, Option.Rel (Value.Renamed c w) p[y]? p'[y]?) :
    Access.Meet c (fun _ => Eq) w (newObject p) (newObject p') := by
  refine .of_agree fun h h' hh => ?_
  have hsame : (h'.newObject p').1 = (h.newObject p).1 := hh.objects
  exact .ok hsame.symm (hh.newObject hp)

theorem setProperty_meets (object : ObjectId) (y : String) (hv : v.Renamed c w v') :
    Access.Meet c (fun _ => Eq) w (setProperty object y v) (setProperty object y v') :=
  .of_agree fun _ _ hh => .ok rfl (hh.setProperty object y hv)

theorem newClosure_meets (name : Option String) {receiver : List Bool} {f f' : Lambda}
    (he : e.Marked w Γ) (hf : f.Matched c.matching (receiver ++ Γ) f') (isInitializer : Bool) :
    Access.Meet c (fun w => Closure.Renamed c w receiver) w (newClosure name f e isInitializer)
      (newClosure name f' e isInitializer) := by
  refine .of_agree fun h h' hh => ?_
  have hcount : h'.closures + 1 = h.closures + 1 := by rw [hh.closures]
  exact .ok ⟨hh.closures, rfl, rfl, rfl, Γ, he, hf⟩
    ⟨hh.global, hh.frames, hh.frames', hh.objects, hcount, hh.slot, hh.property⟩

/-- The receiver has a scope of its own, which is not marked. -/
theorem bindMethod_meets {f f' : Closure} (hf : f.Renamed c w [false] f') {o o' : Instance}
    (ho : o.Renamed c w o') :
    Access.Meet c (fun w => Closure.Renamed c w []) w (bindMethod f o) (bindMethod f' o') := by
  obtain ⟨Γ, hmarked, hmatched⟩ := hf.function
  unfold bindMethod
  rw [hf.environment, hf.name, hf.isInitializer]
  refine (child_meets hmarked false).bind fun w' hw inner _ hinner => ?_
  obtain ⟨rfl, hmarked⟩ := hinner
  have hobject : Value.Renamed c w' (.instance o) (.instance o') := .instance ⟨ho.id, ho.cls.mono hw⟩
  refine (bind_meets hmarked (.inl rfl) hobject).bind fun w'' hw' _ _ _ => ?_
  exact newClosure_meets f.name (hmarked.mono hw') hmatched f.isInitializer

theorem instanceProperty_meets {o o' : Instance} (ho : o.Renamed c w o') (x : Token) :
    Access.Meet c (Value.Renamed c) w (instanceProperty o x) (instanceProperty o' x) := by
  intro h h' hh
  have hproperty := hh.property o.id x.lexeme
  have hmethod := ho.cls.method? x.lexeme
  unfold instanceProperty
  rw [ho.id]
  generalize h.property? o.id x.lexeme = v? at hproperty ⊢
  generalize h'.property? o.id x.lexeme = v?' at hproperty ⊢
  cases hproperty with
  | some hv => exact ⟨w, List.prefix_refl w, .ok hv hh⟩
  | none =>
    generalize o.cls.method? x.lexeme = f? at hmethod ⊢
    generalize o'.cls.method? x.lexeme = f?' at hmethod ⊢
    cases hmethod with
    | none => exact ⟨w, List.prefix_refl w, .error (.same _) hh⟩
    | some hf =>
      exact (bindMethod_meets hf ho).map (fun _ _ _ => Value.Renamed.function) h h' hh

theorem classProperty_meets {cls cls' : Class} (hc : cls.Renamed c w cls') (x : Token) :
    Access.Meet c (Value.Renamed c) w (classProperty cls x) (classProperty cls' x) := by
  refine .of_agree fun h h' hh => ?_
  have hproperty := hh.property cls.own.id x.lexeme
  unfold classProperty
  rw [hc.own.id]
  generalize h.property? cls.own.id x.lexeme = v? at hproperty ⊢
  generalize h'.property? cls.own.id x.lexeme = v?' at hproperty ⊢
  cases hproperty with
  | some hv => exact .ok hv hh
  | none => exact .error (.same _) hh

theorem methodTable_meets (he : e.Marked w Γ) {decls decls' : List FunctionDecl}
    (hd : FunctionDecl.MatchedAll c.matching (false :: Γ) decls decls')
    {t t' : Std.TreeMap String Closure}
    (ht : ∀ y : String, Option.Rel (Closure.Renamed c w [false]) t[y]? t'[y]?) :
    Access.Meet c (fun w t t' => ∀ y : String, Option.Rel (Closure.Renamed c w [false]) t[y]? t'[y]?)
      w (methodTable e decls t) (methodTable e decls' t') := by
  induction decls generalizing w decls' t t' with
  | nil =>
    cases hd
    exact .pure ht
  | cons d rest ih =>
    cases hd with
    | @cons _ name name' f f' _ rest' hn hf hs =>
      obtain rfl := hn.same
      unfold methodTable
      have hclosure := @newClosure_meets _ _ _ _ (some name'.lexeme) [false] f f' he hf
      refine (hclosure _).bind fun w' hw g g' hg => ?_
      refine ih (he.mono hw) hs (rel_insert (fun y => ?_) name'.lexeme hg)
      exact rel_mono (fun _ _ => Closure.Renamed.mono hw) (ht y)

theorem staticTable_meets (he : e.Marked w Γ) {decls decls' : List FunctionDecl}
    (hd : FunctionDecl.MatchedAll c.matching Γ decls decls') {t t' : Properties}
    (ht : ∀ y : String, Option.Rel (Value.Renamed c w) t[y]? t'[y]?) :
    Access.Meet c (fun w t t' => ∀ y : String, Option.Rel (Value.Renamed c w) t[y]? t'[y]?)
      w (staticTable e decls t) (staticTable e decls' t') := by
  induction decls generalizing w decls' t t' with
  | nil =>
    cases hd
    exact .pure ht
  | cons d rest ih =>
    cases hd with
    | @cons _ name name' f f' _ rest' hn hf hs =>
      obtain rfl := hn.same
      unfold staticTable
      have hclosure := @newClosure_meets _ _ _ _ (some name'.lexeme) [] f f' he hf
      refine (hclosure _).bind fun w' hw g g' hg => ?_
      refine ih (he.mono hw) hs (rel_insert (fun y => ?_) name'.lexeme (.function hg))
      exact rel_mono (fun _ _ => Value.Renamed.mono hw) (ht y)

/-- The name is in the innermost frame of both heaps, and neither run gives it another name there. -/
theorem assign_has_meets (he : e.Marked w Γ) (hx : x.Renamed c (Γ.headD false) x)
    (hv : v.Renamed c w v') :
    Lox.Meet (RuntimeError.Renamed c) (fun w h h' => h.Renamed c w h' ∧ Has e.inner x.lexeme h)
      (fun _ => Eq) w (assign e x v) (assign e x v') := by
  intro h h' hh
  have hhas : Has e.inner x.lexeme h' := by
    have hsome := hh.1.slot_isSome he.inner x.lexeme
    rw [← hx.lexeme] at hsome
    exact hsome.trans hh.2
  rw [assign_has hh.2, assign_has hhas]
  exact (overwrite_meets he.inner hx hv).lasting (overwrite_lasts _ _ _) h h' hh

end Access

namespace Run

variable {e : Environment} {superclass superclass' : Option Class}

theorem methodEnvironment_meets (he : e.Marked w Γ)
    (hs : Option.Rel (Class.Renamed c w) superclass superclass') :
    Access.Meet c (fun w inner inner' => inner' = inner ∧ inner.Marked w (superMarks superclass Γ)) w
      (methodEnvironment e superclass) (methodEnvironment e superclass') := by
  cases hs with
  | none => exact .pure ⟨rfl, he⟩
  | some hc =>
    refine (Access.child_meets he false).bind fun w' hw inner _ hinner => ?_
    obtain ⟨rfl, hmarked⟩ := hinner
    refine (Access.bind_meets hmarked (.inr rfl) (.class (hc.mono hw))).bind fun w'' hw' _ _ _ => ?_
    exact .pure ⟨rfl, hmarked.mono hw'⟩

/-- The class is assigned where its name was defined. -/
theorem defineClass_meets (he : e.Marked w Γ) {x : Token} (hx : x.Renamed c (Γ.headD false) x)
    (hs : Option.Rel (Class.Renamed c w) superclass superclass')
    {own own' statics statics' : List FunctionDecl}
    (hown : FunctionDecl.MatchedAll c.matching (false :: superMarks superclass Γ) own own')
    (hstatics : FunctionDecl.MatchedAll c.matching (superMarks superclass Γ) statics statics') :
    Access.Meet c (fun _ => Eq) w (defineClass x superclass own statics e)
      (defineClass x superclass' own' statics' e) := by
  unfold defineClass
  refine (Access.define_meets he hx .none).bind_with
    (fun _ _ _ _ hh hd => Access.define_has ?_ hd) fun w₁ hw₁ _ _ _ => ?_
  · rw [hh.frames]
    exact (List.getElem?_eq_some_iff.1 he.inner).1
  refine ((methodEnvironment_meets (he.mono hw₁) ?_).lasting methodEnvironment_lasts).bind
    fun w₂ hw₂ inner _ hinner => ?_
  · exact rel_mono (fun _ _ => Class.Renamed.mono hw₁) hs
  obtain ⟨rfl, hinner⟩ := hinner
  refine ((Access.methodTable_meets hinner hown fun _ => .none).lasting
    (Access.methodTable_lasts _ _)).bind fun w₃ hw₃ methods methods' hmethods => ?_
  refine ((Access.staticTable_meets (hinner.mono hw₃) hstatics fun _ => .none).lasting
    (Access.staticTable_lasts _ _)).bind fun w₄ hw₄ properties properties' hproperties => ?_
  refine ((Access.newObject_meets hproperties).lasting (Access.newObject_lasts _)).bind
    fun w₅ hw₅ id _ hid => ?_
  subst hid
  have hlater := (hw₂.trans hw₃).trans (hw₄.trans hw₅)
  have hown : ClassBody.Renamed c w₅ ⟨id, x.lexeme, methods⟩ ⟨id, x.lexeme, methods'⟩ :=
    ⟨rfl, rfl, fun y => rel_mono (fun _ _ => Closure.Renamed.mono (hw₄.trans hw₅)) (hmethods y)⟩
  have hancestors : List.Forall₂ (ClassBody.Renamed c w₅)
      ((superclass.map fun cls => cls.own :: cls.ancestors).getD [])
      ((superclass'.map fun cls => cls.own :: cls.ancestors).getD []) := by
    cases hs with
    | none => exact .nil
    | some hc =>
      have hc := hc.mono (hw₁.trans hlater)
      exact .cons hc.own hc.ancestors
  exact Access.assign_has_meets (he.mono (hw₁.trans hlater)) hx (.class ⟨hown, hancestors⟩)

/-- A call binds the parameters in a frame of its own, which is marked as the scope of the function. -/
theorem callEnvironment_meets {f f' : Closure} (henv : f'.environment = f.environment)
    (he : f.environment.Marked w Γ)
    (hp : List.Forall₂ (Token.Renamed c m) f.function.params f'.function.params)
    {vs vs' : List Value} (hvs : List.Forall₂ (Value.Renamed c w) vs vs') :
    Access.Meet c (fun w inner inner' => inner' = inner ∧ inner.Marked w (m :: Γ)) w
      (callEnvironment f vs) (callEnvironment f' vs') := by
  unfold callEnvironment
  rw [henv]
  refine (Access.child_meets he m).bind fun w' hw inner _ hinner => ?_
  obtain ⟨rfl, hmarked⟩ := hinner
  have hbound := Access.bound_zip hp (hvs.imp fun _ _ => Value.Renamed.mono hw)
  refine (Access.defineAll_meets hmarked hbound).bind fun w'' hw' _ _ _ => ?_
  exact .pure ⟨rfl, hmarked.mono hw'⟩

end Run

end Lox
