import Lox.Proofs.Loops.Heaps

/-!
Accesses of two runs to their heaps, of which the second one has increments in loop bodies. They end
alike, with the same error if there is one.
-/

namespace Lox

/-- Two accesses that end alike on heaps that correspond. The frames that they add correspond. -/
abbrev Access.Beside {α β : Type} (d : Detour) (A : List FrameId → α → β → Prop) (w : List FrameId)
    (q : Access α) (q' : Access β) : Prop := Meet Eq (Heap.Beside d) A w q q'

variable {d : Detour} {w : List FrameId} {K : List Bool}

namespace Access

variable {e e' : Environment} {frame frame' : FrameId} {v v' : Value} (x : Token)

theorem read_beside (hf : w[frame]? = some frame') :
    Access.Beside d (Value.Beside d) w (read frame x) (read frame' x) := by
  refine .of_agree fun h h' hh => ?_
  have hslot := hh.slot frame frame' hf x.lexeme
  unfold read
  generalize h.slot? frame x.lexeme = s? at hslot ⊢
  generalize h'.slot? frame' x.lexeme = s?' at hslot ⊢
  cases hslot with
  | none => exact .error rfl hh
  | some hs =>
    cases hs with
    | unassigned => exact .error rfl hh
    | assigned hv => exact .ok hv hh

theorem overwrite_beside (hf : w[frame]? = some frame') (hv : v.Beside d w v') :
    Access.Beside d (fun _ => Eq) w (overwrite frame x v) (overwrite frame' x v') := by
  refine .of_agree fun h h' hh => ?_
  have hslot := hh.slot frame frame' hf x.lexeme
  have hset := hh.setSlot hf x.lexeme (.assigned hv)
  unfold overwrite
  generalize h.slot? frame x.lexeme = s? at hslot ⊢
  generalize h'.slot? frame' x.lexeme = s?' at hslot ⊢
  cases hslot with
  | none => exact .error rfl hh
  | some _ => exact .ok rfl hset

theorem define_beside (he : w[e.inner]? = some e'.inner) {value value' : Option Value}
    (hv : Option.Rel (Value.Beside d w) value value') :
    Access.Beside d (fun _ => Eq) w (define e x value) (define e' x value') := by
  refine .of_agree fun h h' hh => ?_
  have hnew : Slot.Beside d w ((value.map Slot.assigned).getD .unassigned)
      ((value'.map Slot.assigned).getD .unassigned) := by
    cases hv with
    | none => exact .unassigned
    | some hv => exact .assigned hv
  have hslot := hh.slot e.inner _ he x.lexeme
  have hset := hh.setSlot he x.lexeme hnew
  unfold define
  generalize h.slot? e.inner x.lexeme = s? at hslot ⊢
  generalize h'.slot? e'.inner x.lexeme = s?' at hslot ⊢
  cases hslot with
  | none => exact .ok rfl hset
  | some _ => exact .error rfl hh

theorem bind_beside (he : w[e.inner]? = some e'.inner) (y : String) (hv : v.Beside d w v') :
    Access.Beside d (fun _ => Eq) w (bind e y v) (bind e' y v') :=
  .of_agree fun _ _ hh => .ok rfl (hh.setSlot he y (.assigned hv))

/-- The global frame is the same in both. -/
theorem holder?_global_beside {h h' : Heap} (hh : h.Beside d w h') (y : String) :
    h'.holder? .global y = h.holder? .global y := by
  have hsome : (h'.slot? 0 y).isSome = (h.slot? 0 y).isSome := hh.slot_isSome hh.global y
  unfold Heap.holder? Environment.global Environment.frames
  rw [List.find?_singleton, List.find?_singleton, hsome]

theorem get_global_beside : Access.Beside d (Value.Beside d) w (get .global x) (get .global x) := by
  intro h h' hh
  unfold get
  rw [Access.holder?_global_beside hh]
  cases hholder : h.holder? .global x.lexeme with
  | none => exact ⟨w, List.prefix_refl w, .error rfl hh⟩
  | some frame =>
    obtain rfl := List.mem_singleton.1 (List.mem_of_find?_eq_some hholder)
    exact read_beside x hh.global h h' hh

theorem assign_global_beside (hv : v.Beside d w v') :
    Access.Beside d (fun _ => Eq) w (assign .global x v) (assign .global x v') := by
  intro h h' hh
  unfold assign
  rw [Access.holder?_global_beside hh]
  cases hholder : h.holder? .global x.lexeme with
  | none => exact ⟨w, List.prefix_refl w, .error rfl hh⟩
  | some frame =>
    obtain rfl := List.mem_singleton.1 (List.mem_of_find?_eq_some hholder)
    exact overwrite_beside x hh.global hv h h' hh

/-- As many hops out as the added scopes make it, the same is found. -/
theorem getAt_beside (he : e.Beside w K e') (i : Nat) :
    Access.Beside d (Value.Beside d) w (getAt e i x) (getAt e' (placeIn K i) x) := by
  have hancestor := he.ancestor i
  unfold getAt
  generalize e.ancestor? i = a? at hancestor ⊢
  generalize e'.ancestor? (placeIn K i) = a?' at hancestor ⊢
  cases hancestor with
  | none => exact .of_agree (.throw rfl)
  | some hinner => exact read_beside x hinner

theorem assignAt_beside (he : e.Beside w K e') (i : Nat) (hv : v.Beside d w v') :
    Access.Beside d (fun _ => Eq) w (assignAt e i x v) (assignAt e' (placeIn K i) x v') := by
  have hancestor := he.ancestor i
  unfold assignAt
  generalize e.ancestor? i = a? at hancestor ⊢
  generalize e'.ancestor? (placeIn K i) = a?' at hancestor ⊢
  cases hancestor with
  | none => exact .of_agree (.throw rfl)
  | some hinner => exact overwrite_beside x hinner hv

theorem child_beside (he : e.Beside w K e') :
    Access.Beside d (fun w => Environment.Beside w (false :: K)) w (child e) (child e') := by
  intro h h' hh
  refine ⟨w ++ [h'.frames.size], List.prefix_append w _, .ok ?_ (hh.newFrame e.frames e'.frames)⟩
  show Environment.Beside _ _ ⟨h.frames.size, e.frames⟩ ⟨h'.frames.size, e'.frames⟩
  rw [hh.frames]
  exact he.child h'.frames.size

/-- A token and values that are bound to it in the two runs. -/
structure BoundBeside (d : Detour) (w : List FrameId) (b b' : Token × Value) : Prop where
  name : b'.1 = b.1
  value : b.2.Beside d w b'.2

theorem bound_zip_beside (names : List Token) {vs vs' : List Value}
    (hvs : List.Forall₂ (Value.Beside d w) vs vs') :
    List.Forall₂ (BoundBeside d w) (names.zip vs) (names.zip vs') := by
  induction names generalizing vs vs' with
  | nil => exact .nil
  | cons x names ih =>
    cases hvs with
    | nil => exact .nil
    | cons hv hvs => exact .cons ⟨rfl, hv⟩ (ih hvs)

theorem defineAll_beside {bindings bindings' : List (Token × Value)}
    (he : e.Beside w K e') (hK : K.head? ≠ some true)
    (hb : List.Forall₂ (BoundBeside d w) bindings bindings') :
    Access.Beside d (fun _ => Eq) w (defineAll e bindings) (defineAll e' bindings') := by
  induction bindings generalizing w bindings' with
  | nil =>
    cases hb
    exact .pure rfl
  | cons b rest ih =>
    cases hb with
    | @cons _ b' _ rest' hb hrest =>
      obtain ⟨y, u⟩ := b
      obtain ⟨y', u'⟩ := b'
      obtain rfl : y' = y := hb.name
      refine (define_beside y' (he.inner hK) (.some hb.value)).bind fun w' hw _ _ _ => ?_
      exact ih (he.mono hw) (hrest.imp fun _ _ hb => ⟨hb.name, hb.value.mono (.refl d) hw⟩)

theorem newObject_beside {p p' : Properties}
    (hp : ∀ y : String, Option.Rel (Value.Beside d w) p[y]? p'[y]?) :
    Access.Beside d (fun _ => Eq) w (newObject p) (newObject p') := by
  refine .of_agree fun h h' hh => ?_
  have hsame : (h'.newObject p').1 = (h.newObject p).1 := hh.objects
  exact .ok hsame.symm (hh.newObject hp)

theorem setProperty_beside (object : ObjectId) (y : String) (hv : v.Beside d w v') :
    Access.Beside d (fun _ => Eq) w (setProperty object y v) (setProperty object y v') :=
  .of_agree fun _ _ hh => .ok rfl (hh.setProperty object y hv)

theorem newClosure_beside (name : Option String) {receiver : List Bool} {f f' : Lambda}
    (he : e.Beside w K e') (hf : f.Inlined d.Leads (receiver ++ K) f') (hp : f.Proper)
    {isInitializer : Bool} (hK : isInitializer = true → (receiver ++ K).head? ≠ some true) :
    Access.Beside d (fun w => Closure.Beside d w receiver) w (newClosure name f e isInitializer)
      (newClosure name f' e' isInitializer) := by
  refine .of_agree fun h h' hh => ?_
  have hcount : h'.closures + 1 = h.closures + 1 := by rw [hh.closures]
  exact .ok ⟨hh.closures, rfl, rfl, ⟨K, he, hf, hK⟩, hp⟩ { hh with closures := hcount }

theorem bindMethod_beside {f f' : Closure} (hf : f.Beside d w [false] f') {o o' : Instance}
    (ho : o.Beside d w o') :
    Access.Beside d (fun w => Closure.Beside d w []) w (bindMethod f o) (bindMethod f' o') := by
  obtain ⟨K, henvironment, hinlined, _⟩ := hf.function
  unfold bindMethod
  rw [hf.name, hf.isInitializer]
  refine (child_beside henvironment).bind fun w' hw inner inner' hinner => ?_
  have hobject : Value.Beside d w' (.instance o) (.instance o') :=
    .instance ⟨ho.id, ho.cls.mono (.refl d) hw⟩
  refine (bind_beside (hinner.inner (by simp)) "this" hobject).bind fun w'' hw' _ _ _ => ?_
  exact newClosure_beside f.name (hinner.mono hw') hinlined hf.proper fun _ => by simp

theorem instanceProperty_beside {o o' : Instance} (ho : o.Beside d w o') :
    Access.Beside d (Value.Beside d) w (instanceProperty o x) (instanceProperty o' x) := by
  intro h h' hh
  have hproperty := hh.property o.id x.lexeme
  have hmethod := ho.cls.method? x.lexeme
  unfold instanceProperty
  rw [ho.id]
  generalize h.property? o.id x.lexeme = v? at hproperty ⊢
  generalize h'.property? o.id x.lexeme = v?' at hproperty ⊢
  cases hproperty with
  | some hv => exact ⟨w, List.prefix_refl w, .ok hv hh⟩
  | none =>
    generalize o.cls.method? x.lexeme = f? at hmethod ⊢
    generalize o'.cls.method? x.lexeme = f?' at hmethod ⊢
    cases hmethod with
    | none => exact ⟨w, List.prefix_refl w, .error rfl hh⟩
    | some hf =>
      exact (bindMethod_beside hf ho).map (fun _ _ _ => Value.Beside.function) h h' hh

theorem classProperty_beside {c c' : Class} (hc : c.Beside d w c') :
    Access.Beside d (Value.Beside d) w (classProperty c x) (classProperty c' x) := by
  refine .of_agree fun h h' hh => ?_
  have hproperty := hh.property c.own.id x.lexeme
  unfold classProperty
  rw [hc.own.id]
  generalize h.property? c.own.id x.lexeme = v? at hproperty ⊢
  generalize h'.property? c.own.id x.lexeme = v?' at hproperty ⊢
  cases hproperty with
  | some hv => exact .ok hv hh
  | none => exact .error rfl hh

theorem methodTable_beside (he : e.Beside w K e') {decls decls' : List FunctionDecl}
    (hd : FunctionDecl.InlinedAll d.Leads (false :: K) decls decls') (hp : FunctionDecl.ProperAll decls)
    {t t' : Std.TreeMap String Closure}
    (ht : ∀ y : String, Option.Rel (Closure.Beside d w [false]) t[y]? t'[y]?) :
    Access.Beside d (fun w t t' => ∀ y : String, Option.Rel (Closure.Beside d w [false]) t[y]? t'[y]?)
      w (methodTable e decls t) (methodTable e' decls' t') := by
  induction decls generalizing w decls' t t' with
  | nil =>
    cases hd
    exact .pure ht
  | cons decl rest ih =>
    cases hd with
    | @cons _ f f' _ rest' name hf hs =>
      unfold methodTable
      have hclosure := @newClosure_beside _ _ _ _ _ (some name.lexeme) [false] f f' he hf hp.1
        (name.lexeme == "init") fun _ => by simp
      refine hclosure.bind fun w' hw g g' hg => ?_
      refine ih (he.mono hw) hs hp.2 (rel_insert (fun y => ?_) name.lexeme hg)
      exact rel_mono (fun _ _ => Closure.Beside.mono (.refl d) hw) (ht y)

theorem staticTable_beside (he : e.Beside w K e') {decls decls' : List FunctionDecl}
    (hd : FunctionDecl.InlinedAll d.Leads K decls decls') (hp : FunctionDecl.ProperAll decls)
    {t t' : Properties} (ht : ∀ y : String, Option.Rel (Value.Beside d w) t[y]? t'[y]?) :
    Access.Beside d (fun w t t' => ∀ y : String, Option.Rel (Value.Beside d w) t[y]? t'[y]?)
      w (staticTable e decls t) (staticTable e' decls' t') := by
  induction decls generalizing w decls' t t' with
  | nil =>
    cases hd
    exact .pure ht
  | cons decl rest ih =>
    cases hd with
    | @cons _ f f' _ rest' name hf hs =>
      unfold staticTable
      have hclosure := @newClosure_beside _ _ _ _ _ (some name.lexeme) [] f f' he hf hp.1 false
        Bool.noConfusion
      refine hclosure.bind fun w' hw g g' hg => ?_
      refine ih (he.mono hw) hs hp.2 (rel_insert (fun y => ?_) name.lexeme (.function hg))
      exact rel_mono (fun _ _ => Value.Beside.mono (.refl d) hw) (ht y)

/-- A name that the innermost frames have is assigned there. -/
theorem assign_has_beside (he : w[e.inner]? = some e'.inner) (hv : v.Beside d w v') :
    Meet Eq (fun w h h' => h.Beside d w h' ∧ Has e.inner x.lexeme h) (fun _ => Eq) w (assign e x v)
      (assign e' x v') := by
  intro h h' hh
  have hhas : Has e'.inner x.lexeme h' := (hh.1.slot_isSome he x.lexeme).trans hh.2
  rw [assign_has hh.2, assign_has hhas]
  exact (overwrite_beside x he hv).lasting (overwrite_lasts _ _ _) h h' hh

end Access

namespace Run

variable {e e' : Environment} {superclass superclass' : Option Class}

theorem methodEnvironment_beside (he : e.Beside w K e')
    (hs : Option.Rel (Class.Beside d w) superclass superclass') :
    Access.Beside d (fun w => Environment.Beside w (superMarks superclass K)) w
      (methodEnvironment e superclass) (methodEnvironment e' superclass') := by
  cases hs with
  | none => exact .pure he
  | some hc =>
    refine (Access.child_beside he).bind fun w' hw inner inner' hinner => ?_
    have hsuper := Access.bind_beside (hinner.inner (by simp)) "super" (.class (hc.mono (.refl d) hw))
    exact hsuper.bind fun w'' hw' _ _ _ => .pure (hinner.mono hw')

/-- The class is assigned where its name was defined. -/
theorem defineClass_beside (he : e.Beside w K e') (hK : K.head? ≠ some true) (x : Token)
    (hs : Option.Rel (Class.Beside d w) superclass superclass')
    {own own' statics statics' : List FunctionDecl}
    (hown : FunctionDecl.InlinedAll d.Leads (false :: superMarks superclass K) own own')
    (hpown : FunctionDecl.ProperAll own)
    (hstatics : FunctionDecl.InlinedAll d.Leads (superMarks superclass K) statics statics')
    (hpstatics : FunctionDecl.ProperAll statics) :
    Access.Beside d (fun _ => Eq) w (defineClass x superclass own statics e)
      (defineClass x superclass' own' statics' e') := by
  have hinner := he.inner hK
  unfold defineClass
  refine (Access.define_beside x hinner .none).bind_with
    (fun _ _ _ _ hh hd => Access.define_has (hh.lt hinner) hd) fun w₁ hw₁ _ _ _ => ?_
  refine ((methodEnvironment_beside (he.mono hw₁) ?_).lasting methodEnvironment_lasts).bind
    fun w₂ hw₂ inner inner' hmethods => ?_
  · exact rel_mono (fun _ _ => Class.Beside.mono (.refl d) hw₁) hs
  refine ((Access.methodTable_beside hmethods hown hpown fun _ => .none).lasting
    (Access.methodTable_lasts _ _)).bind fun w₃ hw₃ methods methods' htable => ?_
  refine ((Access.staticTable_beside (hmethods.mono hw₃) hstatics hpstatics fun _ => .none).lasting
    (Access.staticTable_lasts _ _)).bind fun w₄ hw₄ properties properties' hproperties => ?_
  refine ((Access.newObject_beside hproperties).lasting (Access.newObject_lasts _)).bind
    fun w₅ hw₅ id _ hid => ?_
  subst hid
  have hlater := (hw₂.trans hw₃).trans (hw₄.trans hw₅)
  have hbody : ClassBody.Beside d w₅ ⟨id, x.lexeme, methods⟩ ⟨id, x.lexeme, methods'⟩ :=
    ⟨rfl, rfl, fun y =>
      rel_mono (fun _ _ => Closure.Beside.mono (.refl d) (hw₄.trans hw₅)) (htable y)⟩
  have hancestors : List.Forall₂ (ClassBody.Beside d w₅)
      ((superclass.map fun cls => cls.own :: cls.ancestors).getD [])
      ((superclass'.map fun cls => cls.own :: cls.ancestors).getD []) := by
    cases hs with
    | none => exact .nil
    | some hc =>
      have hc := hc.mono (.refl d) (hw₁.trans hlater)
      exact .cons hc.own hc.ancestors
  have hinner₅ : w₅[e.inner]? = some e'.inner := (he.mono (hw₁.trans hlater)).inner hK
  exact Access.assign_has_beside x hinner₅ (.class ⟨hbody, hancestors⟩)

/-- A call binds the parameters in a frame of its own. -/
theorem callEnvironment_beside {f f' : Closure} (he : f.environment.Beside w K f'.environment)
    (hp : f'.function.params = f.function.params) {vs vs' : List Value}
    (hvs : List.Forall₂ (Value.Beside d w) vs vs') :
    Access.Beside d (fun w => Environment.Beside w (false :: K)) w (callEnvironment f vs)
      (callEnvironment f' vs') := by
  unfold callEnvironment
  rw [hp]
  refine (Access.child_beside he).bind fun w' hw inner inner' hinner => ?_
  have hbound := Access.bound_zip_beside f.function.params
    (hvs.imp fun _ _ => Value.Beside.mono (.refl d) hw)
  refine (Access.defineAll_beside hinner (by simp) hbound).bind fun w'' hw' _ _ _ => ?_
  exact .pure (hinner.mono hw')

end Run

end Lox
