import Lox.Proofs.Evaluation.Accesses
import Lox.Proofs.Objects.Census
import Lox.Proofs.Outcome

/-!
What an access to the heap adds to the census. A method that is bound adds a function, a call of a class
an instance, and a class statement the functions of its body and then the class.
-/

namespace Lox

open Run

/-- How an access ends on a heap that is listed. -/
inductive Access.Counts (visited : Point → Prop) (c : Census) {α : Type}
    (A : Census → Heap → α → Prop) :
    EStateM.Result RuntimeError Heap α → Prop where
  | ok {c' a h} (later : c.Le c') (describes : c'.Describes visited h) (result : A c' h a) :
    Counts visited c A (.ok a h)
  | error {c' e h} (later : c.Le c') (describes : c'.Describes visited h) :
    Counts visited c A (.error e h)

namespace Access

variable {α β : Type} {visited : Point → Prop} {c : Census} {h : Heap} {A : Census → Heap → α → Prop}
  {B : Census → Heap → β → Prop}

namespace Counts

theorem pure {a : α} (hd : c.Describes visited h) (ha : A c h a) : Counts visited c A (.ok a h) :=
  .ok (.refl c) hd ha

theorem fail {e : RuntimeError} (hd : c.Describes visited h) : Counts visited c A (.error e h) :=
  .error (.refl c) hd

theorem bind {p : Access α} {k : α → Access β} (hp : Counts visited c A (p h))
    (hk : ∀ a h' c', p h = .ok a h' → c.Le c' → c'.Describes visited h' → A c' h' a →
      Counts visited c' B (k a h')) : Counts visited c B ((p >>= k) h) := by
  cases hr : p h with
  | error e h' =>
    rw [hr] at hp
    rw [bind_of_error hr]
    cases hp with
    | error later describes => exact .error later describes
  | ok a h' =>
    rw [hr] at hp
    rw [bind_of_ok hr]
    cases hp with
    | ok later describes result =>
      have hends := hk a h' _ hr later describes result
      generalize k a h' = r at hends ⊢
      cases hends with
      | ok later' describes' result' => exact .ok (later.trans later') describes' result'
      | error later' describes' => exact .error (later.trans later') describes'

theorem mono {A' : Census → Heap → α → Prop} {r : EStateM.Result RuntimeError Heap α}
    (hr : Counts visited c A r) (hA : ∀ c' h a, c.Le c' → A c' h a → A' c' h a) :
    Counts visited c A' r := by
  cases hr with
  | ok later describes result => exact .ok later describes (hA _ _ _ later result)
  | error later describes => exact .error later describes

end Counts

/-- A declaration comes in the place of an earlier one of its name. -/
theorem declared_insert {β : Type} {R : FunctionDecl → β → Prop} {table : Std.TreeMap String β}
    {earlier : String → Option FunctionDecl} {decl : FunctionDecl} {b : β}
    (ht : ∀ x, Option.Rel R (earlier x) table[x]?) (hb : R decl b) (x : String) :
    Option.Rel R ((if decl.name.lexeme = x then some decl else none).or (earlier x))
      (table.insert decl.name.lexeme b)[x]? := by
  rw [Std.TreeMap.getElem?_insert]
  by_cases hx : decl.name.lexeme = x
  · simpa [hx] using Option.Rel.some hb
  · simpa [hx] using ht x

variable (hd : c.Describes visited h)
include hd

theorem read_counts (frame : FrameId) (name : Token) :
    Counts visited c (fun c' _ v => v.In c') (read frame name h) := by
  unfold read
  split
  next v hv => exact .pure hd (hd.slots _ _ v hv)
  next => exact .fail hd
  next => exact .fail hd

theorem get_counts (e : Environment) (name : Token) :
    Counts visited c (fun c' _ v => v.In c') (get e name h) := by
  unfold get
  split
  · exact read_counts hd _ name
  · exact .fail hd

theorem getAt_counts (e : Environment) (distance : Nat) (name : Token) :
    Counts visited c (fun c' _ v => v.In c') (getAt e distance name h) := by
  unfold getAt
  cases e.ancestor? distance with
  | none => exact .fail hd
  | some ancestor => exact read_counts hd ancestor.inner name

section Writes

variable {v : Value} (hv : v.In c)
include hv

theorem overwrite_counts (frame : FrameId) (name : Token) :
    Counts visited c (fun c' h' _ => c' = c ∧ h'.objects = h.objects)
      (overwrite frame name v h) := by
  unfold overwrite
  split
  · exact .pure (hd.setSlot _ _ fun _ hw => Slot.assigned.inj hw ▸ hv) ⟨rfl, rfl⟩
  · exact .fail hd

theorem assign_counts (e : Environment) (name : Token) :
    Counts visited c (fun c' h' _ => c' = c ∧ h'.objects = h.objects) (assign e name v h) := by
  unfold assign
  split
  · exact overwrite_counts hd hv _ name
  · exact .fail hd

theorem assignAt_counts (e : Environment) (distance : Nat) (name : Token) :
    Counts visited c (fun c' h' _ => c' = c ∧ h'.objects = h.objects)
      (assignAt e distance name v h) := by
  unfold assignAt
  cases e.ancestor? distance with
  | none => exact .fail hd
  | some ancestor => exact overwrite_counts hd hv ancestor.inner name

theorem setProperty_counts (object : ObjectId) (x : String) :
    Counts visited c (fun c' _ _ => c' = c) (setProperty object x v h) :=
  .pure (hd.setProperty object x hv) rfl

end Writes

theorem define_counts (e : Environment) (name : Token) {value : Option Value}
    (hv : ∀ v ∈ value, v.In c) : Counts visited c (fun c' _ _ => c' = c) (define e name value h) := by
  unfold define
  split
  · exact .fail hd
  · refine .pure (hd.setSlot _ _ fun v hvalue => ?_) rfl
    cases value with
    | none => cases hvalue
    | some w => exact Slot.assigned.inj hvalue ▸ hv w rfl

theorem child_counts (e : Environment) :
    Counts visited c (fun c' _ inner => c' = c ∧ inner = ⟨h.frames.size, e.frames⟩) (child e h) :=
  .pure (hd.newFrame e.frames) ⟨rfl, rfl⟩

theorem newClosure_counts (name : Option String) (function : Lambda) (e : Environment)
    (isInitializer : Bool) :
    Counts visited c (fun c' _ f => c'.owners = c.owners ∧ f.In c' none ∧
        f = ⟨f.id, name, function, e, isInitializer⟩)
      (newClosure name function e isInitializer h) := by
  let f : Closure := ⟨h.closures, name, function, e, isInitializer⟩
  have hle : c.Le { c with functions := c.functions ++ [(f, none)] } :=
    ⟨List.prefix_refl _, List.prefix_append _ _⟩
  refine .ok hle (hd.function f none) ⟨rfl, ?_, rfl⟩
  exact Census.getElem?_concat hd.closures (f, none)

/-- The function that binding a method makes is listed with the receiver. -/
theorem bindMethod_counts (method : Closure) {receiver : Instance} (hr : receiver.In c) :
    Counts visited c (fun c' _ f => f.In c' (some receiver)) (bindMethod method receiver h) := by
  let entered := (h.newFrame method.environment.frames).2.setSlot h.frames.size "this"
    (.assigned (.instance receiver))
  have hentered : c.Describes visited entered :=
    (hd.newFrame method.environment.frames).setSlot _ _ fun _ hw => Slot.assigned.inj hw ▸ hr
  let f : Closure := ⟨h.closures, method.name, method.function,
    ⟨h.frames.size, method.environment.frames⟩, method.isInitializer⟩
  have hle : c.Le { c with functions := c.functions ++ [(f, some receiver)] } :=
    ⟨List.prefix_refl _, List.prefix_append _ _⟩
  have hends : Counts visited c (fun c' _ f => f.In c' (some receiver))
      (.ok f { entered with closures := entered.closures + 1 }) := by
    refine .ok hle (hentered.function f (some receiver)) ?_
    exact Census.getElem?_concat hd.closures (f, some receiver)
  exact hends

theorem instanceProperty_counts {object : Instance} (ho : object.In c) (name : Token) :
    Counts visited c (fun c' _ v => v.In c') (instanceProperty object name h) := by
  unfold instanceProperty
  split
  next v hv => exact .pure hd (hd.properties _ _ v hv)
  next =>
    split
    next method _ =>
      refine Counts.bind (k := fun f => Pure.pure (Value.function f))
        (bindMethod_counts hd method ho) fun f h' c' _ _ hd' hf => ?_
      exact .pure hd' ⟨_, hf⟩
    next => exact .fail hd

theorem classProperty_counts (cls : Class) (name : Token) :
    Counts visited c (fun c' _ v => v.In c') (classProperty cls name h) := by
  unfold classProperty
  split
  next v hv => exact .pure hd (hd.properties _ _ v hv)
  next => exact .fail hd

/-- An instance that its class has made is listed. -/
theorem newObject_counts {cls : Class} (hc : cls.In c)
    (hmade : Instance.Made visited ⟨h.objects.size, cls⟩) :
    Counts visited c (fun c' _ id => id = h.objects.size ∧ Instance.In c' ⟨id, cls⟩)
      (newObject ∅ h) := by
  let object : Instance := ⟨h.objects.size, cls⟩
  have hle : c.Le { c with owners := c.owners ++ [.instance object] } :=
    ⟨List.prefix_append _ _, List.prefix_refl _⟩
  have hobject : Census.Describes visited { c with owners := c.owners ++ [.instance object] }
      (h.newObject ∅).2 := by
    refine hd.object (fun cls hcls => nomatch hcls) (fun object' ho => ?_) fun x v hv => ?_
    · cases ho
      exact ⟨hmade, hc⟩
    · rw [Std.TreeMap.getElem?_emptyc] at hv
      cases hv
  exact .ok hle hobject ⟨rfl, Census.getElem?_concat hd.objects (.instance object)⟩

theorem defineAll_counts (e : Environment) {bindings : List (Token × Value)}
    (hv : ∀ b ∈ bindings, b.2.In c) :
    Counts visited c (fun c' _ _ => c' = c) (defineAll e bindings h) := by
  induction bindings generalizing h with
  | nil => exact .pure hd rfl
  | cons b rest ih =>
    obtain ⟨hfirst, hrest⟩ := List.forall_mem_cons.1 hv
    refine (define_counts hd e b.1 fun v hv => Option.some.inj hv ▸ hfirst).bind ?_
    rintro _ h' _ _ _ hd' rfl
    exact ih hd' hrest

/-- The functions of the methods are listed, and of each name the last method is in the table. -/
theorem methodTable_counts (e : Environment) {decls : List FunctionDecl}
    {table : Std.TreeMap String Closure} {earlier : String → Option FunctionDecl}
    (ht : ∀ x, Option.Rel (Closure.IsMethod e) (earlier x) table[x]?) :
    Counts visited c (fun c' _ result => c'.owners = c.owners ∧ ∀ x,
        Option.Rel (Closure.IsMethod e) ((FunctionDecl.last? decls x).or (earlier x)) result[x]?)
      (methodTable e decls table h) := by
  induction decls generalizing h c table earlier with
  | nil => exact .pure hd ⟨rfl, ht⟩
  | cons decl rest ih =>
    obtain ⟨name, function⟩ := decl
    refine (newClosure_counts hd (some name.lexeme) function e (name.lexeme == "init")).bind ?_
    intro f h' c' _ _ hd' hf
    obtain ⟨howners, _, hf⟩ := hf
    have hmethod : f.IsMethod e (.mk name function) := by
      rw [hf]
      exact ⟨⟨rfl, rfl, rfl⟩, rfl⟩
    refine (ih hd' (declared_insert ht hmethod)).mono fun c'' _ result _ hresult => ?_
    refine ⟨hresult.1.trans howners, fun x => ?_⟩
    rw [FunctionDecl.last?_cons, Option.or_assoc]
    exact hresult.2 x

/-- So it is with the static methods, which are values. -/
theorem staticTable_counts (e : Environment) {decls : List FunctionDecl} {table : Properties}
    {earlier : String → Option FunctionDecl}
    (ht : ∀ x, Option.Rel (Value.IsStatic e) (earlier x) table[x]?)
    (hin : ∀ (x : String) (v : Value), table[x]? = some v → v.In c) :
    Counts visited c (fun c' _ result => c'.owners = c.owners ∧
        (∀ (x : String) (v : Value), result[x]? = some v → v.In c') ∧ ∀ x,
        Option.Rel (Value.IsStatic e) ((FunctionDecl.last? decls x).or (earlier x)) result[x]?)
      (staticTable e decls table h) := by
  induction decls generalizing h c table earlier with
  | nil => exact .pure hd ⟨rfl, hin, ht⟩
  | cons decl rest ih =>
    obtain ⟨name, function⟩ := decl
    refine (newClosure_counts hd (some name.lexeme) function e false).bind ?_
    intro f h' c' _ hle hd' hf
    obtain ⟨howners, hfin, hf⟩ := hf
    have hstatic : Value.IsStatic e (.mk name function) (.function f) := by
      refine ⟨f, rfl, ?_⟩
      rw [hf]
      exact ⟨⟨rfl, rfl, rfl⟩, rfl⟩
    have hin' (x : String) (v : Value)
        (hv : (table.insert name.lexeme (.function f))[x]? = some v) : v.In c' := by
      rw [Std.TreeMap.getElem?_insert] at hv
      split at hv
      · cases hv
        exact ⟨none, hfin⟩
      · exact (hin x v hv).mono hle
    refine (ih hd' (declared_insert ht hstatic) hin').mono fun c'' _ result _ hresult => ?_
    refine ⟨hresult.1.trans howners, hresult.2.1, fun x => ?_⟩
    rw [FunctionDecl.last?_cons, Option.or_assoc]
    exact hresult.2.2 x

/-- The environment of the methods of a class has `super` if there is a superclass. -/
theorem methodEnvironment_counts (e : Environment) {superclass : Option Class}
    (hs : ∀ cls ∈ superclass, cls.In c) :
    Counts visited c (fun c' _ inner => c' = c ∧ inner = e.ofMethods h superclass)
      (Run.methodEnvironment e superclass h) := by
  cases superclass with
  | none => exact .pure hd ⟨rfl, rfl⟩
  | some cls =>
    have hinner : c.Describes visited ((h.newFrame e.frames).2.setSlot h.frames.size "super"
        (.assigned (.class cls))) :=
      (hd.newFrame e.frames).setSlot _ _ fun _ hw => Slot.assigned.inj hw ▸ hs cls rfl
    exact .pure hinner ⟨rfl, rfl⟩

/-- The properties that a class has to begin with. -/
theorem newClass_counts (cls : Class) {properties : Properties} (hid : cls.own.id = h.objects.size)
    (hmade : cls.Made visited) (hs : ∀ parent ∈ cls.superclass?, parent.In c)
    (hproperties : ∀ (x : String) (v : Value), properties[x]? = some v → v.In c) :
    Counts visited c (fun c' h' id => id = cls.own.id ∧ cls.In c' ∧
        ∀ x, h'.property? cls.own.id x = properties[x]?) (newObject properties h) := by
  have hle : c.Le { c with owners := c.owners ++ [.class cls] } :=
    ⟨List.prefix_append _ _, List.prefix_refl _⟩
  have hobject : Census.Describes visited { c with owners := c.owners ++ [.class cls] }
      (h.newObject properties).2 := by
    refine hd.object (fun cls' hcls => ?_) (fun object ho => nomatch ho) hproperties
    cases hcls
    exact ⟨hid, hmade, hs⟩
  refine .ok hle hobject ⟨hid.symm, ?_, fun x => ?_⟩
  · exact Census.getElem?_concat (hd.objects.trans hid.symm) (.class cls)
  · unfold Heap.property?
    rw [hid, Array.getElem?_push_size]
    rfl

theorem callEnvironment_counts (f : Closure) {arguments : List Value}
    (hv : ∀ v ∈ arguments, v.In c) :
    Counts visited c (fun c' _ _ => c' = c) (Run.callEnvironment f arguments h) := by
  refine (child_counts hd f.environment).bind fun inner h' c' _ _ hd' hinner => ?_
  obtain ⟨rfl, _⟩ := hinner
  have hbound : ∀ b ∈ f.function.params.zip arguments, b.2.In c' :=
    fun b hb => hv b.2 (List.of_mem_zip hb).2
  refine (defineAll_counts hd' inner hbound).bind fun _ h'' c'' _ _ hd'' hsame => ?_
  obtain rfl := hsame
  exact .pure hd'' rfl

end Access

/-- The class that comes of a statement has the superclass of the statement. -/
theorem Class.superclass?_mk (own : ClassBody) (superclass : Option Class) :
    Class.superclass? ⟨own, (superclass.map fun cls => cls.own :: cls.ancestors).getD []⟩ =
      superclass := by
  cases superclass with
  | none => rfl
  | some cls => rfl

/-- A class statement lists the class that it makes, whose table has the static methods to begin with. -/
theorem Access.defineClass_counts {visited : Point → Prop} {c : Census} {m : Machine} {n : Nat}
    {name : Token} {superclass? : Option Reference} {own statics : List FunctionDecl}
    {superclass : Option Class} (hd : c.Describes visited m.heap)
    (hv : visited (.stmt (n + 1) (.class name superclass? own statics) m))
    (hs : Run.superclass superclass? m = .ok superclass m) (hin : ∀ cls ∈ superclass, cls.In c) :
    Counts visited c (fun c' h' _ => ∃ cls : Class, cls.In c' ∧ cls.MadeAt name superclass? own m ∧
        ∀ x, Option.Rel (Value.IsStatic (m.environment.ofMethods m.heap cls.superclass?))
          (FunctionDecl.last? statics x) (h'.property? cls.own.id x))
      (Run.defineClass name superclass own statics m.environment m.heap) := by
  have hnone : Counts visited c (fun c' _ _ => c' = c) (define m.environment name none m.heap) :=
    define_counts hd m.environment name nofun
  refine hnone.bind ?_
  rintro _ h₁ c₁ hdefine _ hd₁ rfl
  refine (methodEnvironment_counts hd₁ m.environment hin).bind ?_
  rintro inner h₂ c₂ _ _ hd₂ ⟨rfl, hinner⟩
  have hscope : inner = m.environment.ofMethods m.heap superclass := by
    rw [hinner]
    cases superclass with
    | none => rfl
    | some cls => rw [Environment.ofMethods, Environment.ofMethods, (define_ok hdefine).2]
  subst hscope
  have hempty {β : Type} {R : FunctionDecl → β → Prop} (x : String) :
      Option.Rel R none (∅ : Std.TreeMap String β)[x]? := by
    rw [Std.TreeMap.getElem?_emptyc]
    exact .none
  refine (methodTable_counts hd₂ _ hempty).bind ?_
  rintro methods h₃ c₃ _ hle₃ hd₃ ⟨howners, hmethods⟩
  refine (staticTable_counts hd₃ _ hempty ?_).bind ?_
  · intro x v hx
    rw [Std.TreeMap.getElem?_emptyc] at hx
    cases hx
  rintro properties h₄ c₄ _ hle₄ hd₄ ⟨howners', hproperties, hstatics⟩
  let cls : Class := ⟨⟨m.heap.objects.size, name.lexeme, methods⟩,
    (superclass.map fun cls => cls.own :: cls.ancestors).getD []⟩
  have hsuper : cls.superclass? = superclass := Class.superclass?_mk _ superclass
  have hsize : h₄.objects.size = m.heap.objects.size := by
    rw [← hd₄.objects, howners', howners, hd.objects]
  have hmade : cls.MadeAt name superclass? own m := by
    refine ⟨rfl, rfl, hsuper ▸ hs, fun x => ?_⟩
    rw [hsuper]
    simpa using hmethods x
  have hparents : ∀ parent ∈ cls.superclass?, parent.In c₄ := by
    rw [hsuper]
    exact fun parent hparent => ((hin parent hparent).mono hle₃).mono hle₄
  refine (newClass_counts hd₄ cls hsize.symm ⟨n, name, superclass?, own, statics, m, hv, hmade⟩
    hparents hproperties).bind ?_
  rintro id h₅ c₅ _ _ hd₅ ⟨hid, hcls, htable⟩
  obtain rfl : id = m.heap.objects.size := hid
  refine (assign_counts hd₅ (v := .class cls) hcls m.environment name).mono fun c₆ h₆ _ hle₆ hassigned => ?_
  refine ⟨cls, hcls.mono hle₆, hmade, fun x => ?_⟩
  have hsame : h₆.property? cls.own.id x = h₅.property? cls.own.id x := by
    unfold Heap.property?
    rw [hassigned.2]
  rw [hsuper, hsame, htable]
  simpa using hstatics x

end Lox
