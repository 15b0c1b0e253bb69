import Lox.Proofs.Evaluation.Lookup
import Lox.Proofs.Objects.Evaluating

/-!
Methods and properties in a session. Superclasses are older than the classes that inherit from them, so a
chain of them ends. A name that is read of an instance is its own property or a method of the nearest
class, and a write changes one property of one object.
-/

namespace Lox

open Run

/-! A class with its superclass, the superclass of that, and so on. -/

namespace Class

def chainOf (own : ClassBody) : List ClassBody → List Class
  | [] => [⟨own, []⟩]
  | parent :: rest => ⟨own, parent :: rest⟩ :: chainOf parent rest

/-- The class and all that it inherits from, the nearest first. -/
def chain (cls : Class) : List Class := chainOf cls.own cls.ancestors

theorem chain_eq (cls : Class) :
    cls.chain = cls :: (cls.superclass?.map chain).getD [] := by
  obtain ⟨own, ancestors⟩ := cls
  cases ancestors with
  | nil => rfl
  | cons parent rest => rfl

/-- What holds of a class if it holds of its superclass holds of each class. -/
theorem inheriting_induction {motive : Class → Prop}
    (step : ∀ cls : Class, (∀ parent ∈ cls.superclass?, motive parent) → motive cls) (cls : Class) :
    motive cls := by
  obtain ⟨own, ancestors⟩ := cls
  induction ancestors generalizing own with
  | nil => exact step _ fun parent hparent => nomatch hparent
  | cons body rest ih =>
    refine step _ fun parent hparent => ?_
    cases hparent
    exact ih body

/-- A method of the class itself hides those of its superclass. -/
theorem method?_eq (cls : Class) (x : String) :
    cls.method? x = cls.own.methods[x]?.or (cls.superclass?.bind (·.method? x)) := by
  obtain ⟨own, ancestors⟩ := cls
  unfold method?
  rw [List.findSome?_cons]
  cases own.methods[x]? with
  | some method => rfl
  | none =>
    cases ancestors with
    | nil => rfl
    | cons parent rest => rfl

end Class

/-- The method that class statements give to a name: the last one of the name in the body of the nearest
class of the chain whose body has one. -/
inductive Class.Resolves (visited : Point → Prop) (x : String) : Class → Option Closure → Prop where
  | own {cls n name superclass? own statics m decl f}
    (stated : visited (.stmt (n + 1) (.class name superclass? own statics) m))
    (made : cls.MadeAt name superclass? own m) (last : FunctionDecl.last? own x = some decl)
    (method : f.IsMethod (m.environment.ofMethods m.heap cls.superclass?) decl) :
    Resolves visited x cls (some f)
  | inherited {cls n name superclass? own statics m parent found}
    (stated : visited (.stmt (n + 1) (.class name superclass? own statics) m))
    (made : cls.MadeAt name superclass? own m) (last : FunctionDecl.last? own x = none)
    (superclass : cls.superclass? = some parent) (above : Resolves visited x parent found) :
    Resolves visited x cls found
  | nowhere {cls n name superclass? own statics m}
    (stated : visited (.stmt (n + 1) (.class name superclass? own statics) m))
    (made : cls.MadeAt name superclass? own m) (last : FunctionDecl.last? own x = none)
    (superclass : cls.superclass? = none) : Resolves visited x cls none

namespace Census.Describes

variable {visited : Point → Prop} {c : Census} {h : Heap} (hd : c.Describes visited h)
include hd

/-- A lookup in the tables of the chain finds what the class statements say. -/
theorem resolves {cls : Class} (hcls : cls.In c) (x : String) :
    cls.Resolves visited x (cls.method? x) := by
  induction cls using Class.inheriting_induction with
  | step cls ih =>
    obtain ⟨⟨n, name, superclass?, own, statics, m, stated, made⟩, hparents⟩ := hd.classes cls hcls
    have hmethods := made.methods x
    rw [Class.method?_eq]
    cases hlast : FunctionDecl.last? own x with
    | some decl =>
      rw [hlast] at hmethods
      generalize cls.own.methods[x]? = found at hmethods ⊢
      cases hmethods with
      | some method => exact .own stated made hlast method
    | none =>
      rw [hlast] at hmethods
      generalize cls.own.methods[x]? = found at hmethods ⊢
      cases hmethods
      rw [Option.none_or]
      cases hsuper : cls.superclass? with
      | none => exact .nowhere stated made hlast hsuper
      | some parent => exact .inherited stated made hlast hsuper (ih parent hsuper (hparents parent hsuper).1)

/-- All classes of a chain are listed, each of them younger than those that it inherits from. -/
theorem chain {cls : Class} (hcls : cls.In c) : (∀ b ∈ cls.chain, b.In c ∧ b.own.id ≤ cls.own.id) ∧
    cls.chain.Pairwise fun b b' => b'.own.id < b.own.id := by
  induction cls using Class.inheriting_induction with
  | step cls ih =>
    rw [Class.chain_eq]
    cases hsuper : cls.superclass? with
    | none => simpa using hcls
    | some parent =>
      obtain ⟨hparent, hless⟩ := (hd.classes cls hcls).2 parent hsuper
      obtain ⟨hall, hpairwise⟩ := ih parent hsuper hparent
      have hbelow : ∀ b ∈ parent.chain, b.own.id < cls.own.id :=
        fun b hb => Nat.lt_of_le_of_lt (hall b hb).2 hless
      refine ⟨List.forall_mem_cons.2 ⟨⟨hcls, Nat.le_refl _⟩, fun b hb => ?_⟩, ?_⟩
      · exact ⟨(hall b hb).1, Nat.le_of_lt (hbelow b hb)⟩
      · exact List.pairwise_cons.2 ⟨hbelow, hpairwise⟩

end Census.Describes

/-- The table of the properties of an object. -/
def Value.table? : Value → Option ObjectId
  | .class cls => some cls.own.id
  | .instance object => some object.id
  | _ => none

/-- No two objects have one table. -/
theorem Value.In.eq_of_table? {c : Census} {v w : Value} (hv : v.In c) (hw : w.In c) {id : ObjectId}
    (hid : v.table? = some id) (hid' : w.table? = some id) : v = w := by
  have howner (u : Value) (hu : u.In c) (hid : u.table? = some id) :
      ∃ owner, c.owners[id]? = some owner ∧
        u = match owner with
          | .class cls => .class cls
          | .instance object => .instance object := by
    cases u with
    | «class» cls =>
      cases hid
      exact ⟨_, hu, rfl⟩
    | «instance» object =>
      cases hid
      exact ⟨_, hu, rfl⟩
    | _ => cases hid
  obtain ⟨owner, howner₁, rfl⟩ := howner v hv hid
  obtain ⟨owner', howner₂, rfl⟩ := howner w hw hid'
  rw [howner₁] at howner₂
  cases howner₂
  rfl

/-- The value is in a slot or a property of the heap. -/
def Heap.Holds (h : Heap) (v : Value) : Prop :=
  (∃ frame x, h.slot? frame x = some (.assigned v)) ∨ ∃ object x, h.property? object x = some v

/-- The function is the method, bound to the receiver anew: it has a number that no function had, and one
more frame, which has nothing but `this`. -/
structure Closure.BoundTo (f : Closure) (census : Census) (method : Closure) (receiver : Instance)
    (h h' : Heap) : Prop where
  function : f.function = method.function
  name : f.name = method.name
  isInitializer : f.isInitializer = method.isInitializer
  environment : f.environment = ⟨h.frames.size, method.environment.frames⟩
  slots : ∀ frame x, h'.slot? frame x = if h.frames.size = frame ∧ "this" = x then
    some (.assigned (.instance receiver)) else h.slot? frame x
  objects : h'.objects = h.objects
  fresh : ∀ g, h.Holds (.function g) → g.id ≠ f.id
  listed : f.In census (some receiver)

/-- What reading a property of an instance gives. -/
structure Instance.Reads (census : Census) (receiver : Instance) (name : Token) (m : Machine)
    (r : EStateM.Result Halt Machine Value) : Prop where
  own : ∀ v, m.heap.property? receiver.id name.lexeme = some v → r = .ok v m
  method : m.heap.property? receiver.id name.lexeme = none →
    ∀ method, receiver.cls.method? name.lexeme = some method →
      ∃ f m', r = .ok (.function f) m' ∧ f.BoundTo census method receiver m.heap m'.heap
  nothing : m.heap.property? receiver.id name.lexeme = none →
    receiver.cls.method? name.lexeme = none →
      r = .error (.error ⟨name, .undefinedProperty name.lexeme⟩) m

/-- What reading a property of a class gives. Neither its methods nor its superclass count. -/
structure Class.Reads (cls : Class) (name : Token) (m : Machine)
    (r : EStateM.Result Halt Machine Value) : Prop where
  own : ∀ v, m.heap.property? cls.own.id name.lexeme = some v → r = .ok v m
  nothing : m.heap.property? cls.own.id name.lexeme = none →
    r = .error (.error ⟨name, .undefinedProperty name.lexeme⟩) m

/-- What writing a property changes. -/
structure Value.Written (census : Census) (object : Value) (x : String) (v : Value) (h h' : Heap) :
    Prop where
  written : ∃ id, object.table? = some id ∧ h'.property? id x = some v
  others : ∀ u, u.In census → ∀ id ∈ u.table?, ∀ y, (u = object → y ≠ x) →
    h'.property? id y = h.property? id y
  frames : h'.frames = h.frames

section Accesses

variable {visited : Point → Prop} {c census : Census} {m : Machine}

theorem Census.Describes.holds {h : Heap} (hd : c.Describes visited h) {v : Value}
    (hv : h.Holds v) : v.In c := by
  rcases hv with ⟨frame, x, hslot⟩ | ⟨object, x, hproperty⟩
  · exact hd.slots frame x v hslot
  · exact hd.properties object x v hproperty

theorem Census.Describes.function_lt (hd : c.Describes visited m.heap) {g : Closure}
    (hg : m.heap.Holds (.function g)) : g.id < m.heap.closures := by
  obtain ⟨receiver, hin⟩ := hd.holds hg
  rw [← hd.closures]
  exact (List.getElem?_eq_some_iff.1 hin).1

theorem Census.Describes.boundTo (hd : c.Describes visited m.heap) {method f : Closure}
    {receiver : Instance} {m' : Machine} (hf : access (.bindMethod method receiver) m = .ok f m')
    (hlisted : f.In census (some receiver)) : f.BoundTo census method receiver m.heap m'.heap := by
  cases hf
  refine .mk rfl rfl rfl rfl (fun frame x => ?_) rfl (fun g hg => ?_) hlisted
  · exact Heap.slot?_enter method.environment.frames "this" _ frame x
  · exact Nat.ne_of_lt (hd.function_lt hg)

theorem property_instance (hd : c.Describes visited m.heap) {receiver : Instance} {name : Token}
    (hlisted : m.heap.property? receiver.id name.lexeme = none → ∀ method,
      receiver.cls.method? name.lexeme = some method →
      ∀ f m', access (.bindMethod method receiver) m = .ok f m' → f.In census (some receiver)) :
    receiver.Reads census name m (property (.instance receiver) name m) := by
  constructor
  · intro v hv
    show access (.instanceProperty receiver name) m = _
    unfold Run.access Access.instanceProperty
    simp only [hv]
  · intro hnone method hmethod
    have hbound : access (.bindMethod method receiver) m = .ok _ _ := rfl
    refine ⟨_, _, ?_, hd.boundTo hbound (hlisted hnone method hmethod _ _ hbound)⟩
    rw [property_eq_bind hnone hmethod, bind_of_ok hbound]
    rfl
  · intro hnone hmethod
    show access (.instanceProperty receiver name) m = _
    unfold Run.access Access.instanceProperty
    simp only [hnone, hmethod]
    rfl

theorem property_class (cls : Class) (name : Token) :
    cls.Reads name m (property (.class cls) name m) := by
  constructor
  · intro v hv
    show access (.classProperty cls name) m = _
    unfold Run.access Access.classProperty
    simp only [hv]
  · intro hnone
    show access (.classProperty cls name) m = _
    unfold Run.access Access.classProperty
    simp only [hnone]
    rfl

end Accesses

theorem propertyTable_ok {object : Value} {name : Token} {id : ObjectId} {m m' : Machine}
    (h : propertyTable object name m = .ok id m') : object.table? = some id ∧ m' = m := by
  cases object with
  | «instance» receiver =>
    cases h
    exact ⟨rfl, rfl⟩
  | «class» cls =>
    cases h
    exact ⟨rfl, rfl⟩
  | _ => cases h

/-- The table of a listed object is one of the heap. -/
theorem Value.In.table?_lt {c : Census} {v : Value} {id : ObjectId} (hv : v.In c)
    (hid : v.table? = some id) : id < c.owners.length := by
  cases v with
  | «class» cls =>
    cases hid
    exact (List.getElem?_eq_some_iff.1 hv).1
  | «instance» object =>
    cases hid
    exact (List.getElem?_eq_some_iff.1 hv).1
  | _ => cases hid

theorem Value.In.written {census : Census} {o : Value} (ho : o.In census) {id : ObjectId}
    (hid : o.table? = some id) {h : Heap} (hlt : id < h.objects.size) {x : String} {v : Value} :
    o.Written census x v h (h.setProperty id x v) := by
  refine ⟨⟨id, hid, ?_⟩, fun u hu other hother y hy => ?_, rfl⟩
  · rw [Heap.property?_setProperty h hlt, if_pos ⟨rfl, rfl⟩]
  · rw [Heap.property?_setProperty h hlt, if_neg]
    rintro ⟨rfl, rfl⟩
    exact hy (hu.eq_of_table? ho hother hid) rfl

/-- The instance that a global variable has. -/
def Heap.instance? (h : Heap) (x : String) : Option Instance :=
  match h.slot? 0 x with
  | some (.assigned (.instance object)) => some object
  | _ => none

theorem Heap.slot?_of_instance? {h : Heap} {x : String} {object : Instance}
    (ho : h.instance? x = some object) : h.slot? 0 x = some (.assigned (.instance object)) := by
  unfold Heap.instance? at ho
  split at ho
  next hslot =>
    cases ho
    exact hslot
  next => cases ho

/-- A class that inherits an initializer and a method, and an instance of it. -/
def heirs : String :=
  "class A\x7binit(x)\x7bthis.x=x;\x7dm()\x7b\x7d\x7dclass B<A\x7b\x7dvar b=B(nil);"

def heirsSession : Session := ((Session.start 0).run 30 .script heirs).2

/-- The machine as the next line runs. -/
def heirsMachine (source : String) : Machine :=
  heirsSession.machine.addHops (compile source .line heirsSession.nextId).hops

end Lox
