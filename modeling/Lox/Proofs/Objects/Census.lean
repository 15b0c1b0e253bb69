import Lox.Proofs.Evaluation.Points

/-!
A census of the objects of a session. Tables of properties are numbered, each of them belongs to one
class or one instance, and functions are numbered too. A census lists them in the order of their
numbers, and it only grows: what has a number once has it for good.
-/

namespace Lox

open Run

/-- What a table of properties belongs to. -/
inductive Owner where
  | «class» (cls : Class)
  | «instance» (object : Instance)

/-- The owners of all tables, and all functions with the instances that they are bound to. -/
structure Census where
  owners : List Owner
  functions : List (Closure × Option Instance)

section Members

variable (census : Census)

def Class.In (cls : Class) : Prop := census.owners[cls.own.id]? = some (.class cls)

def Instance.In (object : Instance) : Prop := census.owners[object.id]? = some (.instance object)

def Closure.In (f : Closure) (receiver : Option Instance) : Prop :=
  census.functions[f.id]? = some (f, receiver)

def Value.In : Value → Prop
  | .function f => ∃ receiver, f.In census receiver
  | .class cls => cls.In census
  | .instance object => object.In census
  | _ => True

def Completion.In (c : Completion) : Prop := ∀ v, c = .return v → v.In census

end Members

/-- The last of the declarations that has the name. -/
def FunctionDecl.last? (decls : List FunctionDecl) (name : String) : Option FunctionDecl :=
  decls.reverse.find? (·.name.lexeme = name)

theorem FunctionDecl.last?_cons (decl : FunctionDecl) (rest : List FunctionDecl) (name : String) :
    last? (decl :: rest) name =
      (last? rest name).or (if decl.name.lexeme = name then some decl else none) := by
  unfold last?
  rw [List.reverse_cons, List.find?_append, List.find?_cons, List.find?_nil]
  by_cases h : decl.name.lexeme = name <;> simp [h]

/-- The function that a declaration in an environment makes. -/
structure Closure.DeclaredBy (e : Environment) (decl : FunctionDecl) (f : Closure) : Prop where
  name : f.name = some decl.name.lexeme
  function : f.function = decl.function
  environment : f.environment = e

/-- The method that a class makes of a declaration in its body. -/
structure Closure.IsMethod (e : Environment) (decl : FunctionDecl) (f : Closure) : Prop
    extends f.DeclaredBy e decl where
  isInitializer : f.isInitializer = (decl.name.lexeme == "init")

/-- What the property of a class is to begin with that a declaration makes. -/
def Value.IsStatic (e : Environment) (decl : FunctionDecl) (v : Value) : Prop :=
  ∃ f, v = .function f ∧ f.DeclaredBy e decl ∧ f.isInitializer = false

/-- The environment of the methods of a class whose statement runs in one. With a superclass there is a
new frame, for `super`. -/
def Environment.ofMethods (e : Environment) (h : Heap) : Option Class → Environment
  | none => e
  | some _ => ⟨h.frames.size, e.frames⟩

/-- The class is what the class statement makes when it starts on the machine. -/
structure Class.MadeAt (cls : Class) (name : Token) (superclass? : Option Reference)
    (own : List FunctionDecl) (m : Machine) : Prop where
  id : cls.own.id = m.heap.objects.size
  name : cls.name = name.lexeme
  superclass : Run.superclass superclass? m = .ok cls.superclass? m
  methods : ∀ x, Option.Rel (Closure.IsMethod (m.environment.ofMethods m.heap cls.superclass?))
    (FunctionDecl.last? own x) cls.own.methods[x]?

section

variable (visited : Point → Prop)

/-- A class statement that was run has made the class. -/
def Class.Made (cls : Class) : Prop := ∃ n name superclass? own statics m,
  visited (.stmt (n + 1) (.class name superclass? own statics) m) ∧
    cls.MadeAt name superclass? own m

/-- A call of its class has made the instance. -/
def Instance.Made (object : Instance) : Prop := ∃ n paren arguments m,
  visited (.call (n + 1) (.class object.cls) paren arguments m) ∧ object.id = m.heap.objects.size

/-- The census lists what the heap has. -/
structure Census.Describes (census : Census) (h : Heap) : Prop where
  objects : census.owners.length = h.objects.size
  closures : census.functions.length = h.closures
  classes : ∀ cls : Class, cls.In census → cls.Made visited ∧
    ∀ parent ∈ cls.superclass?, parent.In census ∧ parent.own.id < cls.own.id
  instances : ∀ object : Instance, object.In census → object.Made visited ∧ object.cls.In census
  slots : ∀ frame x v, h.slot? frame x = some (.assigned v) → v.In census
  properties : ∀ object x v, h.property? object x = some v → v.In census

end

/-- A later census. -/
structure Census.Le (c c' : Census) : Prop where
  owners : c.owners <+: c'.owners
  functions : c.functions <+: c'.functions

namespace Census

variable {c c' c'' : Census}

theorem Le.refl (c : Census) : c.Le c := ⟨List.prefix_refl _, List.prefix_refl _⟩

theorem Le.trans (h : c.Le c') (h' : c'.Le c'') : c.Le c'' :=
  ⟨h.owners.trans h'.owners, h.functions.trans h'.functions⟩

theorem getElem?_of_prefix {α : Type} {l l' : List α} {i : Nat} {a : α} (h : l <+: l')
    (hi : l[i]? = some a) : l'[i]? = some a := by
  obtain ⟨rest, rfl⟩ := h
  rw [List.getElem?_append_left (List.getElem?_eq_some_iff.1 hi).1]
  exact hi

theorem getElem?_concat {α : Type} {l : List α} {i : Nat} (h : l.length = i) (a : α) :
    (l ++ [a])[i]? = some a := by
  subst h
  exact List.getElem?_concat_length

end Census

section Growing

variable {c c' : Census} (h : c.Le c')
include h

theorem Class.In.mono {cls : Class} (hc : cls.In c) : cls.In c' :=
  Census.getElem?_of_prefix h.owners hc

theorem Instance.In.mono {object : Instance} (ho : object.In c) : object.In c' :=
  Census.getElem?_of_prefix h.owners ho

theorem Closure.In.mono {f : Closure} {receiver : Option Instance} (hf : f.In c receiver) :
    f.In c' receiver := Census.getElem?_of_prefix h.functions hf

theorem Value.In.mono {v : Value} (hv : v.In c) : v.In c' := by
  cases v with
  | function f =>
    obtain ⟨receiver, hf⟩ := hv
    exact ⟨receiver, hf.mono h⟩
  | «class» cls => exact Class.In.mono h hv
  | «instance» object => exact Instance.In.mono h hv
  | _ => exact trivial

end Growing

/-- After a write a table has what was written, and what it had before. -/
theorem insert_cases {β : Type} {tables : Array (Std.TreeMap String β)} {i j : Nat} {x y : String}
    {b b' : β} (h : (tables.modify i (·.insert x b))[j]?.bind (·[y]?) = some b') :
    b' = b ∨ tables[j]?.bind (·[y]?) = some b' := by
  rw [Array.getElem?_modify] at h
  split at h
  · cases htable : tables[j]? with
    | none =>
      rw [htable] at h
      cases h
    | some table =>
      rw [htable] at h
      have h : (table.insert x b)[y]? = some b' := h
      rw [Std.TreeMap.getElem?_insert] at h
      split at h
      · exact .inl (Option.some.inj h).symm
      · exact .inr h
  · exact .inr h

namespace Census.Describes

variable {visited : Point → Prop} {c : Census} {h h' : Heap}

/-- A heap with no more objects and functions, in which every new value is listed. -/
theorem change (hd : c.Describes visited h) (hobjects : h'.objects.size = h.objects.size)
    (hclosures : h'.closures = h.closures)
    (hslots : ∀ frame x v, h'.slot? frame x = some (.assigned v) →
      h.slot? frame x = some (.assigned v) ∨ v.In c)
    (hproperties : ∀ object x v, h'.property? object x = some v →
      h.property? object x = some v ∨ v.In c) : c.Describes visited h' where
  objects := hd.objects.trans hobjects.symm
  closures := hd.closures.trans hclosures.symm
  classes := hd.classes
  instances := hd.instances
  slots frame x v hv := (hslots frame x v hv).elim (hd.slots frame x v) id
  properties object x v hv := (hproperties object x v hv).elim (hd.properties object x v) id

/-- One more function. -/
theorem function (hd : c.Describes visited h) (f : Closure) (receiver : Option Instance) :
    Describes visited { c with functions := c.functions ++ [(f, receiver)] }
      { h with closures := h.closures + 1 } := by
  have hle : c.Le { c with functions := c.functions ++ [(f, receiver)] } :=
    ⟨List.prefix_refl _, List.prefix_append _ _⟩
  constructor
  · exact hd.objects
  · rw [List.length_append, hd.closures]
    rfl
  · exact hd.classes
  · exact hd.instances
  · exact fun frame x v hv => (hd.slots frame x v hv).mono hle
  · exact fun object x v hv => (hd.properties object x v hv).mono hle

/-- One more object, which is made here. -/
theorem object (hd : c.Describes visited h) {owner : Owner} {properties : Properties}
    (hclass : ∀ cls, owner = .class cls → cls.own.id = h.objects.size ∧ cls.Made visited ∧
      ∀ parent ∈ cls.superclass?, parent.In c)
    (hinstance : ∀ object, owner = .instance object → object.Made visited ∧ object.cls.In c)
    (hproperties : ∀ (x : String) (v : Value), properties[x]? = some v → v.In c) :
    Describes visited { c with owners := c.owners ++ [owner] } (h.newObject properties).2 := by
  have hle : c.Le { c with owners := c.owners ++ [owner] } :=
    ⟨List.prefix_append _ _, List.prefix_refl _⟩
  have hnew {i : ObjectId} {o : Owner} (hi : (c.owners ++ [owner])[i]? = some o) :
      c.owners[i]? = some o ∨ o = owner := by
    rw [List.getElem?_append] at hi
    split at hi
    · exact .inl hi
    · exact .inr (List.mem_singleton.1 (List.mem_of_getElem? hi))
  have hlt (cls : Class) (hc : cls.In c) : cls.own.id < h.objects.size := by
    rw [← hd.objects]
    exact (List.getElem?_eq_some_iff.1 hc).1
  constructor
  · rw [List.length_append, hd.objects]
    exact (Array.size_push _).symm
  · exact hd.closures
  · intro cls hc
    rcases hnew hc with hold | hcls
    · refine ⟨(hd.classes cls hold).1, fun parent hparent => ?_⟩
      obtain ⟨hin, hless⟩ := (hd.classes cls hold).2 parent hparent
      exact ⟨hin.mono hle, hless⟩
    · obtain ⟨hid, hmade, hparents⟩ := hclass cls hcls.symm
      refine ⟨hmade, fun parent hparent => ⟨(hparents parent hparent).mono hle, ?_⟩⟩
      rw [hid]
      exact hlt parent (hparents parent hparent)
  · intro object ho
    rcases hnew ho with hold | hobject
    · exact ⟨(hd.instances object hold).1, (hd.instances object hold).2.mono hle⟩
    · obtain ⟨hmade, hcls⟩ := hinstance object hobject.symm
      exact ⟨hmade, hcls.mono hle⟩
  · exact fun frame x v hv => (hd.slots frame x v hv).mono hle
  · intro object x v hv
    rw [Heap.property?_newObject] at hv
    split at hv
    · exact (hproperties x v hv).mono hle
    · exact (hd.properties object x v hv).mono hle

theorem newFrame (hd : c.Describes visited h) (outer : List FrameId) :
    c.Describes visited (h.newFrame outer).2 :=
  hd.change rfl rfl (fun frame x _ hv => .inl (Heap.slot?_newFrame h outer frame x ▸ hv))
    fun _ _ _ hv => .inl hv

theorem setSlot (hd : c.Describes visited h) (frame : FrameId) (x : String) {slot : Slot}
    (hslot : ∀ v, slot = .assigned v → v.In c) : c.Describes visited (h.setSlot frame x slot) := by
  refine hd.change rfl ?_ (fun other y v hv => ?_) fun _ _ _ hv => .inl hv
  · rfl
  · exact (insert_cases hv).symm.imp_right fun hsame => hslot v hsame.symm

theorem setProperty (hd : c.Describes visited h) (object : ObjectId) (x : String) {v : Value}
    (hv : v.In c) : c.Describes visited (h.setProperty object x v) := by
  refine hd.change (Array.size_modify ..) rfl (fun _ _ _ hv => .inl hv) fun other y w hw => ?_
  exact (insert_cases hw).symm.imp_right fun hsame : w = v => hsame ▸ hv

end Census.Describes

end Lox
