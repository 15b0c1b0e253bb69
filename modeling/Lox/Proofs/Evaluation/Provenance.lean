import Lox.Proofs.Evaluation.Likeness
import Lox.Proofs.Evaluation.Points
import Lox.Proofs.Syntax.Pieces

/-!
The functions that a machine has come from the code that it has run. What holds of a program and of the
parts of everything that it holds of, holds of all code that a run of the program comes to.
-/

namespace Lox

open Run

/-- What holds of a piece holds of its parts. -/
def Hereditary (P : Piece → Prop) : Prop := ∀ p, P p → ∀ q ∈ p.parts, P q

section Values

variable (P : Piece → Prop)

/-- The same function, of which the property holds. -/
def Lambda.Same (f f' : Lambda) : Prop := f' = f ∧ P (.lambda f)

def Closure.From (f : Closure) : Prop := f.Alike (Lambda.Same P) f

def Class.From (c : Class) : Prop := c.Alike (Lambda.Same P) c

def Instance.From (o : Instance) : Prop := o.Alike (Lambda.Same P) o

def Value.From (v : Value) : Prop := v.Alike (Lambda.Same P) v

/-- The property holds of every function that the heap has. -/
def Heap.From (h : Heap) : Prop := h.Alike (Lambda.Same P) h

end Values

variable {P : Piece → Prop}

theorem Closure.From.body (hP : Hereditary P) {f : Closure} (h : f.From P) :
    ∀ s ∈ f.function.body, P (.stmt s) := fun _ hs =>
  hP _ h.function.2 _ (List.mem_append_right _ (List.mem_map_of_mem hs))

theorem Class.From.method {c : Class} (hc : c.From P) {name : String} {method : Closure}
    (h : c.method? name = some method) : method.From P := by
  have hmethod := Class.Alike.method? hc name
  rw [h] at hmethod
  cases hmethod with
  | some hm => exact hm

theorem Value.From.receiver {o : Instance} (h : (Value.instance o).From P) : o.From P := by
  cases h with
  | «instance» ho => exact ho

theorem Value.From.cls {c : Class} (h : (Value.class c).From P) : c.From P := by
  cases h with
  | «class» hc => exact hc

theorem Value.From.function {f : Closure} (h : (Value.function f).From P) : f.From P := by
  cases h with
  | function hf => exact hf

theorem Class.From.newInstance {c : Class} (h : c.From P) (id : ObjectId) :
    (Instance.From P) ⟨id, c⟩ := ⟨rfl, h⟩

/-- What an evaluation keeps. -/
structure Machine.Stays (P : Piece → Prop) (m m' : Machine) : Prop where
  heap : m'.heap.From P
  environment : m'.environment = m.environment

/-- How an evaluation of such code ends. -/
inductive Settles (P : Piece → Prop) {α : Type} (m : Machine) (A : α → Prop) : EStateM.Result Halt Machine α → Prop where
  | ok {a m'} (stays : m.Stays P m') (result : A a) : Settles P m A (.ok a m')
  | error {halt m'} (stays : m.Stays P m') : Settles P m A (.error halt m')

theorem Settles.machine {α : Type} {m : Machine} {A : α → Prop} {r : EStateM.Result Halt Machine α}
    (h : Settles P m A r) : m.Stays P (machineOf r) := by
  cases h with
  | ok stays _ => exact stays
  | error stays => exact stays

theorem Settles.of_ok {α : Type} {m m' : Machine} {A : α → Prop} {a : α}
    {r : EStateM.Result Halt Machine α} (h : Settles P m A r) (hr : r = .ok a m') :
    m.Stays P m' ∧ A a := by
  subst hr
  cases h with
  | ok stays result => exact ⟨stays, result⟩

/-- The value that a `return` carries comes from such code. -/
def Completion.From (P : Piece → Prop) (r : Completion) : Prop := ∀ v, r = .return v → v.From P

namespace Run

variable {α β : Type} {A : α → Prop} {B : β → Prop} {v w : Value}

/-- On a machine with such functions the action settles. -/
def Keeps (P : Piece → Prop) (p : Run α) (A : α → Prop) : Prop := ∀ m : Machine, m.heap.From P → Settles P m A (p m)

namespace Keeps

variable {p : Run α}

theorem pure {a : α} (h : A a) : Keeps P (pure a) A := fun _ hm => .ok ⟨hm, rfl⟩ h

theorem fail (x : Token) (fault : RuntimeFault) : Keeps P (fail x fault) A :=
  fun _ hm => .error ⟨hm, rfl⟩

theorem outOfFuel : Keeps P outOfFuel A := fun _ hm => .error ⟨hm, rfl⟩

theorem mono {A' : α → Prop} (h : Keeps P p A) (hA : ∀ a, A a → A' a) : Keeps P p A' := by
  intro m hm
  have hp := h m hm
  generalize p m = r at hp ⊢
  cases hp with
  | ok stays result => exact .ok stays (hA _ result)
  | error stays => exact .error stays

theorem bind {f : α → Run β} (h : Keeps P p A) (hf : ∀ a, A a → Keeps P (f a) B) :
    Keeps P (p >>= f) B := by
  intro m hm
  have hp := h m hm
  cases hr : p m with
  | error halt m' =>
    rw [hr] at hp
    rw [bind_of_error hr]
    exact .error hp.machine
  | ok a m' =>
    obtain ⟨stays, ha⟩ := hp.of_ok hr
    rw [bind_of_ok hr]
    have hq := hf a ha m' stays.heap
    have hafter {m'' : Machine} (h : m'.Stays P m'') : m.Stays P m'' :=
      ⟨h.heap, h.environment.trans stays.environment⟩
    generalize f a m' = r at hq ⊢
    cases hq with
    | ok stays' result => exact .ok (hafter stays') result
    | error stays' => exact .error (hafter stays')

theorem map {f : α → β} (h : Keeps P p fun a => B (f a)) : Keeps P (f <$> p) B :=
  h.bind fun _ ha => pure ha

theorem access {q : Access α} {R : α → α → Prop}
    (h : Access.Agrees (· = 0) (Lambda.Same P) R q q) (hA : ∀ a, R a a → A a) :
    Keeps P (access q) A := by
  intro m hm
  have hends := h m.heap m.heap hm
  unfold Run.access
  simp only
  generalize q m.heap = r at hends ⊢
  cases hends with
  | ok ha hh => exact .ok ⟨hh, rfl⟩ (hA _ ha)
  | error _ hh => exact .error ⟨hh, rfl⟩

theorem value {q : Access Value}
    (h : Access.Agrees (· = 0) (Lambda.Same P) (Value.Alike (Lambda.Same P)) q q) :
    Keeps P (Run.access q) (Value.From P) := access h fun _ hv => hv

theorem change {q : Access α} (h : Access.Agrees (· = 0) (Lambda.Same P) Eq q q) :
    Keeps P (Run.access q) fun _ => True := access h fun _ _ => trivial

theorem environment : Keeps P environment fun _ => True := fun _ hm => .ok ⟨hm, rfl⟩ trivial

theorem hops? (id : NodeId) : Keeps P (hops? id) fun _ => True := fun _ hm => .ok ⟨hm, rfl⟩ trivial

theorem print (v : Value) : Keeps P (print v) fun _ => True := fun _ hm => .ok ⟨hm, rfl⟩ trivial

theorem within (h : Keeps P p A) (e : Environment) : Keeps P (within e p) A := by
  intro m hm
  have hp := h { m with environment := e } hm
  unfold Run.within
  simp only
  generalize p { m with environment := e } = r at hp ⊢
  cases hp with
  | ok stays result => exact .ok ⟨stays.heap, rfl⟩ result
  | error stays => exact .error ⟨stays.heap, rfl⟩

end Keeps

section Operations

theorem here (x : Token) : x.Lowered (· = 0) x := ⟨0, rfl, rfl⟩

theorem lookUp_keeps (ref : Reference) : Keeps P (lookUp ref) (Value.From P) := by
  unfold lookUp
  refine (Keeps.hops? ref.id).bind fun distance _ => ?_
  cases distance with
  | none => exact .value (Access.get_agrees (here ref.name))
  | some distance =>
    exact Keeps.environment.bind fun e _ => .value (Access.getAt_agrees distance (here ref.name))

theorem assign_keeps (target : Reference) (hv : v.From P) :
    Keeps P (assign target v) fun _ => True := by
  unfold assign
  refine (Keeps.hops? target.id).bind fun distance _ => ?_
  cases distance with
  | none => exact .change (Access.assign_agrees (here target.name) hv)
  | some distance =>
    refine Keeps.environment.bind fun e _ => ?_
    exact .change (Access.assignAt_agrees distance (here target.name) hv)

theorem Computes.keeps {operator operator' : Token} {p p' : Run Value}
    (h : Computes operator operator' p p') : Keeps P p (Value.From P) := by
  cases h with
  | boolean b => exact .pure (.boolean b)
  | number x => exact .pure (.number x)
  | string s => exact .pure (.string s)
  | fails fault => exact .fail _ fault

theorem property_keeps (name : Token) (hv : v.From P) : Keeps P (property v name) (Value.From P) := by
  cases hv with
  | «instance» ho => exact .value (Access.instanceProperty_agrees ho (here name))
  | «class» hc => exact .value (Access.classProperty_agrees hc (here name))
  | _ => exact .fail _ _

theorem propertyTable_keeps (name : Token) (v : Value) :
    Keeps P (propertyTable v name) fun _ => True := by
  unfold propertyTable
  split
  · exact .pure trivial
  · exact .pure trivial
  · exact .fail _ _

theorem child_keeps (e : Environment) : Keeps P (access (.child e)) fun _ => True :=
  .change (Access.child_agrees e)

theorem newObject_keeps : Keeps P (access (.newObject ∅)) fun _ => True :=
  .change (Access.newObject_agrees fun _ => .none)

theorem bindMethod_keeps {method : Closure} {receiver : Instance} (hm : method.From P)
    (hr : receiver.From P) : Keeps P (access (.bindMethod method receiver)) (Closure.From P) :=
  .access (Access.bindMethod_agrees hm hr) fun _ hf => hf

theorem superMethod_keeps (ref : Reference) (method : Token) :
    Keeps P (superMethod ref method) (Value.From P) := by
  unfold superMethod
  refine (Keeps.hops? ref.id).bind fun distance _ => ?_
  cases distance with
  | none => exact .fail _ _
  | some distance =>
    refine Keeps.environment.bind fun e _ => ?_
    refine (Keeps.value (Access.getAt_agrees distance (here ref.name))).bind fun v hv => ?_
    cases hv with
    | «class» hc =>
      have hthis := here (Token.synthetic .this "this" ref.name.line)
      refine (Keeps.value (Access.getAt_agrees (distance - 1) hthis)).bind fun w hw => ?_
      cases hw with
      | «instance» ho =>
        rename_i cls receiver
        cases hfound : cls.method? method.lexeme with
        | none => exact .fail _ _
        | some found =>
          refine .map ((bindMethod_keeps (Class.From.method hc hfound) ho).mono fun _ => ?_)
          exact Value.Alike.function
      | _ => exact .fail _ _
    | _ => exact .fail _ _

theorem superclass_keeps (ref? : Option Reference) :
    Keeps P (superclass ref?) fun c? => Option.Rel (Class.Alike (Lambda.Same P)) c? c? := by
  cases ref? with
  | none => exact .pure .none
  | some ref =>
    refine (lookUp_keeps ref).bind fun v hv => ?_
    cases hv with
    | «class» hc => exact .pure (.some hc)
    | _ => exact .fail _ _

theorem define_keeps (name : Token) {value : Option Value}
    (hv : Option.Rel (Value.Alike (Lambda.Same P)) value value) :
    Keeps P (define name value) fun _ => True := by
  exact Keeps.environment.bind fun e _ => .change (Access.define_agrees (here name) hv)

theorem closure_keeps (name : Option String) {f : Lambda} (hf : P (.lambda f)) :
    Keeps P (closure name f) (Value.From P) := by
  refine Keeps.environment.bind fun e _ => .map ?_
  have hsame : Lambda.Same P f f := ⟨rfl, hf⟩
  exact .access (Access.newClosure_agrees name hsame e false) fun _ => Value.Alike.function

theorem native_keeps (f : Native) : Keeps P (native f) (Value.From P) := by
  cases f with
  | clock => exact fun _ hm => .ok ⟨hm, rfl⟩ (.number _)

theorem checkArity_keeps (paren : Token) (expected given : Nat) :
    Keeps P (checkArity paren expected given) fun _ => True := by
  unfold checkArity
  by_cases h : given = expected
  · rw [if_pos h]
    exact .pure trivial
  · rw [if_neg h]
    exact .fail _ _

theorem declarations_from {decls : List FunctionDecl} (h : ∀ q ∈ Piece.ofDeclarations decls, P q) :
    List.Forall₂ (FunctionDecl.Alike (· = 0) (Lambda.Same P)) decls decls := by
  induction decls with
  | nil => exact .nil
  | cons d rest ih =>
    obtain ⟨hd, hrest⟩ := List.forall_mem_append.1 h
    exact .cons ⟨here d.name, rfl, hd _ (by simp)⟩ (ih hrest)

theorem defineClass_keeps (e : Environment) (name : Token) {superclass : Option Class}
    (hs : Option.Rel (Class.Alike (Lambda.Same P)) superclass superclass)
    {own statics : List FunctionDecl} (hown : ∀ q ∈ Piece.ofDeclarations own, P q)
    (hstatics : ∀ q ∈ Piece.ofDeclarations statics, P q) :
    Keeps P (access (defineClass name superclass own statics e)) fun _ => True :=
  .change (defineClass_agrees e (here name) hs (declarations_from hown) (declarations_from hstatics))

theorem callEnvironment_keeps (f : Closure) {vs : List Value} (hvs : ∀ v ∈ vs, v.From P) :
    Keeps P (access (callEnvironment f vs)) fun _ => True := by
  refine .change (bindParameters_agrees rfl (List.forall₂_same.2 fun b hb => ⟨here b.1, ?_⟩))
  exact hvs b.2 (List.of_mem_zip hb).2

theorem callResult_keeps (f : Closure) {r : Completion} (hr : r.From P) :
    Keeps P (callResult f r) (Value.From P) := by
  unfold callResult
  by_cases hinit : f.isInitializer = true
  · rw [if_pos hinit]
    exact .value (Access.getAt_agrees 0 (here _))
  · rw [if_neg hinit]
    split
    · exact .pure (hr _ rfl)
    · exact .pure .nil

theorem from_normal : Completion.From P .normal := fun _ h => Completion.noConfusion h

theorem from_return (hv : v.From P) : Completion.From P (.return v) := by
  intro w h
  cases h
  exact hv

end Operations

/-- What `n` units of fuel evaluate keeps the functions such as they are. -/
structure Keeping (P : Piece → Prop) (n : Nat) : Prop where
  eval : ∀ {e}, P (.expr e) → Keeps P (eval n e) (Value.From P)
  evalAll : ∀ {es}, (∀ e ∈ es, P (.expr e)) → Keeps P (evalAll n es) fun vs => ∀ v ∈ vs, v.From P
  call : ∀ {v paren vs}, v.From P → (∀ w ∈ vs, w.From P) →
    Keeps P (call n v paren vs) (Value.From P)
  invoke : ∀ {f vs}, f.From P → (∀ v ∈ vs, v.From P) → Keeps P (invoke n f vs) (Value.From P)
  exec : ∀ {s}, P (.stmt s) → Keeps P (exec n s) (Completion.From P)
  execAll : ∀ {body}, (∀ s ∈ body, P (.stmt s)) → Keeps P (execAll n body) (Completion.From P)
  iterate : ∀ {condition body increment}, P (.expr condition) → P (.stmt body) →
    (∀ q ∈ Piece.ofExpr? increment, P q) →
    Keeps P (iterate n condition body increment) (Completion.From P)

namespace Keeping

variable {n : Nat} (hP : Hereditary P) (hn : Keeping P n)
include hP hn

theorem eval_succ {e : Expr} (h : P (.expr e)) : Keeps P (Run.eval (n + 1) e) (Value.From P) := by
  have hparts := hP _ h
  cases e with
  | literal value =>
    cases value with
    | number x => exact .pure (.number x)
    | string s => exact .pure (.string s)
    | boolean b => exact .pure (.boolean b)
    | nil => exact .pure .nil
  | grouping inner => exact hn.eval (hparts _ (by simp [Piece.parts]))
  | unary operator right =>
    have hright := hn.eval (hparts (.expr right) (by simp [Piece.parts]))
    exact hright.bind fun v _ => (unary_computes_self operator v).keeps
  | binary left operator right =>
    have hleft := hn.eval (hparts (.expr left) (by simp [Piece.parts]))
    have hright := hn.eval (hparts (.expr right) (by simp [Piece.parts]))
    refine hleft.bind fun v hv => ?_
    cases afterLeft operator.kind v with
    | keepLeft => exact .pure hv
    | takeRight => exact hright
    | combine =>
      exact hright.bind fun w _ => (binary_computes_self operator v w).keeps
  | binaryError operator right => exact .fail _ _
  | conditional condition thenBranch elseBranch =>
    refine (hn.eval (hparts (.expr condition) (by simp [Piece.parts]))).bind fun v _ => ?_
    by_cases hv : v.isTruthy = true
    · rw [if_pos hv]
      exact hn.eval (hparts _ (by simp [Piece.parts]))
    · rw [if_neg hv]
      exact hn.eval (hparts _ (by simp [Piece.parts]))
  | «variable» ref => exact lookUp_keeps ref
  | assign target value =>
    have hvalue := hn.eval (hparts (.expr value) (by simp [Piece.parts]))
    exact hvalue.bind fun v hv => (assign_keeps target hv).bind fun _ _ => .pure hv
  | call callee paren arguments =>
    have harguments (e : Expr) (he : e ∈ arguments) : P (.expr e) :=
      hparts _ (by simp [Piece.parts, he])
    refine (hn.eval (hparts (.expr callee) (by simp [Piece.parts]))).bind fun v hv => ?_
    exact (hn.evalAll harguments).bind fun vs hvs => hn.call hv hvs
  | get object name =>
    have hobject := hn.eval (hparts (.expr object) (by simp [Piece.parts]))
    exact hobject.bind fun v hv => property_keeps name hv
  | set object name value =>
    have hobject := hn.eval (hparts (.expr object) (by simp [Piece.parts]))
    refine hobject.bind fun o _ => (propertyTable_keeps name o).bind fun table _ => ?_
    refine (hn.eval (hparts (.expr value) (by simp [Piece.parts]))).bind fun v hv => ?_
    have hset : Keeps P (access (.setProperty table name.lexeme v)) fun _ => True :=
      .change (Access.setProperty_agrees table name.lexeme hv)
    exact hset.bind fun _ _ => .pure hv
  | this ref => exact lookUp_keeps ref
  | super ref method => exact superMethod_keeps ref method
  | lambda function => exact closure_keeps none (hparts _ (by simp [Piece.parts]))

omit hP in
theorem evalAll_succ {es : List Expr} (h : ∀ e ∈ es, P (.expr e)) :
    Keeps P (Run.evalAll (n + 1) es) fun vs => ∀ v ∈ vs, v.From P := by
  cases es with
  | nil => exact .pure (List.forall_mem_nil _)
  | cons e rest =>
    obtain ⟨he, hrest⟩ := List.forall_mem_cons.1 h
    refine (hn.eval he).bind fun v hv => (hn.evalAll hrest).bind fun vs hvs => .pure ?_
    exact List.forall_mem_cons.2 ⟨hv, hvs⟩

omit hP in
theorem call_succ {v : Value} (hv : v.From P) (paren : Token) {vs : List Value}
    (hvs : ∀ w ∈ vs, w.From P) : Keeps P (Run.call (n + 1) v paren vs) (Value.From P) := by
  cases hv with
  | native f => exact (checkArity_keeps paren f.arity vs.length).bind fun _ _ => native_keeps f
  | function hf =>
    exact (checkArity_keeps paren _ vs.length).bind fun _ _ => hn.invoke hf hvs
  | «class» hc =>
    rename_i cls
    refine (checkArity_keeps paren cls.arity vs.length).bind fun _ _ => ?_
    refine newObject_keeps.bind fun id _ => ?_
    have hobject : Instance.From P ⟨id, cls⟩ := ⟨rfl, hc⟩
    cases hmethod : cls.initializer? with
    | none => exact .pure (.instance hobject)
    | some method =>
      refine (bindMethod_keeps (Class.From.method hc hmethod) hobject).bind fun f hf => ?_
      exact (hn.invoke hf hvs).bind fun _ _ => .pure (.instance hobject)
  | _ => exact .fail _ _

theorem invoke_succ {f : Closure} (hf : f.From P) {vs : List Value} (hvs : ∀ v ∈ vs, v.From P) :
    Keeps P (Run.invoke (n + 1) f vs) (Value.From P) := by
  have hbody := hn.execAll (Closure.From.body hP hf)
  refine (callEnvironment_keeps f hvs).bind fun inner _ => ?_
  exact (hbody.within inner).bind fun r hr => callResult_keeps f hr

theorem exec_succ {s : Stmt} (h : P (.stmt s)) :
    Keeps P (Run.exec (n + 1) s) (Completion.From P) := by
  have hparts := hP _ h
  cases s with
  | expression e =>
    exact (hn.eval (hparts _ (by simp [Piece.parts]))).bind fun _ _ => .pure from_normal
  | print e =>
    refine (hn.eval (hparts (.expr e) (by simp [Piece.parts]))).bind fun v _ => ?_
    exact (Keeps.print v).bind fun _ _ => .pure from_normal
  | var name initializer =>
    cases initializer with
    | none => exact (define_keeps name .none).bind fun _ _ => .pure from_normal
    | some e =>
      refine (hn.eval (hparts (.expr e) (by simp [Piece.parts, Piece.ofExpr?]))).bind fun v hv => ?_
      exact (define_keeps name (.some hv)).bind fun _ _ => .pure from_normal
  | block body =>
    have hbody := hn.execAll fun s hs => hparts (.stmt s) (by simpa [Piece.parts] using hs)
    refine Keeps.environment.bind fun e _ => ?_
    exact (child_keeps e).bind fun inner _ => hbody.within inner
  | ite condition thenBranch elseBranch =>
    refine (hn.eval (hparts (.expr condition) (by simp [Piece.parts]))).bind fun v _ => ?_
    by_cases hv : v.isTruthy = true
    · rw [if_pos hv]
      exact hn.exec (hparts _ (by simp [Piece.parts]))
    · rw [if_neg hv]
      cases elseBranch with
      | none => exact .pure from_normal
      | some branch => exact hn.exec (hparts _ (by simp [Piece.parts, Piece.ofStmt?]))
  | loop condition body increment =>
    obtain ⟨hcondition, hrest⟩ := List.forall_mem_cons.1 hparts
    obtain ⟨hbody, hincrement⟩ := List.forall_mem_cons.1 hrest
    exact hn.iterate hcondition hbody hincrement
  | «break» keyword => exact .pure fun _ h => Completion.noConfusion h
  | «continue» keyword => exact .pure fun _ h => Completion.noConfusion h
  | breakError keyword => exact .fail _ _
  | continueError keyword => exact .fail _ _
  | function decl =>
    obtain ⟨name, function⟩ := decl
    have hfunction := hparts (.lambda function)
      (by simp [Piece.parts, Piece.ofDeclarations, FunctionDecl.function])
    refine (closure_keeps (some name.lexeme) hfunction).bind fun v hv => ?_
    exact (define_keeps name (.some hv)).bind fun _ _ => .pure from_normal
  | «return» keyword value =>
    cases value with
    | none => exact .pure (from_return .nil)
    | some e =>
      have hvalue := hn.eval (hparts (.expr e) (by simp [Piece.parts, Piece.ofExpr?]))
      exact hvalue.bind fun v hv => .pure (from_return hv)
  | «class» name superclass own statics =>
    obtain ⟨_, hrest⟩ := List.forall_mem_cons.1 hparts
    obtain ⟨hrest, hstatics⟩ := List.forall_mem_append.1 hrest
    obtain ⟨_, hown⟩ := List.forall_mem_append.1 hrest
    refine (superclass_keeps superclass).bind fun superclass hs => ?_
    refine Keeps.environment.bind fun e _ => ?_
    exact (defineClass_keeps e name hs hown hstatics).bind fun _ _ => .pure from_normal

omit hP in
theorem execAll_succ {body : List Stmt} (h : ∀ s ∈ body, P (.stmt s)) :
    Keeps P (Run.execAll (n + 1) body) (Completion.From P) := by
  cases body with
  | nil => exact .pure from_normal
  | cons s rest =>
    obtain ⟨hs, hrest⟩ := List.forall_mem_cons.1 h
    refine (hn.exec hs).bind fun r hr => ?_
    cases r with
    | normal => exact hn.execAll hrest
    | _ => exact .pure hr

omit hP in
theorem iterate_succ {condition : Expr} {body : Stmt} {increment : Option Expr}
    (hcondition : P (.expr condition)) (hbody : P (.stmt body))
    (hincrement : ∀ q ∈ Piece.ofExpr? increment, P q) :
    Keeps P (Run.iterate (n + 1) condition body increment) (Completion.From P) := by
  unfold Run.iterate
  refine (hn.eval hcondition).bind fun v _ => ?_
  by_cases hv : v.isTruthy = true
  · rw [if_pos hv]
    refine (hn.exec hbody).bind fun r hr => ?_
    cases r with
    | «return» w => exact .pure hr
    | «break» => exact .pure from_normal
    | _ =>
      cases increment with
      | none => exact hn.iterate hcondition hbody hincrement
      | some e =>
        have hnext := hn.eval (hincrement (.expr e) (List.mem_singleton_self _))
        exact hnext.bind fun _ _ => hn.iterate hcondition hbody hincrement
  · rw [if_neg hv]
    exact .pure from_normal

end Keeping

theorem keeping (hP : Hereditary P) (n : Nat) : Keeping P n := by
  induction n with
  | zero => constructor <;> intros <;> exact .outOfFuel
  | succ n ih =>
    exact ⟨ih.eval_succ hP, ih.evalAll_succ, fun hv hvs => ih.call_succ hv _ hvs,
      fun hf hvs => ih.invoke_succ hP hf hvs, ih.exec_succ hP, ih.execAll_succ, ih.iterate_succ⟩

theorem execEach_keeps (hP : Hereditary P) (fuel : Nat) {body : List Stmt}
    (h : ∀ s ∈ body, P (.stmt s)) : Keeps P (execEach fuel body) fun _ => True := by
  induction body with
  | nil => exact .pure trivial
  | cons s rest ih =>
    obtain ⟨hs, hrest⟩ := List.forall_mem_cons.1 h
    exact ((keeping hP fuel).exec hs).bind fun _ _ => ih hrest

theorem program_keeps (hP : Hereditary P) (fuel : Nat) {p : Program} (h : ∀ q ∈ p.pieces, P q) :
    Keeps P (Run.program fuel p) fun _ => True := by
  cases p with
  | statements body =>
    exact (execEach_keeps hP fuel (List.forall_mem_map.1 h)).bind fun _ _ => .pure trivial
  | expression e =>
    have he := (keeping hP fuel).eval (h (.expr e) (List.mem_singleton_self _))
    exact he.bind fun v _ => (Keeps.print v).bind fun _ _ => .pure trivial

end Run

theorem Heap.start_from (time : Float) : (Machine.start time).heap.From P :=
  (Heap.Alike.empty.newFrame []).setSlot 0 "clock" (.assigned (.native .clock))

/-- The code and the values of the point are such. -/
def Point.From (P : Piece → Prop) : Point → Prop
  | .expr _ e _ => P (.expr e)
  | .exprs _ es _ => ∀ e ∈ es, P (.expr e)
  | .call _ callee paren arguments _ =>
    callee.From P ∧ (∃ f es, P (.expr (.call f paren es))) ∧ ∀ v ∈ arguments, v.From P
  | .bind method receiver _ => method.From P ∧ receiver.From P
  | .invoke _ f arguments _ => f.From P ∧ ∀ v ∈ arguments, v.From P
  | .stmt _ s _ => P (.stmt s)
  | .stmts _ body _ => ∀ s ∈ body, P (.stmt s)
  | .loop _ condition body increment _ =>
    P (.expr condition) ∧ P (.stmt body) ∧ ∀ q ∈ Piece.ofExpr? increment, P q
  | .each _ body _ => ∀ s ∈ body, P (.stmt s)

section Points

variable {Q R : Point} {n : Nat} {m m' : Machine} {v : Value} (hP : Hereditary P)
include hP

theorem eval_from {e : Expr} (he : P (.expr e)) (hm : m.heap.From P) (h : eval n e m = .ok v m') :
    m'.heap.From P ∧ v.From P := by
  obtain ⟨hstays, hv⟩ := ((keeping hP n).eval he m hm).of_ok h
  exact ⟨hstays.heap, hv⟩

theorem exec_from {s : Stmt} {r : Completion} (hs : P (.stmt s)) (hm : m.heap.From P)
    (h : exec n s m = .ok r m') : m'.heap.From P :=
  (((keeping hP n).exec hs m hm).of_ok h).1.heap

omit hP in
theorem newObject_from {id : ObjectId} (hm : m.heap.From P)
    (h : access (.newObject ∅) m = .ok id m') : m'.heap.From P :=
  ((newObject_keeps m hm).of_ok h).1.heap

omit hP in
theorem getAt_from {e : Environment} {distance : Nat} {x : Token} (hm : m.heap.From P)
    (h : access (.getAt e distance x) m = .ok v m) : v.From P := by
  have hkeeps : Keeps P (access (.getAt e distance x)) (Value.From P) :=
    .value (Access.getAt_agrees distance (here x))
  exact ((hkeeps m hm).of_ok h).2

/-- A point from such code calls only points from such code. -/
theorem Calls.from (h : Calls Q R) (hm : Q.start.heap.From P) (hQ : Q.From P) :
    R.start.heap.From P ∧ R.From P := by
  have hexpr {e : Expr} {q : Piece} (he : P (.expr e)) (hq : q ∈ (Piece.expr e).parts) : P q :=
    hP _ he q hq
  have hstmt {s : Stmt} {q : Piece} (hs : P (.stmt s)) (hq : q ∈ (Piece.stmt s).parts) : P q :=
    hP _ hs q hq
  cases h with
  | grouping | operand | left | condition | assigned | callee | object | setObject =>
    exact ⟨hm, hexpr hQ (by simp [Piece.parts])⟩
  | right hl _ =>
    exact ⟨(eval_from hP (hexpr hQ (by simp [Piece.parts])) hm hl).1, hexpr hQ (by simp [Piece.parts])⟩
  | thenValue hc _ | elseValue hc _ =>
    exact ⟨(eval_from hP (hexpr hQ (by simp [Piece.parts])) hm hc).1, hexpr hQ (by simp [Piece.parts])⟩
  | arguments hf =>
    exact ⟨(eval_from hP (hexpr hQ (by simp [Piece.parts])) hm hf).1,
      fun e he => hexpr hQ (by simp [Piece.parts, he])⟩
  | call hf ha =>
    obtain ⟨hm', hv⟩ := eval_from hP (hexpr hQ (by simp [Piece.parts])) hm hf
    obtain ⟨hstays, hvs⟩ :=
      ((keeping hP _).evalAll (fun e he => hexpr hQ (by simp [Piece.parts, he])) _ hm').of_ok ha
    exact ⟨hstays.heap, hv, ⟨_, _, hQ⟩, hvs⟩
  | bindProperty ho _ hfound =>
    obtain ⟨hm', hv⟩ := eval_from hP (hexpr hQ (by simp [Piece.parts])) hm ho
    exact ⟨hm', Class.From.method hv.receiver.cls hfound, hv.receiver⟩
  | setValue ho ht =>
    obtain ⟨hm', _⟩ := eval_from hP (hexpr hQ (by simp [Piece.parts])) hm ho
    exact ⟨((propertyTable_keeps _ _ _ hm').of_ok ht).1.heap, hexpr hQ (by simp [Piece.parts])⟩
  | bindSuper _ hs ht hfound =>
    have hcls := (getAt_from hm hs).cls
    exact ⟨hm, Class.From.method hcls hfound, (getAt_from hm ht).receiver⟩
  | firstExpr => exact ⟨hm, hQ _ List.mem_cons_self⟩
  | restExprs he =>
    obtain ⟨hfirst, hrest⟩ := List.forall_mem_cons.1 hQ
    exact ⟨(eval_from hP hfirst hm he).1, hrest⟩
  | function _ => exact ⟨hm, hQ.1.function, hQ.2.2⟩
  | bindInitializer _ ho hfound =>
    have hmethod := Class.From.method hQ.1.cls hfound
    exact ⟨newObject_from hm ho, hmethod, hQ.1.cls.newInstance _⟩
  | initializer _ ho hfound hb =>
    have hmethod := Class.From.method hQ.1.cls hfound
    have hreceiver := hQ.1.cls.newInstance
    obtain ⟨hstays, hf⟩ :=
      (bindMethod_keeps hmethod (hreceiver _) _ (newObject_from hm ho)).of_ok hb
    exact ⟨hstays.heap, hf, hQ.2.2⟩
  | body hi =>
    have hstays := ((callEnvironment_keeps _ hQ.2 _ hm).of_ok hi).1
    exact ⟨hstays.heap, Closure.From.body hP hQ.1⟩
  | expression | print | var | iteCondition | returned =>
    exact ⟨hm, hstmt hQ (by simp [Piece.parts, Piece.ofExpr?])⟩
  | block hi =>
    have hstays := ((child_keeps _ _ hm).of_ok hi).1
    exact ⟨hstays.heap, fun s hs => hstmt hQ (by simpa [Piece.parts] using hs)⟩
  | thenBranch hc _ | elseBranch hc _ =>
    exact ⟨(eval_from hP (hstmt hQ (by simp [Piece.parts])) hm hc).1,
      hstmt hQ (by simp [Piece.parts, Piece.ofStmt?])⟩
  | loop =>
    obtain ⟨hcondition, hrest⟩ := List.forall_mem_cons.1 (hP _ hQ)
    obtain ⟨hbody, hincrement⟩ := List.forall_mem_cons.1 hrest
    exact ⟨hm, hcondition, hbody, hincrement⟩
  | firstStmt | firstInput => exact ⟨hm, hQ _ List.mem_cons_self⟩
  | restStmts hs | restInput hs =>
    obtain ⟨hfirst, hrest⟩ := List.forall_mem_cons.1 hQ
    exact ⟨exec_from hP hfirst hm hs, hrest⟩
  | turnCondition => exact ⟨hm, hQ.1⟩
  | turnBody hc _ => exact ⟨(eval_from hP hQ.1 hm hc).1, hQ.2.1⟩
  | increment hc _ hb _ =>
    have hm' := exec_from hP hQ.2.1 (eval_from hP hQ.1 hm hc).1 hb
    exact ⟨hm', hQ.2.2 _ (List.mem_singleton_self _)⟩
  | nextTurn hc _ hb _ => exact ⟨exec_from hP hQ.2.1 (eval_from hP hQ.1 hm hc).1 hb, hQ⟩
  | nextTurnAfter hc _ hb _ hi =>
    have hm' := exec_from hP hQ.2.1 (eval_from hP hQ.1 hm hc).1 hb
    exact ⟨(eval_from hP (hQ.2.2 _ (List.mem_singleton_self _)) hm' hi).1, hQ⟩

/-- So is everything that a run comes to. -/
theorem Reaches.from (h : Reaches Q R) (hm : Q.start.heap.From P) (hQ : Q.From P) :
    R.start.heap.From P ∧ R.From P := by
  induction h with
  | refl => exact ⟨hm, hQ⟩
  | tail _ hcalls ih => exact hcalls.from hP ih.1 ih.2

end Points

end Lox
