import Lox.Proofs.Evaluation.Faults
import Lox.Proofs.Objects.Properties

/-!
What calls of classes and of initializers give. The instance is the one that the call itself has made, and
an initializer gives its receiver, however its body ends. A body starts with an argument for each
parameter.
-/

namespace Lox

open Run

namespace Access

/-- The parameters are bound in the new frame, which has no name twice. -/
theorem defineAll_slots {e : Environment} {bindings : List (Token × Value)} {h h' : Heap}
    (he : e.inner < h.frames.size) (hd : defineAll e bindings h = .ok () h') :
    (∀ b ∈ bindings, h'.slot? e.inner b.1.lexeme = some (.assigned b.2)) ∧
      ∀ frame x slot, h.slot? frame x = some slot → h'.slot? frame x = some slot := by
  induction bindings generalizing h with
  | nil =>
    cases hd
    exact ⟨List.forall_mem_nil _, fun _ _ _ hslot => hslot⟩
  | cons b rest ih =>
    obtain ⟨_, h₁, hfirst, hrest⟩ := bind_eq_ok (p := define e b.1 (some b.2)) hd
    obtain ⟨hnone, hsize⟩ := define_ok hfirst
    have hset : h₁ = h.setSlot e.inner b.1.lexeme (.assigned b.2) := by
      unfold define at hfirst
      rw [hnone] at hfirst
      cases hfirst
      rfl
    obtain ⟨hbound, hkept⟩ := ih (hsize ▸ he) hrest
    refine ⟨List.forall_mem_cons.2 ⟨?_, hbound⟩, fun frame x slot hslot => ?_⟩
    · apply hkept
      rw [hset, Heap.slot?_setSlot h he, if_pos ⟨rfl, rfl⟩]
    · apply hkept
      rw [hset, Heap.slot?_setSlot h he, if_neg]
      · exact hslot
      · rintro ⟨rfl, rfl⟩
        rw [hnone] at hslot
        cases hslot

theorem callEnvironment_slots {f : Closure} {arguments : List Value} {h h' : Heap}
    {inner : Environment} (hc : Run.callEnvironment f arguments h = .ok inner h') :
    inner = ⟨h.frames.size, f.environment.frames⟩ ∧
      ∀ b ∈ f.function.params.zip arguments,
        h'.slot? h.frames.size b.1.lexeme = some (.assigned b.2) := by
  obtain ⟨e, h₁, hchild, hrest⟩ := bind_eq_ok (p := child f.environment) hc
  cases hchild
  obtain ⟨_, h₂, hdefine, hinner⟩ := bind_eq_ok (p := defineAll _ _) hrest
  cases hinner
  have hlt : h.frames.size < (h.newFrame f.environment.frames).2.frames.size := by
    rw [Heap.size_newFrame]
    exact Nat.lt_succ_self _
  exact ⟨rfl, (defineAll_slots hlt hdefine).1⟩

end Access

/-- A body starts in a new frame, in which each parameter has its argument. -/
theorem Calls.body_bound {n : Nat} {f : Closure} {arguments : List Value} {m : Machine} {Q : Point}
    (h : Calls (.invoke (n + 1) f arguments m) Q) :
    ∃ m', Q = .stmts n f.function.body m' ∧
      m'.environment = ⟨m.heap.frames.size, f.environment.frames⟩ ∧
      ∀ b ∈ f.function.params.zip arguments,
        m'.heap.slot? m'.environment.inner b.1.lexeme = some (.assigned b.2) := by
  cases h with
  | body hi =>
    obtain ⟨hi, _⟩ := access_ok hi
    obtain ⟨rfl, hbound⟩ := Access.callEnvironment_slots hi
    exact ⟨_, rfl, rfl, hbound⟩

theorem FunctionDecl.last?_name {decls : List FunctionDecl} {x : String} {decl : FunctionDecl}
    (h : FunctionDecl.last? decls x = some decl) : decl.name.lexeme = x := by
  simpa using List.find?_some h

/-- What a chain of classes has for `init` is an initializer. -/
theorem Class.Resolves.isInitializer {visited : Point → Prop} {cls : Class} {found : Option Closure}
    (h : cls.Resolves visited "init" found) : ∀ method ∈ found, method.isInitializer = true := by
  induction h with
  | own _ _ last method =>
    intro f hf
    cases hf
    rw [method.isInitializer, FunctionDecl.last?_name last]
    rfl
  | inherited _ _ _ _ _ ih => exact ih
  | nowhere => exact fun f hf => nomatch hf

/-- The function is an initializer that is bound to the receiver. -/
def Closure.Initializes (f : Closure) (census : Census) (receiver : Instance) : Prop :=
  f.In census (some receiver) ∧ f.isInitializer = true

theorem Closure.In.receiver_eq {census : Census} {f : Closure} {receiver receiver' : Instance}
    (h : f.In census (some receiver)) (h' : f.In census (some receiver')) : receiver = receiver' := by
  have hsame := Option.some.inj (h.symm.trans h')
  exact Option.some.inj (Prod.mk.inj hsame).2

/-- An initializer was bound to what it gives. -/
theorem Closure.Sound.gives_receiver {w : View} {f : Closure} {m : Machine} (h : f.Sound w)
    (hheap : w.heap = m.heap) (hinit : f.isInitializer = true) (c : Completion) :
    ∃ method receiver m₀ m₁, w.visited (.bind method receiver m₀) ∧
      access (.bindMethod method receiver) m₀ = .ok f m₁ ∧
      Run.callResult f c m = .ok (.instance receiver) m := by
  cases h with
  | plain _ _ _ ordinary => exact absurd hinit (by simp [ordinary])
  | @bound method receiver m₀ h₀ _ _ _ bound made _ _ _ this _ _ _ =>
    have hinner : f.environment.inner = m₀.heap.frames.size :=
      congrArg Environment.inner (bindMethod_closure made).1
    have hslot : m.heap.slot? f.environment.inner "this" = some (.assigned (.instance receiver)) := by
      rw [hinner, ← hheap]
      exact this
    have haccess : access (.bindMethod method receiver) m₀ = .ok f { m₀ with heap := h₀ } := by
      unfold Run.access
      simp only [made]
    refine ⟨method, receiver, m₀, _, bound, haccess, ?_⟩
    unfold Run.callResult
    rw [if_pos hinit]
    have hancestor : f.environment.ancestor? 0 = some f.environment := rfl
    exact getAt_eq hancestor hslot

theorem Point.Sound.initialized {W : World} {begun : Begun} {n : Nat} {f : Closure}
    {arguments : List Value} {m m' : Machine} {v : Value}
    (h : (Point.invoke n f arguments m).Sound W begun) (hinit : f.isInitializer = true)
    (hr : Run.invoke n f arguments m = .ok v m') :
    ∃ method receiver m₀ m₁, W.visited (.bind method receiver m₀) ∧
      access (.bindMethod method receiver) m₀ = .ok f m₁ ∧ v = .instance receiver := by
  cases n with
  | zero => cases hr
  | succ n =>
    obtain ⟨inner, m₂, hi, hbody⟩ := bind_eq_ok (p := access (callEnvironment f arguments)) hr
    obtain ⟨c, m₃, hb, hresult⟩ :=
      bind_eq_ok (p := Run.within inner (execAll n f.function.body)) hbody
    obtain ⟨method, receiver, m₀, m₁, hv, hf, hgives⟩ :=
      (h.afterBody hi hb).gives_receiver (m := m₃) rfl hinit c
    cases hgives.symm.trans hresult
    exact ⟨method, receiver, m₀, m₁, hv, hf, rfl⟩

/-- How the call of a class ends with a value. -/
theorem call_class_ok {n : Nat} {cls : Class} {paren : Token} {arguments : List Value}
    {m m' : Machine} {v : Value} (hr : Run.call (n + 1) (.class cls) paren arguments m = .ok v m') :
    checkArity paren cls.arity arguments.length m = .ok () m ∧
      v = .instance ⟨m.heap.objects.size, cls⟩ ∧
      ∃ m₁, access (.newObject ∅) m = .ok m.heap.objects.size m₁ ∧
        ∀ method, cls.initializer? = some method → ∃ f m₂ w,
          access (.bindMethod method ⟨m.heap.objects.size, cls⟩) m₁ = .ok f m₂ ∧
          Run.invoke n f arguments m₂ = .ok w m' := by
  obtain ⟨_, m₀, harity, hnew⟩ :=
    bind_eq_ok (p := checkArity paren cls.arity arguments.length) hr
  obtain ⟨_, rfl⟩ := checkArity_ok harity
  obtain ⟨id, m₁, hid, hinit⟩ := bind_eq_ok (p := access (.newObject ∅)) hnew
  cases hid
  cases hmethod : cls.initializer? with
  | none =>
    simp only [hmethod] at hinit
    cases hinit
    exact ⟨harity, rfl, _, rfl, fun method hsome => nomatch hsome⟩
  | some method =>
    simp only [hmethod] at hinit
    obtain ⟨f, m₂, hf, hrest⟩ := bind_eq_ok (p := access (.bindMethod method _)) hinit
    obtain ⟨w, m₃, hw, hdone⟩ := bind_eq_ok (p := Run.invoke n f arguments) hrest
    cases hdone
    refine ⟨harity, rfl, _, rfl, fun method' hsome => ?_⟩
    cases hsome
    exact ⟨f, m₂, w, hf, hw⟩

/-- What `super` gives: a method of the superclass, bound to the receiver of the running method. -/
theorem superMethod_ok {ref : Reference} {method : Token} {m m' : Machine} {v : Value}
    (hr : superMethod ref method m = .ok v m') : ∃ distance cls receiver found f,
      m.hops[ref.id]? = some distance ∧
      access (.getAt m.environment distance ref.name) m = .ok (.class cls) m ∧
      access (.getAt m.environment (distance - 1) (.synthetic .this "this" ref.name.line)) m =
        .ok (.instance receiver) m ∧
      cls.method? method.lexeme = some found ∧
      access (.bindMethod found receiver) m = .ok f m' ∧ v = .function f := by
  obtain ⟨distance?, m₁, hhops, hrest⟩ := bind_eq_ok (p := hops? ref.id) hr
  cases hhops
  cases hdistance : m.hops[ref.id]? with
  | none =>
    simp only [hdistance] at hrest
    cases hrest
  | some distance =>
    simp only [hdistance] at hrest
    obtain ⟨e, m₂, he, hrest⟩ := bind_eq_ok (p := environment) hrest
    cases he
    obtain ⟨w, m₃, hsuper, hrest⟩ := bind_eq_ok (p := access (.getAt m.environment _ _)) hrest
    obtain rfl := getAt_state hsuper
    cases w with
    | «class» cls =>
      obtain ⟨w, m₄, hthis, hrest⟩ := bind_eq_ok (p := access (.getAt m₃.environment _ _)) hrest
      obtain rfl := getAt_state hthis
      cases w with
      | «instance» receiver =>
        cases hfound : cls.method? method.lexeme with
        | none =>
          simp only [hfound] at hrest
          cases hrest
        | some found =>
          simp only [hfound] at hrest
          have hbind : (access (.bindMethod found receiver) >>= fun f => pure (Value.function f)) m₄ =
            .ok v m' := hrest
          obtain ⟨f, m₅, hf, hdone⟩ := bind_eq_ok hbind
          cases hdone
          exact ⟨distance, cls, receiver, found, f, rfl, hsuper, hthis, hfound, hf, rfl⟩
      | _ => cases hrest
    | _ => cases hrest

theorem getAt_holds {e : Environment} {distance : Nat} {name : Token} {m m' : Machine} {v : Value}
    (h : access (.getAt e distance name) m = .ok v m') : m.heap.Holds v := by
  obtain ⟨ancestor, _, hslot, _⟩ := getAt_ok h
  exact .inl ⟨ancestor.inner, name.lexeme, hslot⟩

/-- The call of a class that ends with a value: it has made the instance, and then the initializer, if
there is one, was bound to the instance and called once. -/
structure Class.Constructs (cls : Class) (census : Census) (n : Nat) (paren : Token)
    (arguments : List Value) (m : Machine) (v : Value) (m' : Machine) : Prop where
  value : v = .instance ⟨m.heap.objects.size, cls⟩
  plain : cls.initializer? = none →
    arguments = [] ∧ ∀ Q, ¬ Calls (.call (n + 1) (.class cls) paren arguments m) Q
  initialized : ∀ method, cls.initializer? = some method → ∃ f m₁ m₂,
    access (.newObject ∅) m = .ok m.heap.objects.size m₁ ∧
    f.BoundTo census method ⟨m.heap.objects.size, cls⟩ m₁.heap m₂.heap ∧
    Run.invoke n f arguments m₂ = .ok v m' ∧
    ∀ Q, Calls (.call (n + 1) (.class cls) paren arguments m) Q ↔
      Q = .bind method ⟨m.heap.objects.size, cls⟩ m₁ ∨ Q = .invoke n f arguments m₂

section Sessions

variable {fuel : Nat} {time : Float} {inputs : List (Mode × String)} {census : Census}
  (hlisted : ∀ P, (Session.start time).Visits fuel inputs P →
    P.Listed ((Session.start time).Visits fuel inputs) census)
include hlisted

/-- A method that is bound to a receiver is listed with the receiver. -/
theorem Session.Visits.bound {method f : Closure} {receiver : Instance} {m m' : Machine}
    (hv : (Session.start time).Visits fuel inputs (.bind method receiver m))
    (hf : access (.bindMethod method receiver) m = .ok f m') :
    f.BoundTo census method receiver m.heap m'.heap := by
  obtain ⟨before, after, hbind, hlater⟩ := hlisted _ hv
  exact hbind.start.boundTo hf ((hbind.enters f m' hf).mono hlater)

/-- An initializer that ends gives the receiver that it is bound to. -/
theorem Session.Visits.initialized {n : Nat} {f : Closure} {receiver : Instance}
    {arguments : List Value} {m m' : Machine} {v : Value}
    (hv : (Session.start time).Visits fuel inputs (.invoke n f arguments m))
    (hf : f.Initializes census receiver) (hr : Run.invoke n f arguments m = .ok v m') :
    v = .instance receiver := by
  obtain ⟨W, begun, hsound, hvisited, _⟩ := Session.visits_sound hv
  obtain ⟨method, receiver', m₀, m₁, hbind, hbound, rfl⟩ := hsound.initialized hf.2 hr
  have hlisted' := (Session.Visits.bound hlisted (hvisited _ hbind) hbound).listed
  rw [hf.1.receiver_eq hlisted']

theorem Session.Visits.constructs {n : Nat} {cls : Class} {paren : Token} {arguments : List Value}
    {m m' : Machine} {v : Value}
    (hv : (Session.start time).Visits fuel inputs (.call (n + 1) (.class cls) paren arguments m))
    (hresolves : cls.Resolves ((Session.start time).Visits fuel inputs) "init" cls.initializer?)
    (hr : Run.call (n + 1) (.class cls) paren arguments m = .ok v m') :
    cls.Constructs census n paren arguments m v m' := by
  obtain ⟨harity, hvalue, m₁, hnew, hinit⟩ := call_class_ok hr
  refine ⟨hvalue, fun hnone => ⟨?_, fun Q hQ => ?_⟩, fun method hmethod => ?_⟩
  · obtain ⟨hlength, _⟩ := checkArity_ok harity
    rw [Class.arity, hnone] at hlength
    exact List.eq_nil_of_length_eq_zero hlength
  · cases hQ with
    | bindInitializer _ _ hm => rw [hnone] at hm; cases hm
    | initializer _ _ hm => rw [hnone] at hm; cases hm
  · obtain ⟨f, m₂, w, hf, hw⟩ := hinit method hmethod
    have hbound := Session.Visits.bound hlisted (hv.calls (.bindInitializer harity hnew hmethod)) hf
    have hinitializes : f.Initializes census ⟨m.heap.objects.size, cls⟩ :=
      ⟨hbound.listed, hbound.isInitializer.trans (hresolves.isInitializer method hmethod)⟩
    have hgives := Session.Visits.initialized hlisted
      (hv.calls (.initializer harity hnew hmethod hf)) hinitializes hw
    refine ⟨f, m₁, m₂, hnew, hbound, ?_, fun Q => ⟨fun hQ => ?_, ?_⟩⟩
    · rw [hw, hgives, hvalue]
    · cases hQ with
      | bindInitializer _ ho hm =>
        cases hnew.symm.trans ho
        cases hmethod.symm.trans hm
        exact .inl rfl
      | initializer _ ho hm hb =>
        cases hnew.symm.trans ho
        cases hmethod.symm.trans hm
        cases hf.symm.trans hb
        exact .inr rfl
    · rintro (rfl | rfl)
      · exact .bindInitializer harity hnew hmethod
      · exact .initializer harity hnew hmethod hf

theorem Session.Visits.initializes (hdescribes : ∀ cls : Class, cls.In census →
      cls.Resolves ((Session.start time).Visits fuel inputs) "init" (cls.method? "init"))
    {method f : Closure} {cls : Class} {receiver : Instance} {m m' : Machine} (hcls : cls.In census)
    (hmethod : cls.method? "init" = some method)
    (hv : (Session.start time).Visits fuel inputs (.bind method receiver m))
    (hf : access (.bindMethod method receiver) m = .ok f m') : f.Initializes census receiver := by
  have hbound := Session.Visits.bound hlisted hv hf
  exact ⟨hbound.listed, hbound.isInitializer.trans ((hdescribes cls hcls).isInitializer method hmethod)⟩

end Sessions

/-- The class that a global variable has. -/
def Heap.class? (h : Heap) (x : String) : Option Class :=
  match h.slot? 0 x with
  | some (.assigned (.class cls)) => some cls
  | _ => none

theorem Heap.slot?_of_class? {h : Heap} {x : String} {cls : Class} (hc : h.class? x = some cls) :
    h.slot? 0 x = some (.assigned (.class cls)) := by
  unfold Heap.class? at hc
  split at hc
  next hslot =>
    cases hc
    exact hslot
  next => cases hc

def resultOf {α : Type} : EStateM.Result Halt Machine α → Option α
  | .ok a _ => some a
  | .error _ _ => none

theorem resultOf_isSome {α : Type} {r : EStateM.Result Halt Machine α} (h : (resultOf r).isSome) :
    ∃ a m, r = .ok a m := by
  cases r with
  | ok a m => exact ⟨a, m, rfl⟩
  | error halt m => cases h

end Lox
