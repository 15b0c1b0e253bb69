import Lox.Proofs.Evaluation.Sessions
import Lox.Proofs.Objects.Counting

/-!
All that a session evaluates is listed in one census. An evaluation whose heap is listed ends with a
heap that a later census lists, and that one lists whatever the evaluation has come through.
-/

namespace Lox

open Run

namespace Point

/-- The values that an evaluation has from the start. -/
def values : Point → List Value
  | call _ callee _ arguments _ => callee :: arguments
  | bind _ receiver _ => [.instance receiver]
  | invoke _ f arguments _ => .function f :: arguments
  | _ => []

/-- The evaluation ends with the value. -/
def Gives : Point → Value → Prop
  | expr n e m, v => ∃ m', eval n e m = .ok v m'
  | exprs n es m, v => ∃ vs m', evalAll n es m = .ok vs m' ∧ v ∈ vs
  | call n callee paren arguments m, v => ∃ m', Run.call n callee paren arguments m = .ok v m'
  | bind method receiver m, v =>
    ∃ f m', access (.bindMethod method receiver) m = .ok f m' ∧ v = .function f
  | invoke n f arguments m, v => ∃ m', Run.invoke n f arguments m = .ok v m'
  | stmt n s m, v => ∃ m', exec n s m = .ok (.return v) m'
  | stmts n body m, v => ∃ m', execAll n body m = .ok (.return v) m'
  | loop n condition body increment m, v =>
    ∃ m', iterate n condition body increment m = .ok (.return v) m'
  | each _ _ _, _ => False

/-- What an evaluation enters in the census: a method that it binds, with the receiver, or a class that
it makes, whose properties are the static methods. -/
def Enters (census : Census) : Point → Prop
  | bind method receiver m =>
    ∀ f m', access (.bindMethod method receiver) m = .ok f m' → f.In census (some receiver)
  | stmt n (.class name superclass? own statics) m =>
    ∀ r m', exec n (.class name superclass? own statics) m = .ok r m' →
      ∃ cls : Class, cls.In census ∧ cls.MadeAt name superclass? own m ∧
        ∀ x, Option.Rel (Value.IsStatic (m.environment.ofMethods m.heap cls.superclass?))
          (FunctionDecl.last? statics x) (m'.heap.property? cls.own.id x)
  | _ => True

/-- One census lists the heap before an evaluation, and a later one the heap after it, with the values
that the evaluation has and gives. -/
structure Between (visited : Point → Prop) (before after : Census) (P : Point) : Prop where
  le : before.Le after
  start : before.Describes visited P.start.heap
  stop : after.Describes visited P.stop.heap
  values : ∀ v ∈ P.values, v.In before
  gives : ∀ v, P.Gives v → v.In after
  enters : P.Enters after

theorem Between.value {visited : Point → Prop} {before after : Census} {n : Nat} {e : Expr}
    {m m' : Machine} {v : Value} (h : (Point.expr n e m).Between visited before after)
    (hr : eval n e m = .ok v m') : after.Describes visited m'.heap ∧ v.In after := by
  have hstop : after.Describes visited (machineOf (eval n e m)).heap := h.stop
  rw [hr] at hstop
  exact ⟨hstop, h.gives v ⟨m', hr⟩⟩

/-- The census lists an evaluation, and may have grown since. -/
def Listed (visited : Point → Prop) (census : Census) (P : Point) : Prop :=
  ∃ before after, P.Between visited before after ∧ after.Le census

theorem Listed.mono {visited : Point → Prop} {c c' : Census} {P : Point} (h : P.Listed visited c)
    (hle : c.Le c') : P.Listed visited c' := by
  obtain ⟨before, after, hbetween, hlater⟩ := h
  exact ⟨before, after, hbetween, hlater.trans hle⟩

end Point

namespace Run

/-- How an action ends on a machine that is listed. What it evaluates is listed then. -/
inductive Counts (visited : Point → Prop) (c : Census) {α : Type} (T : Point → Prop)
    (A : Census → Heap → α → Prop) : EStateM.Result Halt Machine α → Prop where
  | ok {c' a m} (later : c.Le c') (describes : c'.Describes visited m.heap)
    (result : A c' m.heap a) (points : ∀ Q, T Q → ∀ R, Reaches Q R → R.Listed visited c') :
    Counts visited c T A (.ok a m)
  | error {c' halt m} (later : c.Le c') (describes : c'.Describes visited m.heap)
    (points : ∀ Q, T Q → ∀ R, Reaches Q R → R.Listed visited c') :
    Counts visited c T A (.error halt m)

/-- The points of an action, and then those of what follows it. -/
def Then {α : Type} (r : EStateM.Result Halt Machine α) (T : Point → Prop)
    (T' : α → Machine → Point → Prop) (Q : Point) : Prop :=
  T Q ∨ ∃ a m, r = .ok a m ∧ T' a m Q

/-- No point. -/
def Nowhere (_ : Point) : Prop := False

namespace Counts

variable {α β : Type} {visited : Point → Prop} {c : Census} {m : Machine} {T T' : Point → Prop}
  {A : Census → Heap → α → Prop} {B : Census → Heap → β → Prop}
  {r : EStateM.Result Halt Machine α}

theorem pure {a : α} (hd : c.Describes visited m.heap) (ha : A c m.heap a) :
    Counts visited c Nowhere A (.ok a m) := .ok (.refl c) hd ha fun _ hQ => hQ.elim

theorem fail {halt : Halt} (hd : c.Describes visited m.heap) :
    Counts visited c Nowhere A (.error halt m) := .error (.refl c) hd fun _ hQ => hQ.elim

theorem access {p : Access α} (h : Access.Counts visited c A (p m.heap)) :
    Counts visited c Nowhere A (Run.access p m) := by
  unfold Run.access
  simp only
  generalize p m.heap = r at h ⊢
  cases h with
  | ok later describes result => exact .ok later describes result fun _ hQ => hQ.elim
  | error later describes => exact .error later describes fun _ hQ => hQ.elim

theorem bind {U : α → Machine → Point → Prop} {p : Run α} {k : α → Run β}
    (hp : Counts visited c T A (p m))
    (hk : ∀ a m' c', p m = .ok a m' → c.Le c' → c'.Describes visited m'.heap → A c' m'.heap a →
      Counts visited c' (U a m') B (k a m')) :
    Counts visited c (Then (p m) T U) B ((p >>= k) m) := by
  cases hr : p m with
  | error halt m' =>
    rw [hr] at hp
    rw [bind_of_error hr]
    cases hp with
    | error later describes points =>
      refine .error later describes fun Q hQ => ?_
      rcases hQ with hQ | ⟨a, m'', hok, _⟩
      · exact points Q hQ
      · cases hok
  | ok a m' =>
    rw [hr] at hp
    rw [bind_of_ok hr]
    cases hp with
    | @ok c' _ _ later describes result points =>
      have hends := hk a m' c' hr later describes result
      have hpoints {c'' : Census} (later' : c'.Le c'')
          (points' : ∀ Q, U a m' Q → ∀ R, Reaches Q R → R.Listed visited c'') :
          ∀ Q, Then (.ok a m') T U Q → ∀ R, Reaches Q R → R.Listed visited c'' := by
        rintro Q (hQ | ⟨a', m'', hok, hQ⟩) R hR
        · exact (points Q hQ R hR).mono later'
        · cases hok
          exact points' Q hQ R hR
      generalize k a m' = r at hends ⊢
      cases hends with
      | ok later' describes' result' points' =>
        exact .ok (later.trans later') describes' result' (hpoints later' points')
      | error later' describes' points' =>
        exact .error (later.trans later') describes' (hpoints later' points')

theorem weaken {A' : Census → Heap → α → Prop} (hr : Counts visited c T A r)
    (hA : ∀ c' h a, c.Le c' → A c' h a → A' c' h a) : Counts visited c T A' r := by
  cases hr with
  | ok later describes result points => exact .ok later describes (hA _ _ _ later result) points
  | error later describes points => exact .error later describes points

/-- Fewer points. -/
theorem covers (hr : Counts visited c T A r) (hT : ∀ Q, T' Q → T Q) : Counts visited c T' A r := by
  cases hr with
  | ok later describes result points =>
    exact .ok later describes result fun Q hQ => points Q (hT Q hQ)
  | error later describes points => exact .error later describes fun Q hQ => points Q (hT Q hQ)

/-- What follows evaluates nothing. -/
theorem silent {p : Run α} {k : α → Run β} (hp : Counts visited c T A (p m))
    (hk : ∀ a m' c', p m = .ok a m' → c.Le c' → c'.Describes visited m'.heap → A c' m'.heap a →
      Counts visited c' Nowhere B (k a m')) : Counts visited c T B ((p >>= k) m) :=
  (hp.bind hk).covers fun _ hQ => .inl hQ

theorem within {e : Environment} {p : Run α}
    (hp : Counts visited c T A (p { m with environment := e })) :
    Counts visited c T A (Run.within e p m) := by
  unfold Run.within
  simp only
  generalize p { m with environment := e } = r at hp ⊢
  cases hp with
  | ok later describes result points => exact .ok later describes result points
  | error later describes points => exact .error later describes points

/-- A point is listed when those that it calls are, and its own ends. -/
theorem point {P : Point} (hd : c.Describes visited P.start.heap) (hvalues : ∀ v ∈ P.values, v.In c)
    (hr : Counts visited c (Calls P) A r) (hstop : P.stop = machineOf r)
    (hA : ∀ c', c.Le c' → (∀ a m', r = .ok a m' → A c' m'.heap a) →
      (∀ v, P.Gives v → v.In c') ∧ P.Enters c') : Counts visited c (· = P) A r := by
  have hpoints {c' : Census} (later : c.Le c') (describes : c'.Describes visited (machineOf r).heap)
      (points : ∀ Q, Calls P Q → ∀ R, Reaches Q R → R.Listed visited c')
      (result : ∀ a m', r = .ok a m' → A c' m'.heap a) :
      ∀ Q, Q = P → ∀ R, Reaches Q R → R.Listed visited c' := by
    rintro Q rfl R hR
    rcases Relation.ReflTransGen.cases_head hR with rfl | ⟨Q', hcalls, hR'⟩
    · obtain ⟨hgives, henters⟩ := hA c' later result
      exact ⟨c, c', ⟨later, hd, hstop ▸ describes, hvalues, hgives, henters⟩, .refl c'⟩
    · exact points Q' hcalls R hR'
  cases hr with
  | ok later describes result points =>
    refine .ok later describes result (hpoints later describes points fun a m' hok => ?_)
    cases hok
    exact result
  | error later describes points =>
    exact .error later describes (hpoints later describes points fun a m' hok => nomatch hok)

end Counts

/-! What the evaluator does beside evaluating parts. -/

/-- Without a property of the name a method of the class is bound. -/
theorem property_eq_bind {m : Machine} {receiver : Instance} {name : Token} {method : Closure}
    (hproperty : m.heap.property? receiver.id name.lexeme = none)
    (hmethod : receiver.cls.method? name.lexeme = some method) :
    property (.instance receiver) name m =
      (access (.bindMethod method receiver) >>= fun f => pure (Value.function f)) m := by
  show access (.instanceProperty receiver name) m = _
  unfold Run.access Access.instanceProperty
  simp only [hproperty, hmethod]
  rfl

section Operations

variable {visited : Point → Prop} {c : Census} {m : Machine} (hd : c.Describes visited m.heap)
include hd

theorem Computes.counts {operator operator' : Token} {p p' : Run Value}
    (h : Computes operator operator' p p') :
    Counts visited c Nowhere (fun c' _ v => v.In c') (p m) := by
  cases h with
  | boolean b => exact .pure hd trivial
  | number x => exact .pure hd trivial
  | string s => exact .pure hd trivial
  | fails fault => exact .fail hd

theorem print_counts (v : Value) : Counts visited c Nowhere (fun _ _ _ => True) (print v m) := by
  unfold print
  exact .pure hd trivial

theorem lookUp_counts (ref : Reference) :
    Counts visited c Nowhere (fun c' _ v => v.In c') (lookUp ref m) := by
  rw [lookUp_eq]
  split
  · exact .access (Access.getAt_counts hd _ _ _)
  · exact .access (Access.get_counts hd _ _)

theorem assign_counts (target : Reference) {v : Value} (hv : v.In c) :
    Counts visited c Nowhere (fun _ _ _ => True) (assign target v m) := by
  rw [assign_eq]
  split
  · exact (Counts.access (Access.assignAt_counts hd hv _ _ _)).weaken fun _ _ _ _ _ => trivial
  · exact (Counts.access (Access.assign_counts hd hv _ _)).weaken fun _ _ _ _ _ => trivial

theorem define_counts (name : Token) {value : Option Value} (hv : ∀ v ∈ value, v.In c) :
    Counts visited c Nowhere (fun _ _ _ => True) (define name value m) := by
  have hdefine : Counts visited c Nowhere _ (access (.define m.environment name value) m) :=
    .access (Access.define_counts hd m.environment name hv)
  exact hdefine.weaken fun _ _ _ _ _ => trivial

theorem closure_counts (name : Option String) (f : Lambda) :
    Counts visited c Nowhere (fun c' _ v => v.In c') (closure name f m) := by
  have hnew : Counts visited c Nowhere _ (access (.newClosure name f m.environment false) m) :=
    .access (Access.newClosure_counts hd name f m.environment false)
  show Counts visited c Nowhere _
    ((access (.newClosure name f m.environment false) >>= fun f => pure (Value.function f)) m)
  exact hnew.silent fun closure m' c' _ _ hd' hclosure => .pure hd' ⟨none, hclosure.2.1⟩

theorem checkArity_counts (paren : Token) (expected given : Nat) :
    Counts visited c Nowhere (fun _ _ _ => True) (checkArity paren expected given m) := by
  unfold checkArity
  split
  · exact .pure hd trivial
  · exact .fail hd

theorem callResult_counts (f : Closure) {r : Completion} (hr : r.In c) :
    Counts visited c Nowhere (fun c' _ v => v.In c') (callResult f r m) := by
  unfold callResult
  split
  · exact .access (Access.getAt_counts hd _ _ _)
  · split
    next v => exact .pure hd (hr v rfl)
    next => exact .pure hd trivial

theorem propertyTable_counts (object : Value) (name : Token) :
    Counts visited c Nowhere (fun _ _ _ => True) (propertyTable object name m) := by
  unfold propertyTable
  split
  · exact .pure hd trivial
  · exact .pure hd trivial
  · exact .fail hd

theorem superclass_counts (ref? : Option Reference) :
    Counts visited c Nowhere (fun c' _ superclass => ∀ cls ∈ superclass, cls.In c')
      (superclass ref? m) := by
  unfold superclass
  cases ref? with
  | none => exact .pure hd nofun
  | some ref =>
    refine (lookUp_counts hd ref).silent fun v m' c' _ _ hd' hv => ?_
    cases v with
    | «class» cls =>
      refine .pure hd' fun cls' hcls => ?_
      cases hcls
      exact hv
    | _ => exact .fail hd'

/-- A method that is bound is listed with its receiver. -/
theorem bindMethod_counts (method : Closure) {receiver : Instance} (hr : receiver.In c) :
    Counts visited c (· = .bind method receiver m) (fun c' _ f => f.In c' (some receiver))
      (access (.bindMethod method receiver) m) := by
  have hbound : Counts visited c Nowhere (fun c' _ f => f.In c' (some receiver))
      (access (.bindMethod method receiver) m) := .access (Access.bindMethod_counts hd method hr)
  refine .point hd (fun v hv => ?_) (hbound.covers fun Q hQ => nomatch hQ) rfl fun c' _ hf => ?_
  · rw [List.mem_singleton.1 hv]
    exact hr
  · refine ⟨?_, hf⟩
    rintro _ ⟨f, m', hok, rfl⟩
    exact ⟨some receiver, hf f m' hok⟩

theorem boundValue_counts (method : Closure) {receiver : Instance} (hr : receiver.In c) :
    Counts visited c (· = .bind method receiver m) (fun c' _ v => v.In c')
      ((access (.bindMethod method receiver) >>= fun f => pure (Value.function f)) m) := by
  refine (bindMethod_counts hd method hr).silent fun f m' c' _ _ hd' hf => ?_
  exact .pure hd' ⟨some receiver, hf⟩

/-- A property binds a method if the instance has no such property. -/
theorem property_counts {object : Value} (ho : object.In c) (name : Token) :
    Counts visited c (fun Q => ∃ receiver method, object = .instance receiver ∧
        m.heap.property? receiver.id name.lexeme = none ∧
        receiver.cls.method? name.lexeme = some method ∧ Q = .bind method receiver m)
      (fun c' _ v => v.In c') (property object name m) := by
  cases object with
  | «instance» receiver =>
    cases hproperty : m.heap.property? receiver.id name.lexeme with
    | some v =>
      have hends : Counts visited c Nowhere (fun c' _ v => v.In c')
          (access (.instanceProperty receiver name) m) :=
        .access (Access.instanceProperty_counts hd ho name)
      refine hends.covers ?_
      rintro Q ⟨_, _, hsame, hnone, _⟩
      cases hsame
      rw [hproperty] at hnone
      cases hnone
    | none =>
      cases hmethod : receiver.cls.method? name.lexeme with
      | none =>
        have hends : Counts visited c Nowhere (fun c' _ v => v.In c')
            (access (.instanceProperty receiver name) m) :=
          .access (Access.instanceProperty_counts hd ho name)
        refine hends.covers ?_
        rintro Q ⟨_, _, hsame, _, hsome, _⟩
        cases hsame
        rw [hmethod] at hsome
        cases hsome
      | some method =>
        rw [property_eq_bind hproperty hmethod]
        refine (boundValue_counts hd method ho).covers ?_
        rintro Q ⟨_, _, hsame, _, hsome, hQ⟩
        cases hsame
        rw [hmethod] at hsome
        cases hsome
        exact hQ
  | «class» cls =>
    have hends : Counts visited c Nowhere (fun c' _ v => v.In c')
        (access (.classProperty cls name) m) := .access (Access.classProperty_counts hd cls name)
    exact hends.covers fun Q ⟨_, _, hsame, _⟩ => nomatch hsame
  | _ =>
    have hends : Counts visited c Nowhere (fun c' _ v => v.In c')
        ((fail name .noProperties : Run Value) m) := .fail hd
    exact hends.covers fun Q ⟨_, _, hsame, _⟩ => nomatch hsame

/-- A method of the superclass is bound to the receiver of the running method. -/
theorem superMethod_counts (ref : Reference) (method : Token) :
    Counts visited c (fun Q => ∃ distance cls receiver found, m.hops[ref.id]? = some distance ∧
        access (.getAt m.environment distance ref.name) m = .ok (.class cls) m ∧
        access (.getAt m.environment (distance - 1) (.synthetic .this "this" ref.name.line)) m =
          .ok (.instance receiver) m ∧
        cls.method? method.lexeme = some found ∧ Q = .bind found receiver m)
      (fun c' _ v => v.In c') (superMethod ref method m) := by
  unfold superMethod
  have hhops : Counts visited c Nowhere (fun _ _ _ => True) (hops? ref.id m) := .pure hd trivial
  refine (hhops.bind (U := fun distance? _ Q => ∃ distance cls receiver found,
    distance? = some distance ∧
    access (.getAt m.environment distance ref.name) m = .ok (.class cls) m ∧
    access (.getAt m.environment (distance - 1) (.synthetic .this "this" ref.name.line)) m =
      .ok (.instance receiver) m ∧
    cls.method? method.lexeme = some found ∧ Q = .bind found receiver m) ?_).covers ?_
  · rintro distance? _ c₁ hok _ hd₁ _
    cases hok
    cases m.hops[ref.id]? with
    | none => exact (Counts.fail hd₁).covers fun Q ⟨_, _, _, _, hnone, _⟩ => nomatch hnone
    | some distance =>
      have hsuper : Counts visited c₁ Nowhere (fun c' _ v => v.In c')
          (access (.getAt m.environment distance ref.name) m) := .access (Access.getAt_counts hd₁ _ _ _)
      refine (hsuper.bind (U := fun v _ Q => ∃ cls receiver found, v = .class cls ∧
        access (.getAt m.environment (distance - 1) (.synthetic .this "this" ref.name.line)) m =
          .ok (.instance receiver) m ∧
        cls.method? method.lexeme = some found ∧ Q = .bind found receiver m) ?_).covers ?_
      · intro v m₂ c₂ hok _ hd₂ _
        obtain rfl := getAt_state hok
        cases v with
        | «class» cls =>
          have hthis : Counts visited c₂ Nowhere (fun c' _ v => v.In c')
              (access (.getAt m₂.environment (distance - 1)
                (.synthetic .this "this" ref.name.line)) m₂) := .access (Access.getAt_counts hd₂ _ _ _)
          refine (hthis.bind (U := fun v _ Q => ∃ receiver found, v = .instance receiver ∧
            cls.method? method.lexeme = some found ∧ Q = .bind found receiver m₂) ?_).covers ?_
          · intro v m₃ c₃ hok _ hd₃ hv
            obtain rfl := getAt_state hok
            cases v with
            | «instance» receiver =>
              cases hfound : cls.method? method.lexeme with
              | none => exact (Counts.fail hd₃).covers fun Q ⟨_, _, _, hnone, _⟩ => nomatch hnone
              | some found =>
                refine (boundValue_counts hd₃ found hv).covers ?_
                rintro Q ⟨_, _, hsame, hsome, rfl⟩
                cases hsame
                cases hsome
                rfl
            | _ =>
              refine (Counts.fail hd₃).covers ?_
              rintro Q ⟨_, _, hinstance, _⟩
              cases hinstance
          · rintro Q ⟨_, receiver, found, hcls, ht, hm, rfl⟩
            cases hcls
            exact .inr ⟨_, m₂, ht, receiver, found, rfl, hm, rfl⟩
        | _ =>
          refine (Counts.fail hd₂).covers ?_
          rintro Q ⟨_, _, _, hcls, _⟩
          cases hcls
      · rintro Q ⟨_, cls, receiver, found, hdistance, hs, ht, hm, rfl⟩
        cases hdistance
        exact .inr ⟨_, m, hs, cls, receiver, found, rfl, ht, hm, rfl⟩
  · rintro Q ⟨distance, cls, receiver, found, hd, hs, ht, hm, rfl⟩
    exact .inr ⟨_, m, rfl, distance, cls, receiver, found, hd, hs, ht, hm, rfl⟩

end Operations

end Run

end Lox
