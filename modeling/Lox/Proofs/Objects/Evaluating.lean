import Lox.Proofs.Objects.Listing

/-!
Everything that a run evaluates is listed, by induction on the fuel. One census lists a whole session.
-/

namespace Lox

open Run

namespace Run

/-- What is evaluated with some fuel is listed at its end. -/
structure Counting (visited : Point → Prop) (n : Nat) : Prop where
  eval : ∀ {c e m}, visited (.expr n e m) → c.Describes visited m.heap →
    Counts visited c (· = .expr n e m) (fun c' _ v => v.In c') (Run.eval n e m)
  evalAll : ∀ {c es m}, visited (.exprs n es m) → c.Describes visited m.heap →
    Counts visited c (· = .exprs n es m) (fun c' _ vs => ∀ v ∈ vs, v.In c') (Run.evalAll n es m)
  call : ∀ {c callee paren arguments m}, visited (.call n callee paren arguments m) →
    c.Describes visited m.heap → callee.In c → (∀ v ∈ arguments, v.In c) →
    Counts visited c (· = .call n callee paren arguments m) (fun c' _ v => v.In c')
      (Run.call n callee paren arguments m)
  invoke : ∀ {c f arguments m}, visited (.invoke n f arguments m) → c.Describes visited m.heap →
    Value.In c (.function f) → (∀ v ∈ arguments, v.In c) →
    Counts visited c (· = .invoke n f arguments m) (fun c' _ v => v.In c')
      (Run.invoke n f arguments m)
  exec : ∀ {c s m}, visited (.stmt n s m) → c.Describes visited m.heap →
    Counts visited c (· = .stmt n s m) (fun c' _ r => r.In c') (Run.exec n s m)
  execAll : ∀ {c body m}, visited (.stmts n body m) → c.Describes visited m.heap →
    Counts visited c (· = .stmts n body m) (fun c' _ r => r.In c') (Run.execAll n body m)
  iterate : ∀ {c condition body increment m}, visited (.loop n condition body increment m) →
    c.Describes visited m.heap →
    Counts visited c (· = .loop n condition body increment m) (fun c' _ r => r.In c')
      (Run.iterate n condition body increment m)

section

variable {visited : Point → Prop} {c : Census} {m : Machine} {n : Nat}

theorem literal_in (value : Literal) : value.value.In c := by
  cases value <;> exact trivial

/-! Only `return` has a value. -/

theorem normal_in : Completion.normal.In c := fun _ hv => nomatch hv

theorem break_in : Completion.break.In c := fun _ hv => nomatch hv

theorem continue_in : Completion.continue.In c := fun _ hv => nomatch hv

namespace Counts

variable (hd : c.Describes visited m.heap)
include hd

/-! An evaluation of each kind is listed when those are that it calls. -/

theorem expr {e : Expr} (h : Counts visited c (Calls (.expr n e m)) (fun c' _ v => v.In c')
    (Run.eval n e m)) :
    Counts visited c (· = .expr n e m) (fun c' _ v => v.In c') (Run.eval n e m) :=
  .point hd nofun h rfl fun _ _ hv => ⟨fun v ⟨m', hok⟩ => hv v m' hok, trivial⟩

theorem exprs {es : List Expr} (h : Counts visited c (Calls (.exprs n es m))
    (fun c' _ vs => ∀ v ∈ vs, v.In c') (Run.evalAll n es m)) :
    Counts visited c (· = .exprs n es m) (fun c' _ vs => ∀ v ∈ vs, v.In c') (Run.evalAll n es m) :=
  .point hd nofun h rfl fun _ _ hvs => ⟨fun v ⟨vs, m', hok, hv⟩ => hvs vs m' hok v hv, trivial⟩

theorem call {callee : Value} {paren : Token} {arguments : List Value} (hcallee : callee.In c)
    (harguments : ∀ v ∈ arguments, v.In c)
    (h : Counts visited c (Calls (.call n callee paren arguments m)) (fun c' _ v => v.In c')
      (Run.call n callee paren arguments m)) :
    Counts visited c (· = .call n callee paren arguments m) (fun c' _ v => v.In c')
      (Run.call n callee paren arguments m) :=
  .point hd (List.forall_mem_cons.2 ⟨hcallee, harguments⟩) h rfl fun _ _ hv =>
    ⟨fun v ⟨m', hok⟩ => hv v m' hok, trivial⟩

theorem invoke {f : Closure} {arguments : List Value} (hf : Value.In c (.function f))
    (harguments : ∀ v ∈ arguments, v.In c)
    (h : Counts visited c (Calls (.invoke n f arguments m)) (fun c' _ v => v.In c')
      (Run.invoke n f arguments m)) :
    Counts visited c (· = .invoke n f arguments m) (fun c' _ v => v.In c')
      (Run.invoke n f arguments m) :=
  .point hd (List.forall_mem_cons.2 ⟨hf, harguments⟩) h rfl fun _ _ hv =>
    ⟨fun v ⟨m', hok⟩ => hv v m' hok, trivial⟩

theorem stmt {s : Stmt} (hs : ∀ c', Point.Enters c' (.stmt n s m))
    (h : Counts visited c (Calls (.stmt n s m)) (fun c' _ r => r.In c') (Run.exec n s m)) :
    Counts visited c (· = .stmt n s m) (fun c' _ r => r.In c') (Run.exec n s m) :=
  .point hd nofun h rfl fun c' _ hr => ⟨fun v ⟨m', hok⟩ => hr _ m' hok v rfl, hs c'⟩

theorem stmts {body : List Stmt} (h : Counts visited c (Calls (.stmts n body m))
    (fun c' _ r => r.In c') (Run.execAll n body m)) :
    Counts visited c (· = .stmts n body m) (fun c' _ r => r.In c') (Run.execAll n body m) :=
  .point hd nofun h rfl fun _ _ hr => ⟨fun v ⟨m', hok⟩ => hr _ m' hok v rfl, trivial⟩

theorem loop {condition : Expr} {body : Stmt} {increment : Option Expr}
    (h : Counts visited c (Calls (.loop n condition body increment m)) (fun c' _ r => r.In c')
      (Run.iterate n condition body increment m)) :
    Counts visited c (· = .loop n condition body increment m) (fun c' _ r => r.In c')
      (Run.iterate n condition body increment m) :=
  .point hd nofun h rfl fun _ _ hr => ⟨fun v ⟨m', hok⟩ => hr _ m' hok v rfl, trivial⟩

theorem each {fuel : Nat} {body : List Stmt} (h : Counts visited c (Calls (.each fuel body m))
    (fun _ _ _ => True) (execEach fuel body m)) :
    Counts visited c (· = .each fuel body m) (fun _ _ _ => True) (execEach fuel body m) :=
  .point hd nofun h rfl fun _ _ _ => ⟨fun _ hv => hv.elim, trivial⟩

end Counts

/-- What a loop evaluates after a turn that does not end it. -/
def turns (n : Nat) (condition : Expr) (body : Stmt) (increment : Option Expr) (m : Machine) :
    Point → Prop :=
  match increment with
  | none => (· = .loop n condition body none m)
  | some e => Then (Run.eval n e m) (· = .expr n e m) fun _ m' => (· = .loop n condition body (some e) m')

theorem counting_zero : Counting visited 0 where
  eval _ hd := .expr hd ((Counts.fail hd).covers fun _ hQ => nomatch hQ)
  evalAll _ hd := .exprs hd ((Counts.fail hd).covers fun _ hQ => nomatch hQ)
  call _ hd hf hvs := .call hd hf hvs ((Counts.fail hd).covers fun _ hQ => nomatch hQ)
  invoke _ hd hf hvs := .invoke hd hf hvs ((Counts.fail hd).covers fun _ hQ => nomatch hQ)
  exec {c s m} _ hd := by
    refine .stmt hd (fun c' => ?_) ((Counts.fail hd).covers fun _ hQ => nomatch hQ)
    cases s with
    | «class» => exact nofun
    | _ => exact trivial
  execAll _ hd := .stmts hd ((Counts.fail hd).covers fun _ hQ => nomatch hQ)
  iterate _ hd := .loop hd ((Counts.fail hd).covers fun _ hQ => nomatch hQ)

/-- A class statement lists the class that it makes. -/
theorem class_counts {name : Token} {superclass? : Option Reference} {own statics : List FunctionDecl}
    (hd : c.Describes visited m.heap)
    (hv : visited (.stmt (n + 1) (.class name superclass? own statics) m)) :
    Counts visited c (· = .stmt (n + 1) (.class name superclass? own statics) m)
      (fun c' _ r => r.In c') (Run.exec (n + 1) (.class name superclass? own statics) m) := by
  let Entered (c' : Census) (h : Heap) : Prop :=
    ∃ cls : Class, cls.In c' ∧ cls.MadeAt name superclass? own m ∧
      ∀ x, Option.Rel (Value.IsStatic (m.environment.ofMethods m.heap cls.superclass?))
        (FunctionDecl.last? statics x) (h.property? cls.own.id x)
  have hends : Counts visited c Nowhere (fun c' h r => r = .normal ∧ Entered c' h)
      (Run.exec (n + 1) (.class name superclass? own statics) m) := by
    refine (superclass_counts hd superclass?).silent fun superclass m' c' hs _ hd' hsuper => ?_
    obtain ⟨rfl, _⟩ := superclass_ok hs
    have hdefine : Counts visited c' Nowhere (fun c' h _ => Entered c' h)
        (access (defineClass name superclass own statics m'.environment) m') :=
      .access (Access.defineClass_counts hd' hv hs hsuper)
    exact hdefine.silent fun _ m'' c'' _ _ hd'' hentered => .pure hd'' ⟨rfl, hentered⟩
  refine (Counts.point hd ?_ (hends.covers ?_) rfl fun c' _ hr => ?_).weaken ?_
  · exact nofun
  · exact fun Q hQ => nomatch hQ
  · refine ⟨fun v ⟨m', hok⟩ => ?_, fun r m' hok => (hr r m' hok).2⟩
    cases (hr _ m' hok).1
  · rintro c' h r _ ⟨rfl, _⟩
    exact normal_in

variable (calls : ∀ {P Q : Point}, visited P → Calls P Q → visited Q) (ih : Counting visited n)
  (hd : c.Describes visited m.heap)
include calls ih hd

theorem eval_counts {e : Expr} (hv : visited (.expr (n + 1) e m)) :
    Counts visited c (· = .expr (n + 1) e m) (fun c' _ v => v.In c') (Run.eval (n + 1) e m) := by
  have step {Q : Point} (hc : Calls (.expr (n + 1) e m) Q) : visited Q := calls hv hc
  refine .expr hd ?_
  cases e with
  | literal value => exact (Counts.pure hd (literal_in value)).covers fun Q hQ => nomatch hQ
  | grouping inner =>
    refine (ih.eval (step .grouping) hd).covers fun Q hQ => ?_
    cases hQ
    rfl
  | unary operator right =>
    refine ((ih.eval (step .operand) hd).silent fun v m' c' _ _ hd' _ =>
      (unary_computes_self operator v).counts hd').covers fun Q hQ => ?_
    cases hQ
    rfl
  | binary left operator right =>
    refine ((ih.eval (step .left) hd).bind (U := fun a m' Q =>
      afterLeft operator.kind a ≠ .keepLeft ∧ Q = .expr n right m') ?_).covers fun Q hQ => ?_
    · intro a m' c' hl _ hd' ha
      cases hafter : afterLeft operator.kind a with
      | keepLeft => exact (Counts.pure hd' ha).covers fun Q hQ => absurd rfl hQ.1
      | takeRight =>
        have hright := step (.right hl (by rw [hafter]; nofun))
        exact (ih.eval hright hd').covers fun Q hQ => hQ.2
      | combine =>
        have hright := step (.right hl (by rw [hafter]; nofun))
        refine ((ih.eval hright hd').silent fun b m'' c'' _ _ hd'' _ =>
          (binary_computes_self operator a b).counts hd'').covers fun Q hQ => hQ.2
    · cases hQ with
      | left => exact .inl rfl
      | right hl hk => exact .inr ⟨_, _, hl, hk, rfl⟩
  | binaryError operator right => exact (Counts.fail hd).covers fun Q hQ => nomatch hQ
  | conditional condition thenBranch elseBranch =>
    refine ((ih.eval (step .condition) hd).bind (U := fun v m' Q =>
      (v.isTruthy = true ∧ Q = .expr n thenBranch m') ∨
        (v.isTruthy = false ∧ Q = .expr n elseBranch m')) ?_).covers fun Q hQ => ?_
    · intro v m' c' hv _ hd' _
      by_cases htruthy : v.isTruthy = true
      · rw [if_pos htruthy]
        exact (ih.eval (step (.thenValue hv htruthy)) hd').covers fun Q hQ => by simpa [htruthy] using hQ
      · rw [if_neg htruthy]
        have hfalse := Bool.eq_false_iff.2 htruthy
        exact (ih.eval (step (.elseValue hv hfalse)) hd').covers fun Q hQ => by simpa [hfalse] using hQ
    · cases hQ with
      | condition => exact .inl rfl
      | thenValue hc hv => exact .inr ⟨_, _, hc, .inl ⟨hv, rfl⟩⟩
      | elseValue hc hv => exact .inr ⟨_, _, hc, .inr ⟨hv, rfl⟩⟩
  | «variable» ref => exact (lookUp_counts hd ref).covers fun Q hQ => nomatch hQ
  | assign target value =>
    refine ((ih.eval (step .assigned) hd).silent fun v m' c' _ _ hd' hv =>
      (assign_counts hd' target hv).silent fun _ m'' c'' _ hle hd'' _ =>
        .pure hd'' (hv.mono hle)).covers fun Q hQ => ?_
    cases hQ
    rfl
  | call callee paren arguments =>
    refine ((ih.eval (step .callee) hd).bind fun f m' c' hf _ hd' hfin =>
      (ih.evalAll (step (.arguments hf)) hd').bind fun vs m'' c'' ha hle hd'' hvs =>
        ih.call (step (.call hf ha)) hd'' (hfin.mono hle) hvs).covers fun Q hQ => ?_
    cases hQ with
    | callee => exact .inl rfl
    | arguments hf => exact .inr ⟨_, _, hf, .inl rfl⟩
    | call hf ha => exact .inr ⟨_, _, hf, .inr ⟨_, _, ha, rfl⟩⟩
  | get object name =>
    refine ((ih.eval (step .object) hd).bind fun o m' c' _ _ hd' ho =>
      property_counts hd' ho name).covers fun Q hQ => ?_
    cases hQ with
    | object => exact .inl rfl
    | bindProperty ho hp hm => exact .inr ⟨_, _, ho, _, _, rfl, hp, hm, rfl⟩
  | set object name value =>
    refine ((ih.eval (step .setObject) hd).bind fun o m' c' ho _ hd' _ =>
      (propertyTable_counts hd' o name).bind fun table m'' c'' ht _ hd'' _ =>
        (ih.eval (step (.setValue ho ht)) hd'').silent fun v m₃ c₃ _ _ hd₃ hv =>
          (Counts.access (p := .setProperty table name.lexeme v)
            (Access.setProperty_counts hd₃ hv table name.lexeme)).silent fun _ m₄ c₄ _ hle hd₄ _ =>
              .pure hd₄ (hv.mono hle)).covers fun Q hQ => ?_
    cases hQ with
    | setObject => exact .inl rfl
    | setValue ho ht => exact .inr ⟨_, _, ho, .inr ⟨_, _, ht, rfl⟩⟩
  | this ref => exact (lookUp_counts hd ref).covers fun Q hQ => nomatch hQ
  | super ref method =>
    refine (superMethod_counts hd ref method).covers fun Q hQ => ?_
    cases hQ with
    | bindSuper hd hs ht hm => exact ⟨_, _, _, _, hd, hs, ht, hm, rfl⟩
  | lambda function => exact (closure_counts hd none function).covers fun Q hQ => nomatch hQ

theorem evalAll_counts {es : List Expr} (hv : visited (.exprs (n + 1) es m)) :
    Counts visited c (· = .exprs (n + 1) es m) (fun c' _ vs => ∀ v ∈ vs, v.In c')
      (Run.evalAll (n + 1) es m) := by
  have step {Q : Point} (hc : Calls (.exprs (n + 1) es m) Q) : visited Q := calls hv hc
  refine .exprs hd ?_
  cases es with
  | nil => exact (Counts.pure hd nofun).covers fun Q hQ => nomatch hQ
  | cons e rest =>
    refine ((ih.eval (step .firstExpr) hd).bind fun v m' c' hv _ hd' hvin =>
      (ih.evalAll (step (.restExprs hv)) hd').silent fun vs m'' c'' _ hle hd'' hvs =>
        .pure hd'' (List.forall_mem_cons.2 ⟨hvin.mono hle, hvs⟩)).covers fun Q hQ => ?_
    cases hQ with
    | firstExpr => exact .inl rfl
    | restExprs he => exact .inr ⟨_, _, he, rfl⟩

theorem call_counts {callee : Value} {paren : Token} {arguments : List Value}
    (hv : visited (.call (n + 1) callee paren arguments m)) (hcallee : callee.In c)
    (harguments : ∀ v ∈ arguments, v.In c) :
    Counts visited c (· = .call (n + 1) callee paren arguments m) (fun c' _ v => v.In c')
      (Run.call (n + 1) callee paren arguments m) := by
  have step {Q : Point} (hc : Calls (.call (n + 1) callee paren arguments m) Q) : visited Q :=
    calls hv hc
  refine .call hd hcallee harguments ?_
  cases callee with
  | native function =>
    refine ((checkArity_counts hd paren function.arity arguments.length).silent
      fun _ m' c' _ _ hd' _ => ?_).covers fun Q hQ => nomatch hQ
    cases function with
    | clock => exact .pure hd' trivial
  | function f =>
    refine ((checkArity_counts hd paren f.function.arity arguments.length).bind
      (U := fun _ m' => (· = .invoke n f arguments m')) ?_).covers fun Q hQ => ?_
    · intro _ m' c' ha hle hd' _
      obtain ⟨_, rfl⟩ := checkArity_ok ha
      exact ih.invoke (step (.function ha)) hd' (Value.In.mono hle hcallee)
        fun v hv => (harguments v hv).mono hle
    · cases hQ with
      | function ha => exact .inr ⟨_, _, ha, rfl⟩
  | «class» cls =>
    refine ((checkArity_counts hd paren cls.arity arguments.length).bind (U := fun _ m₁ =>
      Then (access (.newObject ∅) m₁) Nowhere fun id m₂ Q => ∃ method, cls.initializer? = some method ∧
        Then (access (.bindMethod method ⟨id, cls⟩) m₂) (· = .bind method ⟨id, cls⟩ m₂)
          (fun f m₃ => (· = .invoke n f arguments m₃)) Q) ?_).covers fun Q hQ => ?_
    · intro _ m₁ c₁ ha hle₁ hd₁ _
      obtain ⟨_, rfl⟩ := checkArity_ok ha
      have hcls : cls.In c₁ := Class.In.mono hle₁ hcallee
      have hnew : Counts visited c₁ Nowhere _ (access (.newObject ∅) m₁) :=
        .access (Access.newObject_counts hd₁ hcls ⟨n, paren, arguments, m₁, hv, rfl⟩)
      refine hnew.bind fun id m₂ c₂ ho hle₂ hd₂ hid => ?_
      have hobject : Instance.In c₂ ⟨id, cls⟩ := hid.2
      cases hinit : cls.initializer? with
      | none =>
        refine (Counts.pure hd₂ hobject).covers ?_
        rintro Q ⟨method, hmethod, _⟩
        cases hmethod
      | some method =>
        refine ((bindMethod_counts hd₂ method hobject).bind fun f m₃ c₃ hb hle₃ hd₃ hf =>
          (ih.invoke (step (.initializer ha ho hinit hb)) hd₃ ⟨_, hf⟩ fun v hv =>
            (((harguments v hv).mono hle₁).mono hle₂).mono hle₃).silent
              fun _ m₄ c₄ _ hle₄ hd₄ _ => .pure hd₄ ((hobject.mono hle₃).mono hle₄)).covers ?_
        rintro Q ⟨method', hmethod', hQ⟩
        cases hmethod'
        exact hQ
    · cases hQ with
      | bindInitializer ha ho hm => exact .inr ⟨_, _, ha, .inr ⟨_, _, ho, _, hm, .inl rfl⟩⟩
      | initializer ha ho hm hb =>
        exact .inr ⟨_, _, ha, .inr ⟨_, _, ho, _, hm, .inr ⟨_, _, hb, rfl⟩⟩⟩
  | _ => exact (Counts.fail hd).covers fun Q hQ => nomatch hQ

theorem invoke_counts {f : Closure} {arguments : List Value}
    (hv : visited (.invoke (n + 1) f arguments m)) (hf : Value.In c (.function f))
    (harguments : ∀ v ∈ arguments, v.In c) :
    Counts visited c (· = .invoke (n + 1) f arguments m) (fun c' _ v => v.In c')
      (Run.invoke (n + 1) f arguments m) := by
  have step {Q : Point} (hc : Calls (.invoke (n + 1) f arguments m) Q) : visited Q := calls hv hc
  refine .invoke hd hf harguments ?_
  have henter : Counts visited c Nowhere (fun c' _ _ => c' = c)
      (access (callEnvironment f arguments) m) :=
    .access (Access.callEnvironment_counts hd f harguments)
  refine (henter.bind fun inner m' c' hi _ hd' _ =>
    (Counts.within (ih.execAll (step (.body hi)) hd')).silent fun r m'' c'' _ _ hd'' hr =>
      callResult_counts hd'' f hr).covers fun Q hQ => ?_
  cases hQ with
  | body hi => exact .inr ⟨_, _, hi, rfl⟩

theorem exec_counts {s : Stmt} (hvisited : visited (.stmt (n + 1) s m)) :
    Counts visited c (· = .stmt (n + 1) s m) (fun c' _ r => r.In c') (Run.exec (n + 1) s m) := by
  have step {Q : Point} (hc : Calls (.stmt (n + 1) s m) Q) : visited Q := calls hvisited hc
  cases s with
  | «class» name superclass? own statics => exact class_counts hd hvisited
  | expression e =>
    refine .stmt hd (fun _ => trivial) (((ih.eval (step .expression) hd).silent
      fun _ m' c' _ _ hd' _ => .pure hd' normal_in).covers fun Q hQ => ?_)
    cases hQ
    rfl
  | print e =>
    refine .stmt hd (fun _ => trivial) (((ih.eval (step .print) hd).silent
      fun v m' c' _ _ hd' _ => (print_counts hd' v).silent
        fun _ m'' c'' _ _ hd'' _ => .pure hd'' normal_in).covers fun Q hQ => ?_)
    cases hQ
    rfl
  | var name initializer =>
    cases initializer with
    | none =>
      have hdefine : Counts visited c Nowhere (fun _ _ _ => True) (define name none m) :=
        define_counts hd name nofun
      exact .stmt hd (fun _ => trivial) ((hdefine.silent
        fun _ m' c' _ _ hd' _ => .pure hd' normal_in).covers fun Q hQ => nomatch hQ)
    | some e =>
      refine .stmt hd (fun _ => trivial) (((ih.eval (step .var) hd).silent
        fun v m' c' _ _ hd' hv => (define_counts hd' name fun w hw => Option.some.inj hw ▸ hv).silent
          fun _ m'' c'' _ _ hd'' _ => .pure hd'' normal_in).covers fun Q hQ => ?_)
      cases hQ
      rfl
  | block body =>
    have hchild : Counts visited c Nowhere _ (access (.child m.environment) m) :=
      .access (Access.child_counts hd m.environment)
    refine .stmt hd (fun _ => trivial) ((hchild.bind fun inner m' c' hi _ hd' _ =>
      .within (ih.execAll (step (.block hi)) hd')).covers fun Q hQ => ?_)
    cases hQ with
    | block hi => exact .inr ⟨_, _, hi, rfl⟩
  | ite condition thenBranch elseBranch =>
    refine .stmt hd (fun _ => trivial) (((ih.eval (step .iteCondition) hd).bind (U := fun v m' Q =>
      (v.isTruthy = true ∧ Q = .stmt n thenBranch m') ∨
        (v.isTruthy = false ∧ ∃ s, elseBranch = some s ∧ Q = .stmt n s m')) ?_).covers fun Q hQ => ?_)
    · intro v m' c' hv _ hd' _
      by_cases htruthy : v.isTruthy = true
      · rw [if_pos htruthy]
        exact (ih.exec (step (.thenBranch hv htruthy)) hd').covers fun Q hQ => by
          simpa [htruthy] using hQ
      · rw [if_neg htruthy]
        have hfalse := Bool.eq_false_iff.2 htruthy
        cases elseBranch with
        | none => exact (Counts.pure hd' normal_in).covers fun Q hQ => by simp [hfalse] at hQ
        | some branch =>
          exact (ih.exec (step (.elseBranch hv hfalse)) hd').covers fun Q hQ => by
            simpa [hfalse] using hQ
    · cases hQ with
      | iteCondition => exact .inl rfl
      | thenBranch hc hv => exact .inr ⟨_, _, hc, .inl ⟨hv, rfl⟩⟩
      | elseBranch hc hv => exact .inr ⟨_, _, hc, .inr ⟨hv, _, rfl, rfl⟩⟩
  | loop condition body increment =>
    refine .stmt hd (fun _ => trivial) ((ih.iterate (step .loop) hd).covers fun Q hQ => ?_)
    cases hQ
    rfl
  | «break» keyword =>
    exact .stmt hd (fun _ => trivial) ((Counts.pure hd break_in).covers fun Q hQ => nomatch hQ)
  | «continue» keyword =>
    exact .stmt hd (fun _ => trivial) ((Counts.pure hd continue_in).covers fun Q hQ => nomatch hQ)
  | breakError keyword =>
    exact .stmt hd (fun _ => trivial) ((Counts.fail hd).covers fun Q hQ => nomatch hQ)
  | continueError keyword =>
    exact .stmt hd (fun _ => trivial) ((Counts.fail hd).covers fun Q hQ => nomatch hQ)
  | function decl =>
    obtain ⟨name, function⟩ := decl
    exact .stmt hd (fun _ => trivial) (((closure_counts hd (some name.lexeme) function).silent
      fun v m' c' _ _ hd' hv => (define_counts hd' name fun w hw => Option.some.inj hw ▸ hv).silent
        fun _ m'' c'' _ _ hd'' _ => .pure hd'' normal_in).covers fun Q hQ => nomatch hQ)
  | «return» keyword value =>
    cases value with
    | none =>
      refine .stmt hd (fun _ => trivial) ((Counts.pure hd fun v hv => ?_).covers fun Q hQ => nomatch hQ)
      cases hv
      exact trivial
    | some e =>
      refine .stmt hd (fun _ => trivial) (((ih.eval (step .returned) hd).silent
        fun v m' c' _ _ hd' hv => .pure hd' fun w hw => Completion.return.inj hw ▸ hv).covers
          fun Q hQ => ?_)
      cases hQ
      rfl

theorem execAll_counts {body : List Stmt} (hv : visited (.stmts (n + 1) body m)) :
    Counts visited c (· = .stmts (n + 1) body m) (fun c' _ r => r.In c')
      (Run.execAll (n + 1) body m) := by
  have step {Q : Point} (hc : Calls (.stmts (n + 1) body m) Q) : visited Q := calls hv hc
  refine .stmts hd ?_
  cases body with
  | nil => exact (Counts.pure hd normal_in).covers fun Q hQ => nomatch hQ
  | cons s rest =>
    refine ((ih.exec (step .firstStmt) hd).bind (U := fun r m' Q =>
      r = .normal ∧ Q = .stmts n rest m') ?_).covers fun Q hQ => ?_
    · intro r m' c' hs _ hd' hr
      cases r with
      | normal => exact (ih.execAll (step (.restStmts hs)) hd').covers fun Q hQ => hQ.2
      | _ => exact (Counts.pure hd' hr).covers fun Q hQ => nomatch hQ.1
    · cases hQ with
      | firstStmt => exact .inl rfl
      | restStmts hs => exact .inr ⟨_, _, hs, rfl, rfl⟩

theorem iterate_counts {condition : Expr} {body : Stmt} {increment : Option Expr}
    (hvisited : visited (.loop (n + 1) condition body increment m)) :
    Counts visited c (· = .loop (n + 1) condition body increment m) (fun c' _ r => r.In c')
      (Run.iterate (n + 1) condition body increment m) := by
  have step {Q : Point} (hc : Calls (.loop (n + 1) condition body increment m) Q) : visited Q :=
    calls hvisited hc
  refine .loop hd ?_
  refine ((ih.eval (step .turnCondition) hd).bind (U := fun v m' Q => v.isTruthy = true ∧
    Then (Run.exec n body m') (· = .stmt n body m') (fun r m'' Q => (r = .normal ∨ r = .continue) ∧
      turns n condition body increment m'' Q) Q) ?_).covers fun Q hQ => ?_
  · intro v m' c' hc _ hd' _
    by_cases htruthy : v.isTruthy = true
    · rw [if_pos htruthy]
      refine ((ih.exec (step (.turnBody hc htruthy)) hd').bind fun r m'' c'' hb _ hd'' hr =>
        ?_).covers fun Q hQ => hQ.2
      have hnext (hgo : r = .normal ∨ r = .continue) :
          Counts visited c'' (fun Q => (r = .normal ∨ r = .continue) ∧
              turns n condition body increment m'' Q)
            (fun c' _ r => r.In c') (goOn n condition body increment m'') := by
        cases increment with
        | none =>
          exact (ih.iterate (step (.nextTurn hc htruthy hb hgo)) hd'').covers fun Q hQ => hQ.2
        | some e =>
          exact ((ih.eval (step (.increment hc htruthy hb hgo)) hd'').bind fun _ m₃ c₃ hi _ hd₃ _ =>
            ih.iterate (step (.nextTurnAfter hc htruthy hb hgo hi)) hd₃).covers fun Q hQ => hQ.2
      cases r with
      | normal => exact hnext (.inl rfl)
      | «continue» => exact hnext (.inr rfl)
      | «break» => exact (Counts.pure hd'' normal_in).covers fun Q hQ => by simp at hQ
      | «return» v => exact (Counts.pure hd'' hr).covers fun Q hQ => by simp at hQ
    · rw [if_neg htruthy]
      exact (Counts.pure hd' normal_in).covers fun Q hQ => absurd hQ.1 htruthy
  · cases hQ with
    | turnCondition => exact .inl rfl
    | turnBody hc hv => exact .inr ⟨_, _, hc, hv, .inl rfl⟩
    | increment hc hv hb hgo => exact .inr ⟨_, _, hc, hv, .inr ⟨_, _, hb, hgo, .inl rfl⟩⟩
    | nextTurn hc hv hb hgo => exact .inr ⟨_, _, hc, hv, .inr ⟨_, _, hb, hgo, rfl⟩⟩
    | nextTurnAfter hc hv hb hgo hi =>
      exact .inr ⟨_, _, hc, hv, .inr ⟨_, _, hb, hgo, .inr ⟨_, _, hi, rfl⟩⟩⟩

end

/-- Everything that is evaluated is listed, with every amount of fuel. -/
theorem counting {visited : Point → Prop} (calls : ∀ {P Q : Point}, visited P → Calls P Q → visited Q) :
    ∀ n, Counting visited n
  | 0 => counting_zero
  | n + 1 => by
    have ih := counting calls n
    constructor
    · exact fun hv hd => eval_counts calls ih hd hv
    · exact fun hv hd => evalAll_counts calls ih hd hv
    · exact fun hv hd hf hvs => call_counts calls ih hd hv hf hvs
    · exact fun hv hd hf hvs => invoke_counts calls ih hd hv hf hvs
    · exact fun hv hd => exec_counts calls ih hd hv
    · exact fun hv hd => execAll_counts calls ih hd hv
    · exact fun hv hd => iterate_counts calls ih hd hv

section Sessions

variable {visited : Point → Prop} (calls : ∀ {P Q : Point}, visited P → Calls P Q → visited Q)
  {fuel : Nat}
include calls

theorem each_counts {c : Census} {body : List Stmt} {m : Machine}
    (hv : visited (.each fuel body m)) (hd : c.Describes visited m.heap) :
    Counts visited c (· = .each fuel body m) (fun _ _ _ => True) (execEach fuel body m) := by
  induction body generalizing m c with
  | nil => exact .each hd ((Counts.pure hd trivial).covers fun Q hQ => nomatch hQ)
  | cons s rest ih =>
    refine .each hd ((((counting calls fuel).exec (calls hv .firstInput) hd).bind
      fun r m' c' hs _ hd' _ => ih (calls hv (.restInput hs)) hd').covers fun Q hQ => ?_)
    cases hQ with
    | firstInput => exact .inl rfl
    | restInput hs => exact .inr ⟨_, _, hs, rfl⟩

theorem program_counts {c : Census} {p : Program} {m : Machine} (hv : visited (p.point fuel m))
    (hd : c.Describes visited m.heap) :
    Counts visited c (· = p.point fuel m) (fun _ _ _ => True) (program fuel p m) := by
  cases p with
  | statements body =>
    exact (each_counts calls hv hd).silent fun _ m' c' _ _ hd' _ => .pure hd' trivial
  | expression e =>
    exact ((counting calls fuel).eval hv hd).silent fun v m' c' _ _ hd' _ =>
      (print_counts hd' v).silent fun _ m'' c'' _ _ hd'' _ => .pure hd'' trivial

end Sessions

end Run

namespace Session

theorem Visits.calls {fuel : Nat} {inputs : List (Mode × String)} {s : Session} {P Q : Point}
    (hP : s.Visits fuel inputs P) (hc : Calls P Q) : s.Visits fuel inputs Q := by
  induction inputs generalizing s with
  | nil => exact hP.elim
  | cons input rest ih => exact hP.imp (fun h => ⟨h.1, h.2.tail hc⟩) ih

section

variable {visited : Point → Prop} (calls : ∀ {P Q : Point}, visited P → Calls P Q → visited Q)
  {fuel : Nat}
include calls

/-- A step of a session lists what it evaluates. -/
theorem run_counts {c : Census} {mode : Mode} {source : String} {s : Session}
    (hv : ∀ P, s.Passes fuel mode source P → visited P) (hd : c.Describes visited s.machine.heap) :
    ∃ c', c.Le c' ∧ c'.Describes visited (s.run fuel mode source).2.machine.heap ∧
      ∀ P, s.Passes fuel mode source P → P.Listed visited c' := by
  by_cases hc : (compile source mode s.nextId).diagnostics = []
  · have hends := program_counts calls (hv _ ⟨hc, .refl⟩)
      (show c.Describes visited (s.machine.addHops (compile source mode s.nextId).hops).heap from hd)
    rw [run_accepted hc]
    generalize Run.program fuel (compile source mode s.nextId).program
      (s.machine.addHops (compile source mode s.nextId).hops) = r at hends
    cases hends with
    | ok later describes _ points =>
      exact ⟨_, later, describes, fun P hP => points _ rfl P hP.2⟩
    | error later describes points =>
      exact ⟨_, later, describes, fun P hP => points _ rfl P hP.2⟩
  · rw [run_rejected hc]
    exact ⟨c, .refl c, hd, fun P hP => absurd hP.1 hc⟩

theorem runAll_counts {c : Census} {inputs : List (Mode × String)} {s : Session}
    (hv : ∀ P, s.Visits fuel inputs P → visited P) (hd : c.Describes visited s.machine.heap) :
    ∃ c', c.Le c' ∧ c'.Describes visited (runAll fuel inputs s).2.machine.heap ∧
      ∀ P, s.Visits fuel inputs P → P.Listed visited c' := by
  induction inputs generalizing s c with
  | nil => exact ⟨c, .refl c, hd, fun P hP => hP.elim⟩
  | cons input rest ih =>
    obtain ⟨mode, source⟩ := input
    obtain ⟨c₁, hle₁, hd₁, hfirst⟩ := run_counts calls (fun P hP => hv P (.inl hP)) hd
    obtain ⟨c₂, hle₂, hd₂, hrest⟩ := ih (fun P hP => hv P (.inr hP)) hd₁
    refine ⟨c₂, hle₁.trans hle₂, hd₂, fun P hP => ?_⟩
    rcases hP with hP | hP
    · exact (hfirst P hP).mono hle₂
    · exact hrest P hP

end

/-- One census lists all that a session evaluates, and the heap that it leaves. -/
theorem listed (fuel : Nat) (time : Float) (inputs : List (Mode × String)) :
    ∃ census : Census, census.Describes ((start time).Visits fuel inputs)
        (runAll fuel inputs (start time)).2.machine.heap ∧
      ∀ P, (start time).Visits fuel inputs P →
        P.Listed ((start time).Visits fuel inputs) census := by
  have hd : Census.Describes ((start time).Visits fuel inputs) ⟨[], []⟩ (start time).machine.heap := by
    refine .mk rfl rfl (fun cls hcls => nomatch hcls) (fun object ho => nomatch ho) ?_ ?_
    · intro frame x v hv
      have hslot := Heap.slot?_enter (h := Heap.empty) [] "clock" (.assigned (.native .clock)) frame x
      have hv := hslot.symm.trans hv
      split at hv
      · cases hv
        exact trivial
      · cases hv
    · exact fun object x v hv => nomatch hv
  obtain ⟨census, _, hdescribes, hlisted⟩ := runAll_counts Visits.calls (fun P hP => hP) hd
  exact ⟨census, hdescribes, hlisted⟩

end Session

end Lox
