import Lox.Proofs.Renaming.Accesses

/-!
Two runs of a text, the second one with another name for a variable. Evaluation looks an occurrence up
by its hops, so it finds the same slot under either name, and the two runs end alike.
-/

namespace Lox

open Run

/-- Machines that are alike but for the name of a variable, in the environment of code within scopes
that have these marks. -/
structure Machine.Renamed (c : Change) (Γ w : List Bool) (m m' : Machine) : Prop where
  heap : m.heap.Renamed c w m'.heap
  environment : m'.environment = m.environment
  marked : m.environment.Marked w Γ
  hops : ∀ id, m.hops[id]? = c.hops id
  hops' : ∀ id, m'.hops[id]? = c.hops id
  printed : m'.printed = m.printed
  time : m'.time = m.time

inductive Halt.Renamed (c : Change) : Halt → Halt → Prop where
  | error {e e' : RuntimeError} (h : e.Renamed c e') : Renamed c (.error e) (.error e')
  | outOfFuel : Renamed c .outOfFuel .outOfFuel

inductive Completion.Renamed (c : Change) (w : List Bool) : Completion → Completion → Prop where
  | normal : Renamed c w .normal .normal
  | «return» {v v' : Value} (h : v.Renamed c w v') : Renamed c w (.return v) (.return v')
  | «break» : Renamed c w .break .break
  | «continue» : Renamed c w .continue .continue

/-- Two runs that end alike on machines that are alike. -/
abbrev Run.Meet {α β : Type} (c : Change) (Γ : List Bool) (A : List Bool → α → β → Prop)
    (w : List Bool) (p : Run α) (q : Run β) : Prop :=
  Lox.Meet (Halt.Renamed c) (Machine.Renamed c Γ) A w p q

variable {c : Change} {Γ Γ' w : List Bool}

namespace Run

variable {α β : Type} {A : List Bool → α → β → Prop} {v v' u u' : Value}

theorem throw_meets {t t' : Token} {fault fault' : RuntimeFault}
    (h : RuntimeError.Renamed c ⟨t, fault⟩ ⟨t', fault'⟩) :
    Run.Meet c Γ A w (fail t fault) (fail t' fault') := .of_agree (.throw (.error h))

theorem fail_meets (t : Token) (fault : RuntimeFault) :
    Run.Meet c Γ A w (fail t fault) (fail t fault) := throw_meets (.same _)

theorem outOfFuel_meets : Run.Meet c Γ A w outOfFuel outOfFuel := .of_agree (.throw .outOfFuel)

theorem access_meets {q : Access α} {q' : Access β} (hq : Access.Meet c A w q q') :
    Run.Meet c Γ A w (access q) (access q') := by
  intro m m' hm
  obtain ⟨heap, environment, hops, printed, time⟩ := m
  obtain ⟨heap', environment', hops', printed', time'⟩ := m'
  obtain ⟨w', hw, hends⟩ := hq heap heap' hm.heap
  have hmachine {g g' : Heap} (hg : g.Renamed c w' g') :
      Machine.Renamed c Γ w' ⟨g, environment, hops, printed, time⟩
        ⟨g', environment', hops', printed', time'⟩ :=
    ⟨hg, hm.environment, hm.marked.mono hw, hm.hops, hm.hops', hm.printed, hm.time⟩
  refine ⟨w', hw, ?_⟩
  unfold access
  simp only
  generalize q heap = r at hends ⊢
  generalize q' heap' = r' at hends ⊢
  cases hends with
  | ok ha hg => exact .ok ha (hmachine hg)
  | error he hg => exact .error (.error he) (hmachine hg)

theorem environment_meets :
    Run.Meet c Γ (fun w e e' => e' = e ∧ e.Marked w Γ) w environment environment :=
  .of_agree fun _ _ hm => .ok ⟨hm.environment, hm.marked⟩ hm

theorem within_meets {p : Run α} {q : Run β} {e : Environment} (he : e.Marked w Γ')
    (hp : Run.Meet c Γ' A w p q) : Run.Meet c Γ A w (within e p) (within e q) := by
  intro m m' hm
  have hinner : Machine.Renamed c Γ' w { m with environment := e } { m' with environment := e } :=
    ⟨hm.heap, rfl, he, hm.hops, hm.hops', hm.printed, hm.time⟩
  obtain ⟨w', hw, hends⟩ := hp _ _ hinner
  have hmachine {n n' : Machine} (hn : n.Renamed c Γ' w' n') :
      Machine.Renamed c Γ w' { n with environment := m.environment }
        { n' with environment := m'.environment } :=
    ⟨hn.heap, hm.environment, hm.marked.mono hw, hn.hops, hn.hops', hn.printed, hn.time⟩
  refine ⟨w', hw, ?_⟩
  unfold within
  simp only
  generalize p { m with environment := e } = r at hends ⊢
  generalize q { m' with environment := e } = r' at hends ⊢
  cases hends with
  | ok ha hn => exact .ok ha (hmachine hn)
  | error he hn => exact .error he (hmachine hn)

theorem print_meets (hv : v.Renamed c w v') : Run.Meet c Γ (fun _ => Eq) w (print v) (print v') := by
  refine .of_agree fun m m' hm => ?_
  have hprinted : v'.text :: m'.printed = v.text :: m.printed := by rw [hv.resembles.text, hm.printed]
  exact .ok rfl ⟨hm.heap, hm.environment, hm.marked, hm.hops, hm.hops', hprinted, hm.time⟩

theorem hops?_meets (id : NodeId) :
    Run.Meet c Γ (fun _ d d' => d' = d ∧ d = c.hops id) w (hops? id) (hops? id) :=
  .of_agree fun _ _ hm => .ok ⟨(hm.hops' id).trans (hm.hops id).symm, hm.hops id⟩ hm

section References

variable {ref ref' : Reference} (hr : ref.Matched c.matching Γ ref')
include hr

/-- An occurrence that leads to a scope has a token that matches in that scope. -/
theorem local_name {distance : Nat} (hd : c.hops ref.id = some distance) :
    ref.name.Renamed c ((Γ[distance]?).getD false) ref'.name := by
  have hname : ref.name.Renamed c (c.matching.mark Γ ref.id) ref'.name := hr.name
  unfold Matching.mark at hname
  rwa [show c.matching.hops ref.id = _ from hd] at hname

/-- A global name is never another one. -/
theorem global_name (hd : c.hops ref.id = none) : ref'.name = ref.name := by
  have hname : ref.name.Renamed c (c.matching.mark Γ ref.id) ref'.name := hr.name
  unfold Matching.mark at hname
  rw [show c.matching.hops ref.id = _ from hd] at hname
  exact hname.same

theorem lookUp_meets : Run.Meet c Γ (Value.Renamed c) w (lookUp ref) (lookUp ref') := by
  unfold lookUp
  rw [hr.id]
  refine (hops?_meets ref.id).bind fun w' hw _ distance hd => ?_
  obtain ⟨rfl, hd⟩ := hd
  cases distance with
  | none =>
    rw [global_name hr hd.symm]
    exact access_meets (Access.get_global_meets ref.name)
  | some distance =>
    refine environment_meets.bind fun w'' hw' _ e he => ?_
    obtain ⟨rfl, he⟩ := he
    exact access_meets (Access.getAt_meets he distance (local_name hr hd.symm))

theorem assign_meets (hv : v.Renamed c w v') :
    Run.Meet c Γ (fun _ => Eq) w (assign ref v) (assign ref' v') := by
  unfold assign
  rw [hr.id]
  refine (hops?_meets ref.id).bind fun w' hw _ distance hd => ?_
  obtain ⟨rfl, hd⟩ := hd
  cases distance with
  | none =>
    rw [global_name hr hd.symm]
    exact access_meets (Access.assign_global_meets ref.name (hv.mono hw))
  | some distance =>
    refine environment_meets.bind fun w'' hw' _ e he => ?_
    obtain ⟨rfl, he⟩ := he
    exact access_meets
      (Access.assignAt_meets he distance (local_name hr hd.symm) (hv.mono (hw.trans hw')))

theorem superMethod_meets (method : Token) :
    Run.Meet c Γ (Value.Renamed c) w (superMethod ref method) (superMethod ref' method) := by
  unfold superMethod
  rw [hr.id]
  refine (hops?_meets ref.id).bind fun w' hw _ distance hd => ?_
  obtain ⟨rfl, hd⟩ := hd
  cases distance with
  | none =>
    rw [global_name hr hd.symm]
    exact fail_meets _ _
  | some distance =>
    have hname := local_name hr hd.symm
    have hfault (fault : RuntimeFault) (hf : ∀ y, fault.naming y = fault) :
        RuntimeError.Renamed c ⟨ref.name, fault⟩ ⟨ref'.name, fault⟩ :=
      fault_renamed hname (fun _ => fault) fun _ => hf
    refine environment_meets.bind fun w₁ hw₁ _ e he => ?_
    obtain ⟨rfl, he⟩ := he
    refine (access_meets (Access.getAt_meets he distance hname)).bind fun w₂ hw₂ v v' hv => ?_
    cases hv with
    | «class» hc =>
      rename_i cls cls'
      simp only
      rw [hname.line]
      have hthis := Token.Renamed.implicit (c := c) (t := .synthetic .this "this" ref.name.line)
        ((Γ[distance - 1]?).getD false) (.inl rfl)
      refine (access_meets (Access.getAt_meets (he.mono hw₂) (distance - 1) hthis)).bind
        fun w₃ hw₃ u u' hu => ?_
      cases hu with
      | «instance» ho =>
        have hmethod := (hc.mono hw₃).method? method.lexeme
        simp only
        generalize cls.method? method.lexeme = f? at hmethod ⊢
        generalize cls'.method? method.lexeme = f?' at hmethod ⊢
        cases hmethod with
        | none => exact fail_meets method _
        | some hf =>
          exact (access_meets (Access.bindMethod_meets hf ho)).map fun _ _ _ => Value.Renamed.function
      | _ => exact throw_meets (hfault .noProperties fun _ => rfl)
    | _ => exact throw_meets (hfault .superclassNotClass fun _ => rfl)

end References

theorem superclass_meets {ref? ref?' : Option Reference}
    (hr : Option.Rel (Reference.Matched c.matching Γ) ref? ref?') :
    Run.Meet c Γ (fun w sup sup' => Option.Rel (Class.Renamed c w) sup sup' ∧
      superMarks sup Γ = superMarks ref? Γ) w (superclass ref?) (superclass ref?') := by
  cases hr with
  | none => exact .pure ⟨.none, rfl⟩
  | @some ref ref' hr =>
    refine (lookUp_meets hr).bind fun w' hw v v' hv => ?_
    cases hv with
    | «class» hc => exact .pure ⟨.some hc, rfl⟩
    | _ =>
      refine throw_meets (fault_renamed hr.name (fun _ => .superclassNotClass) fun _ _ => rfl)

theorem Computes.meets {operator : Token} {p p' : Run Value} (h : Computes operator operator p p') :
    Run.Meet c Γ (Value.Renamed c) w p p' := by
  cases h with
  | boolean b => exact .pure (.boolean b)
  | number x => exact .pure (.number x)
  | string s => exact .pure (.string s)
  | fails fault => exact fail_meets operator fault

theorem property_meets (name : Token) (hv : v.Renamed c w v') :
    Run.Meet c Γ (Value.Renamed c) w (property v name) (property v' name) := by
  cases hv with
  | «instance» ho => exact access_meets (Access.instanceProperty_meets ho name)
  | «class» hc => exact access_meets (Access.classProperty_meets hc name)
  | _ => exact fail_meets name _

theorem propertyTable_meets (name : Token) (hv : v.Renamed c w v') :
    Run.Meet c Γ (fun _ => Eq) w (propertyTable v name) (propertyTable v' name) := by
  cases hv with
  | «instance» ho => exact .pure ho.id.symm
  | «class» hc => exact .pure hc.own.id.symm
  | _ => exact fail_meets name _

theorem define_meets {name name' : Token} (hn : name.Renamed c (Γ.headD false) name')
    {value value' : Option Value} (hv : Option.Rel (Value.Renamed c w) value value') :
    Run.Meet c Γ (fun _ => Eq) w (define name value) (define name' value') := by
  refine environment_meets.bind fun w' hw _ e he => ?_
  obtain ⟨rfl, he⟩ := he
  exact access_meets (Access.define_meets he hn (rel_mono (fun _ _ => Value.Renamed.mono hw) hv))

theorem closure_meets (name : Option String) {f f' : Lambda} (hf : f.Matched c.matching Γ f') :
    Run.Meet c Γ (Value.Renamed c) w (closure name f) (closure name f') := by
  refine environment_meets.bind fun w' hw _ e he => ?_
  obtain ⟨rfl, he⟩ := he
  exact (access_meets (Access.newClosure_meets name he hf false)).map fun _ _ _ =>
    Value.Renamed.function

theorem checkArity_meets (paren : Token) (expected given : Nat) :
    Run.Meet c Γ (fun _ => Eq) w (checkArity paren expected given)
      (checkArity paren expected given) := by
  unfold checkArity
  by_cases h : given = expected
  · rw [if_pos h]
    exact .pure rfl
  · rw [if_neg h]
    exact fail_meets paren _

theorem native_meets (f : Native) : Run.Meet c Γ (Value.Renamed c) w (native f) (native f) := by
  cases f with
  | clock =>
    refine .of_agree fun m m' hm => ?_
    unfold native
    simp only
    rw [hm.time]
    exact .ok (.number _) hm

/-- The receiver is asked for by a token of its own, which stands nowhere. -/
theorem callResult_meets {f f' : Closure} (hf : f.Renamed c w [] f') {r r' : Completion}
    (hr : r.Renamed c w r') : Run.Meet c Γ (Value.Renamed c) w (callResult f r) (callResult f' r') := by
  obtain ⟨Γ', hmarked, _⟩ := hf.function
  unfold callResult
  rw [hf.isInitializer, hf.environment]
  by_cases hinit : f.isInitializer = true
  · rw [if_pos hinit, if_pos hinit]
    exact access_meets (Access.getAt_meets hmarked 0 (.implicit _ (.inl rfl)))
  · rw [if_neg hinit, if_neg hinit]
    cases hr with
    | «return» hv => exact .pure hv
    | _ => exact .pure .nil

/-- What `n` units of fuel evaluate ends alike in both runs. -/
structure Renames (c : Change) (n : Nat) : Prop where
  eval : ∀ {Γ w e e'}, e.Matched c.matching Γ e' →
    Run.Meet c Γ (Value.Renamed c) w (eval n e) (eval n e')
  evalAll : ∀ {Γ w es es'}, Expr.MatchedAll c.matching Γ es es' →
    Run.Meet c Γ (fun w => List.Forall₂ (Value.Renamed c w)) w (evalAll n es) (evalAll n es')
  call : ∀ {Γ w v v' paren vs vs'}, v.Renamed c w v' → List.Forall₂ (Value.Renamed c w) vs vs' →
    Run.Meet c Γ (Value.Renamed c) w (call n v paren vs) (call n v' paren vs')
  invoke : ∀ {Γ w f f' vs vs'}, f.Renamed c w [] f' → List.Forall₂ (Value.Renamed c w) vs vs' →
    Run.Meet c Γ (Value.Renamed c) w (invoke n f vs) (invoke n f' vs')
  exec : ∀ {Γ w s s'}, s.Matched c.matching Γ s' →
    Run.Meet c Γ (Completion.Renamed c) w (exec n s) (exec n s')
  execAll : ∀ {Γ w body body'}, Stmt.MatchedAll c.matching Γ body body' →
    Run.Meet c Γ (Completion.Renamed c) w (execAll n body) (execAll n body')
  iterate : ∀ {Γ w condition condition' body body' increment increment'},
    condition.Matched c.matching Γ condition' → body.Matched c.matching Γ body' →
    Expr.Matched? c.matching Γ increment increment' →
    Run.Meet c Γ (Completion.Renamed c) w (iterate n condition body increment)
      (iterate n condition' body' increment')

section Step

variable {n : Nat} (hs : Renames c n)
include hs

theorem eval_meets {e e' : Expr} (h : e.Matched c.matching Γ e') :
    Run.Meet c Γ (Value.Renamed c) w (eval (n + 1) e) (eval (n + 1) e') := by
  cases h with
  | literal value =>
    cases value with
    | number x => exact .pure (.number x)
    | string s => exact .pure (.string s)
    | boolean b => exact .pure (.boolean b)
    | nil => exact .pure .nil
  | grouping h => exact hs.eval h
  | @unary _ op op' right right' hop hr =>
    obtain rfl := hop.same
    exact (hs.eval hr).bind fun w' hw v v' hv => (unary_computes rfl hv.resembles).meets
  | @binary _ left left' op op' right right' hl hop hr =>
    obtain rfl := hop.same
    unfold eval
    refine (hs.eval hl).bind fun w' hw v v' hv => ?_
    rw [afterLeft_eq op'.kind hv.resembles]
    cases afterLeft op'.kind v with
    | keepLeft => exact .pure hv
    | takeRight => exact hs.eval hr
    | combine =>
      exact (hs.eval hr).bind fun w'' hw' u u' hu =>
        (binary_computes rfl hv.resembles hu.resembles).meets
  | binaryError hop hr =>
    obtain rfl := hop.same
    exact fail_meets _ _
  | conditional hc ht hf =>
    unfold eval
    refine (hs.eval hc).bind fun w' hw v v' hv => ?_
    rw [hv.resembles.isTruthy]
    by_cases htruthy : v.isTruthy = true
    · rw [if_pos htruthy, if_pos htruthy]
      exact hs.eval ht
    · rw [if_neg htruthy, if_neg htruthy]
      exact hs.eval hf
  | «variable» hr => exact lookUp_meets hr
  | assign hr hv =>
    refine (hs.eval hv).bind fun w' hw v v' hv => ?_
    exact (assign_meets hr hv).bind fun w'' hw' _ _ _ => .pure (hv.mono hw')
  | @call _ callee callee' paren paren' args args' hc hp ha =>
    obtain rfl := hp.same
    refine (hs.eval hc).bind fun w' hw v v' hv => ?_
    exact (hs.evalAll ha).bind fun w'' hw' vs vs' hvs => hs.call (hv.mono hw') hvs
  | get ho hn =>
    obtain rfl := hn.same
    exact (hs.eval ho).bind fun w' hw v v' hv => property_meets _ hv
  | @set _ object object' name name' value value' ho hn hv =>
    obtain rfl := hn.same
    refine (hs.eval ho).bind fun w' hw o o' ho => ?_
    refine (propertyTable_meets _ ho).bind fun w'' hw' table _ htable => ?_
    subst htable
    refine (hs.eval hv).bind fun w₃ hw₃ v v' hv => ?_
    exact (access_meets (Access.setProperty_meets table name'.lexeme hv)).bind
      fun w₄ hw₄ _ _ _ => .pure (hv.mono hw₄)
  | this hr => exact lookUp_meets hr
  | super hr hm =>
    obtain rfl := hm.same
    exact superMethod_meets hr _
  | lambda hf => exact closure_meets none hf

theorem evalAll_meets {es es' : List Expr} (h : Expr.MatchedAll c.matching Γ es es') :
    Run.Meet c Γ (fun w => List.Forall₂ (Value.Renamed c w)) w (evalAll (n + 1) es)
      (evalAll (n + 1) es') := by
  cases h with
  | nil => exact .pure .nil
  | cons he hrest =>
    refine (hs.eval he).bind fun w' hw v v' hv => ?_
    exact (hs.evalAll hrest).bind fun w'' hw' vs vs' hvs => .pure (.cons (hv.mono hw') hvs)

theorem call_meets (hv : v.Renamed c w v') (paren : Token) {vs vs' : List Value}
    (hvs : List.Forall₂ (Value.Renamed c w) vs vs') :
    Run.Meet c Γ (Value.Renamed c) w (call (n + 1) v paren vs) (call (n + 1) v' paren vs') := by
  have hlength : vs'.length = vs.length := hvs.length_eq.symm
  have hlater {w' : List Bool} (hw : w <+: w') := hvs.imp fun _ _ => Value.Renamed.mono (c := c) hw
  cases hv with
  | native f =>
    simp only [call, hlength]
    exact (checkArity_meets paren f.arity vs.length).bind fun _ _ _ _ _ => native_meets f
  | @function f f' hf =>
    simp only [call, hlength, hf.arity]
    refine (checkArity_meets paren f.function.arity vs.length).bind fun w' hw _ _ _ => ?_
    exact hs.invoke (hf.mono hw) (hlater hw)
  | @«class» cls cls' hc =>
    simp only [call, hlength, hc.arity]
    refine (checkArity_meets paren cls.arity vs.length).bind fun w₁ hw₁ _ _ _ => ?_
    refine (access_meets (Access.newObject_meets fun _ => .none)).bind fun w₂ hw₂ id _ hid => ?_
    subst hid
    have hinitializer := (hc.mono (hw₁.trans hw₂)).initializer?
    have hobject : Instance.Renamed c w₂ ⟨id, cls⟩ ⟨id, cls'⟩ := ⟨rfl, hc.mono (hw₁.trans hw₂)⟩
    generalize cls.initializer? = f? at hinitializer ⊢
    generalize cls'.initializer? = f?' at hinitializer ⊢
    cases hinitializer with
    | none => exact .pure (.instance hobject)
    | some hf =>
      refine (access_meets (Access.bindMethod_meets hf hobject)).bind fun w₃ hw₃ g g' hg => ?_
      refine (hs.invoke hg (hlater ((hw₁.trans hw₂).trans hw₃))).bind fun w₄ hw₄ _ _ _ => ?_
      exact .pure (.instance ⟨rfl, hobject.cls.mono (hw₃.trans hw₄)⟩)
  | _ => exact fail_meets paren _

theorem invoke_meets {f f' : Closure} (hf : f.Renamed c w [] f') {vs vs' : List Value}
    (hvs : List.Forall₂ (Value.Renamed c w) vs vs') :
    Run.Meet c Γ (Value.Renamed c) w (invoke (n + 1) f vs) (invoke (n + 1) f' vs') := by
  obtain ⟨Γ', hmarked, hmatched⟩ := hf.function
  rw [List.nil_append] at hmatched
  unfold invoke
  generalize hfun : f.function = function at hmatched
  generalize hfun' : f'.function = function' at hmatched
  cases hmatched with
  | @mk _ m params params' body body' hp hb =>
    have hparams : List.Forall₂ (Token.Renamed c m) f.function.params f'.function.params := by
      rw [hfun, hfun']
      exact hp
    refine (access_meets (callEnvironment_meets hf.environment hmarked hparams hvs)).bind
      fun w' hw _ inner hinner => ?_
    obtain ⟨rfl, hinner⟩ := hinner
    refine (within_meets hinner (hs.execAll hb)).bind fun w'' hw' r r' hr => ?_
    exact callResult_meets (hf.mono (hw.trans hw')) hr

theorem exec_meets {s s' : Stmt} (h : s.Matched c.matching Γ s') :
    Run.Meet c Γ (Completion.Renamed c) w (exec (n + 1) s) (exec (n + 1) s') := by
  cases h with
  | expression h => exact (hs.eval h).bind fun _ _ _ _ _ => .pure .normal
  | print h =>
    exact (hs.eval h).bind fun w' hw v v' hv => (print_meets hv).bind fun _ _ _ _ _ => .pure .normal
  | var hn h =>
    cases h with
    | none => exact (define_meets hn .none).bind fun _ _ _ _ _ => .pure .normal
    | some h =>
      refine (hs.eval h).bind fun w' hw v v' hv => ?_
      exact (define_meets hn (.some hv)).bind fun _ _ _ _ _ => .pure .normal
  | @block _ m body body' h =>
    refine environment_meets.bind fun w' hw _ e he => ?_
    obtain ⟨rfl, he⟩ := he
    refine (access_meets (Access.child_meets he m)).bind fun w'' hw' _ inner hinner => ?_
    obtain ⟨rfl, hinner⟩ := hinner
    exact within_meets hinner (hs.execAll h)
  | ite hc ht hf =>
    unfold exec
    refine (hs.eval hc).bind fun w' hw v v' hv => ?_
    rw [hv.resembles.isTruthy]
    by_cases htruthy : v.isTruthy = true
    · rw [if_pos htruthy, if_pos htruthy]
      exact hs.exec ht
    · rw [if_neg htruthy, if_neg htruthy]
      cases hf with
      | none => exact .pure .normal
      | some h => exact hs.exec h
  | loop hc hb hi => exact hs.iterate hc hb hi
  | «break» _ => exact .pure .break
  | «continue» _ => exact .pure .continue
  | breakError h | continueError h =>
    obtain rfl := h.same
    exact fail_meets _ _
  | @function _ name name' f f' hn hname h =>
    obtain rfl := hname.same
    refine (closure_meets (some name'.lexeme) h).bind fun w' hw v v' hv => ?_
    exact (define_meets hn (.some hv)).bind fun _ _ _ _ _ => .pure .normal
  | «return» _ h =>
    cases h with
    | none => exact .pure (.return .nil)
    | some h => exact (hs.eval h).bind fun w' hw v v' hv => .pure (.return hv)
  | @«class» _ name name' superclass superclass' own own' statics statics' hn hname h hown hstatics =>
    obtain rfl := hname.same
    refine (superclass_meets h).bind fun w' hw sup sup' hsup => ?_
    obtain ⟨hsup, hmarks⟩ := hsup
    rw [← hmarks] at hown hstatics
    refine environment_meets.bind fun w'' hw' _ e he => ?_
    obtain ⟨rfl, he⟩ := he
    refine (access_meets (defineClass_meets he hn
      (rel_mono (fun _ _ => Class.Renamed.mono hw') hsup) hown hstatics)).bind fun _ _ _ _ _ => ?_
    exact .pure .normal

theorem execAll_meets {body body' : List Stmt} (h : Stmt.MatchedAll c.matching Γ body body') :
    Run.Meet c Γ (Completion.Renamed c) w (execAll (n + 1) body) (execAll (n + 1) body') := by
  cases h with
  | nil => exact .pure .normal
  | cons hst hrest =>
    refine (hs.exec hst).bind fun w' hw r r' hr => ?_
    cases hr with
    | normal => exact hs.execAll hrest
    | «return» hv => exact .pure (.return hv)
    | «break» => exact .pure .break
    | «continue» => exact .pure .continue

theorem iterate_meets {condition condition' : Expr} {body body' : Stmt}
    {increment increment' : Option Expr} (hc : condition.Matched c.matching Γ condition')
    (hb : body.Matched c.matching Γ body') (hi : Expr.Matched? c.matching Γ increment increment') :
    Run.Meet c Γ (Completion.Renamed c) w (iterate (n + 1) condition body increment)
      (iterate (n + 1) condition' body' increment') := by
  unfold iterate
  refine (hs.eval hc).bind fun w' hw v v' hv => ?_
  rw [hv.resembles.isTruthy]
  by_cases htruthy : v.isTruthy = true
  · rw [if_pos htruthy, if_pos htruthy]
    refine (hs.exec hb).bind fun w'' hw' r r' hr => ?_
    cases hr with
    | «return» hv => exact .pure (.return hv)
    | «break» => exact .pure .normal
    | _ =>
      cases hi with
      | none => exact hs.iterate hc hb .none
      | some h =>
        refine (hs.eval h).bind fun _ _ _ _ _ => ?_
        exact hs.iterate hc hb (.some h)
  · rw [if_neg htruthy, if_neg htruthy]
    exact .pure .normal

end Step

/-- Both runs end alike with any amount of fuel. -/
theorem renames (c : Change) (n : Nat) : Renames c n := by
  induction n with
  | zero =>
    constructor <;> intros <;> exact outOfFuel_meets
  | succ n ih =>
    exact ⟨fun h => eval_meets ih h, fun h => evalAll_meets ih h, fun hv hvs => call_meets ih hv _ hvs,
      fun hf hvs => invoke_meets ih hf hvs, fun h => exec_meets ih h, fun h => execAll_meets ih h,
      fun hc hb hi => iterate_meets ih hc hb hi⟩

end Run

end Lox
