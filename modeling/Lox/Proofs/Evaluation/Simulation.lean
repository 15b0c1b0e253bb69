import Lox.Evaluation
import Lox.Proofs.Evaluation.Likeness
import Lox.Proofs.Scope.Occurrences

/-!
Two runs of one text that stands in two places. Evaluation does not look at lines, and at the number
of an occurrence only for its hops, so the two runs end alike.
-/

namespace Lox

open Run

/-- What two runs are compared by: how many lines further down the code of the second one may stand,
the hops and the first unused numbers of both, and what the second one has printed before. -/
structure Comparison where
  lines : Nat → Prop
  unmoved : lines 0
  hops : NodeId → Option Nat
  hops' : NodeId → Option Nat
  next : NodeId
  next' : NodeId
  before : List String

namespace Comparison

variable (c : Comparison)

/-- The second run has the hops of these occurrences, with numbers that are greater by `j`. -/
def Places (j : Nat) (ids : List NodeId) : Prop :=
  ∀ id ∈ ids, id < c.next ∧ id + j < c.next' ∧ c.hops' (id + j) = c.hops id

/-- The same function, further down, and with other numbers for its occurrences. -/
def Code (f f' : Lambda) : Prop :=
  ∃ k j, c.lines k ∧ c.Places j f.ids ∧ f' = f.relabel (Token.down k) (· + j)

end Comparison

/-- Machines that are alike but for the hops and the places of the code. -/
structure Machine.Alike (c : Comparison) (m m' : Machine) : Prop where
  heap : m.heap.Alike c.Code m'.heap
  environment : m'.environment = m.environment
  hops : ∀ id, m.hops[id]? = c.hops id
  hops' : ∀ id, m'.hops[id]? = c.hops' id
  printed : m'.printed = m.printed ++ c.before
  time : m'.time = m.time

inductive Halt.Alike (K : Nat → Prop) : Halt → Halt → Prop where
  | error {e e' : RuntimeError} (h : e.Alike K e') : Alike K (.error e) (.error e')
  | outOfFuel : Alike K .outOfFuel .outOfFuel

inductive Completion.Alike (R : Lambda → Lambda → Prop) : Completion → Completion → Prop where
  | normal : Alike R .normal .normal
  | «return» {v v' : Value} (h : v.Alike R v') : Alike R (.return v) (.return v')
  | «break» : Alike R .break .break
  | «continue» : Alike R .continue .continue

/-- Two runs that end alike on machines that are alike. -/
abbrev Run.Agrees {α β : Type} (c : Comparison) (A : α → β → Prop) (p : Run α) (q : Run β) : Prop :=
  Agree (Halt.Alike c.lines) (Machine.Alike c) A p q

variable {c : Comparison} {j k : Nat}

namespace Comparison

@[simp] theorem Places.append {ids ids' : List NodeId} :
    c.Places j (ids ++ ids') ↔ c.Places j ids ∧ c.Places j ids' := List.forall_mem_append

theorem Places.singleton {id : NodeId} (h : c.Places j [id]) : c.hops' (id + j) = c.hops id :=
  (h id (List.mem_singleton_self id)).2.2

theorem Code.arity {f f' : Lambda} (h : c.Code f f') : f'.arity = f.arity := by
  obtain ⟨k, j, _, _, rfl⟩ := h
  obtain ⟨params, body⟩ := f
  simp only [Lambda.arity, Lambda.relabel, Lambda.params, List.length_map]

end Comparison

namespace Run

variable {α β : Type} {A : α → β → Prop} {v v' w w' : Value} {x x' : Token}

theorem fail_agrees (hx : x.Lowered c.lines x') (fault : RuntimeFault) :
    Agrees c A (fail x fault) (fail x' fault) := .throw (.error ⟨rfl, hx⟩)

theorem outOfFuel_agrees : Agrees c A outOfFuel outOfFuel := .throw .outOfFuel

theorem access_agrees {q : Access α} {q' : Access β} (hq : Access.Agrees c.lines c.Code A q q') :
    Agrees c A (access q) (access q') := by
  intro m m' hm
  obtain ⟨heap, environment, hops, printed, time⟩ := m
  obtain ⟨heap', environment', hops', printed', time'⟩ := m'
  have hends := hq heap heap' hm.heap
  have hmachine {g g' : Heap} (hg : g.Alike c.Code g') :
      Machine.Alike c ⟨g, environment, hops, printed, time⟩
        ⟨g', environment', hops', printed', time'⟩ :=
    ⟨hg, hm.environment, hm.hops, hm.hops', hm.printed, hm.time⟩
  unfold access
  simp only
  generalize q heap = r at hends ⊢
  generalize q' heap' = r' at hends ⊢
  cases hends with
  | ok ha hg => exact .ok ha (hmachine hg)
  | error he hg => exact .error (.error he) (hmachine hg)

theorem environment_agrees : Agrees c Eq environment environment := fun _ _ hm =>
  .ok hm.environment.symm hm

theorem within_agrees {p : Run α} {q : Run β} (hp : Agrees c A p q) (e : Environment) :
    Agrees c A (within e p) (within e q) := by
  intro m m' hm
  have hinner : Machine.Alike c { m with environment := e } { m' with environment := e } :=
    ⟨hm.heap, rfl, hm.hops, hm.hops', hm.printed, hm.time⟩
  have hends := hp _ _ hinner
  have hmachine {n n' : Machine} (hn : n.Alike c n') :
      Machine.Alike c { n with environment := m.environment }
        { n' with environment := m'.environment } :=
    ⟨hn.heap, hm.environment, hn.hops, hn.hops', hn.printed, hn.time⟩
  unfold within
  simp only
  generalize p { m with environment := e } = r at hends ⊢
  generalize q { m' with environment := e } = r' at hends ⊢
  cases hends with
  | ok ha hn => exact .ok ha (hmachine hn)
  | error he hn => exact .error he (hmachine hn)

theorem print_agrees (hv : v.Alike c.Code v') : Agrees c Eq (print v) (print v') := by
  intro m m' hm
  refine .ok rfl ⟨hm.heap, hm.environment, hm.hops, hm.hops', ?_, hm.time⟩
  simp only [hm.printed, hv.resembles.text, List.cons_append]

/-- An occurrence is looked up by its hops, which both runs have. -/
theorem hops?_agrees {id : NodeId} (h : c.Places j [id]) :
    Agrees c Eq (hops? id) (hops? (id + j)) := by
  intro m m' hm
  refine .ok ?_ hm
  rw [hm.hops, hm.hops', h.singleton]

section Operations

variable (hk : c.lines k)
include hk

theorem lowered (x : Token) : x.Lowered c.lines (x.down k) := ⟨k, hk, rfl⟩

theorem lookUp_agrees {ref : Reference} (h : c.Places j [ref.id]) :
    Agrees c (Value.Alike c.Code) (lookUp ref) (lookUp (ref.relabel (Token.down k) (· + j))) := by
  unfold lookUp
  refine (hops?_agrees h).bind fun distance _ hd => ?_
  subst hd
  cases distance with
  | none => exact access_agrees (Access.get_agrees (lowered hk ref.name))
  | some distance =>
    refine environment_agrees.bind fun e _ he => ?_
    subst he
    exact access_agrees (Access.getAt_agrees distance (lowered hk ref.name))

theorem assign_agrees {target : Reference} (h : c.Places j [target.id]) (hv : v.Alike c.Code v') :
    Agrees c Eq (assign target v) (assign (target.relabel (Token.down k) (· + j)) v') := by
  unfold assign
  refine (hops?_agrees h).bind fun distance _ hd => ?_
  subst hd
  cases distance with
  | none => exact access_agrees (Access.assign_agrees (lowered hk target.name) hv)
  | some distance =>
    refine environment_agrees.bind fun e _ he => ?_
    subst he
    exact access_agrees (Access.assignAt_agrees distance (lowered hk target.name) hv)

theorem Computes.agrees {operator : Token} {p p' : Run Value}
    (h : Computes operator (operator.down k) p p') : Agrees c (Value.Alike c.Code) p p' := by
  cases h with
  | boolean b => exact .pure (.boolean b)
  | number x => exact .pure (.number x)
  | string s => exact .pure (.string s)
  | fails fault => exact fail_agrees (lowered hk operator) fault

theorem property_agrees (name : Token) (hv : v.Alike c.Code v') :
    Agrees c (Value.Alike c.Code) (property v name) (property v' (name.down k)) := by
  cases hv with
  | «instance» ho => exact access_agrees (Access.instanceProperty_agrees ho (lowered hk name))
  | «class» hc => exact access_agrees (Access.classProperty_agrees hc (lowered hk name))
  | _ => exact fail_agrees (lowered hk name) _

theorem propertyTable_agrees (name : Token) (hv : v.Alike c.Code v') :
    Agrees c Eq (propertyTable v name) (propertyTable v' (name.down k)) := by
  cases hv with
  | «instance» ho => exact .pure ho.id.symm
  | «class» hc => exact .pure hc.own.id.symm
  | _ => exact fail_agrees (lowered hk name) _

theorem superMethod_agrees {ref : Reference} (h : c.Places j [ref.id]) (method : Token) :
    Agrees c (Value.Alike c.Code) (superMethod ref method)
      (superMethod (ref.relabel (Token.down k) (· + j)) (method.down k)) := by
  unfold superMethod
  refine (hops?_agrees h).bind fun distance _ hd => ?_
  subst hd
  cases distance with
  | none => exact fail_agrees (lowered hk ref.name) _
  | some distance =>
    refine environment_agrees.bind fun e _ he => ?_
    subst he
    refine (access_agrees (Access.getAt_agrees distance (lowered hk ref.name))).bind fun v v' hv => ?_
    cases hv with
    | «class» hc =>
      have hthis := lowered hk (Token.synthetic .this "this" ref.name.line)
      refine (access_agrees (Access.getAt_agrees (distance - 1) hthis)).bind fun w w' hw => ?_
      cases hw with
      | «instance» ho =>
        have hmethod := hc.method? method.lexeme
        rw [Token.down_lexeme]
        rename_i cls cls' _ _
        generalize cls.method? method.lexeme = f? at hmethod ⊢
        generalize cls'.method? method.lexeme = f?' at hmethod ⊢
        cases hmethod with
        | none => exact fail_agrees (lowered hk method) _
        | some hf =>
          exact (access_agrees (Access.bindMethod_agrees hf ho)).map fun _ _ => Value.Alike.function
      | _ => exact fail_agrees (lowered hk ref.name) _
    | _ => exact fail_agrees (lowered hk ref.name) _

theorem superclass_agrees {ref? : Option Reference}
    (h : c.Places j (ref?.map Reference.id).toList) :
    Agrees c (Option.Rel (Class.Alike c.Code)) (superclass ref?)
      (superclass (ref?.map (·.relabel (Token.down k) (· + j)))) := by
  cases ref? with
  | none => exact .pure .none
  | some ref =>
    refine (lookUp_agrees hk h).bind fun v v' hv => ?_
    cases hv with
    | «class» hc => exact .pure (.some hc)
    | _ => exact fail_agrees (lowered hk ref.name) _

theorem define_agrees (name : Token) {value value' : Option Value}
    (hv : Option.Rel (Value.Alike c.Code) value value') :
    Agrees c Eq (define name value) (define (name.down k) value') := by
  refine environment_agrees.bind fun e _ he => ?_
  subst he
  exact access_agrees (Access.define_agrees (lowered hk name) hv)

theorem checkArity_agrees (paren : Token) (expected given : Nat) :
    Agrees c Eq (checkArity paren expected given) (checkArity (paren.down k) expected given) := by
  unfold checkArity
  by_cases h : given = expected
  · rw [if_pos h, if_pos h]
    exact .pure rfl
  · rw [if_neg h, if_neg h]
    exact fail_agrees (lowered hk paren) _

theorem declaration_alike {d : FunctionDecl} (h : c.Places j d.function.ids) :
    d.Alike c.lines c.Code (d.relabel (Token.down k) (· + j)) := by
  obtain ⟨name, function⟩ := d
  exact ⟨lowered hk name, k, j, hk, h, rfl⟩

theorem declarations_alike {decls : List FunctionDecl} (h : c.Places j (FunctionDecl.idsAll decls)) :
    List.Forall₂ (FunctionDecl.Alike c.lines c.Code) decls
      (FunctionDecl.relabelAll (Token.down k) (· + j) decls) := by
  induction decls with
  | nil => exact .nil
  | cons d decls ih =>
    obtain ⟨name, function⟩ := d
    obtain ⟨hd, hrest⟩ := Comparison.Places.append.1 h
    exact .cons (declaration_alike hk hd) (ih hrest)

end Operations

theorem closure_agrees (name : Option String) {f f' : Lambda} (hf : c.Code f f') :
    Agrees c (Value.Alike c.Code) (closure name f) (closure name f') := by
  refine environment_agrees.bind fun e _ he => ?_
  subst he
  exact (access_agrees (Access.newClosure_agrees name hf e false)).map fun _ _ =>
    Value.Alike.function

theorem native_agrees (f : Native) : Agrees c (Value.Alike c.Code) (native f) (native f) := by
  cases f with
  | clock =>
    intro m m' hm
    unfold native
    simp only
    rw [hm.time]
    exact .ok (.number _) hm

theorem parameters_alike (k : Nat) (hk : c.lines k) (params : List Token) {vs vs' : List Value}
    (hvs : List.Forall₂ (Value.Alike c.Code) vs vs') :
    List.Forall₂ (fun b b' => b.1.Lowered c.lines b'.1 ∧ b.2.Alike c.Code b'.2) (params.zip vs)
      ((params.map (Token.down k)).zip vs') := by
  induction hvs generalizing params with
  | nil => simp
  | @cons v v' vs vs' hv _ ih =>
    cases params with
    | nil => exact .nil
    | cons x params => exact .cons ⟨lowered hk x, hv⟩ (ih params)

theorem callEnvironment_agrees {f f' : Closure} (hf : f.Alike c.Code f') {vs vs' : List Value}
    (hvs : List.Forall₂ (Value.Alike c.Code) vs vs') :
    Access.Agrees c.lines c.Code Eq (callEnvironment f vs) (callEnvironment f' vs') := by
  have hparams : List.Forall₂ (fun b b' => b.1.Lowered c.lines b'.1 ∧ b.2.Alike c.Code b'.2)
      (f.function.params.zip vs) (f'.function.params.zip vs') := by
    obtain ⟨k, j, hk, _, hrelabel⟩ := hf.function
    rw [hrelabel]
    obtain ⟨params, body⟩ := f.function
    exact parameters_alike k hk params hvs
  exact bindParameters_agrees hf.environment hparams

/-- The receiver is asked for by a token of its own, which stands nowhere. -/
theorem callResult_agrees {f f' : Closure} (hf : f.Alike c.Code f') {r r' : Completion}
    (hr : r.Alike c.Code r') : Agrees c (Value.Alike c.Code) (callResult f r) (callResult f' r') := by
  unfold callResult
  rw [hf.isInitializer, hf.environment]
  by_cases hinit : f.isInitializer = true
  · rw [if_pos hinit, if_pos hinit]
    exact access_agrees (Access.getAt_agrees 0 (.refl c.unmoved _))
  · rw [if_neg hinit, if_neg hinit]
    cases hr with
    | «return» hv => exact .pure hv
    | _ => exact .pure .nil

/-- What `n` units of fuel evaluate ends alike in both runs, wherever the code of each stands. -/
structure Simulated (c : Comparison) (n : Nat) : Prop where
  eval : ∀ {k j e}, c.lines k → c.Places j e.ids →
    Agrees c (Value.Alike c.Code) (eval n e) (eval n (e.relabel (Token.down k) (· + j)))
  evalAll : ∀ {k j es}, c.lines k → c.Places j (Expr.idsAll es) →
    Agrees c (List.Forall₂ (Value.Alike c.Code)) (evalAll n es)
      (evalAll n (Expr.relabelAll (Token.down k) (· + j) es))
  call : ∀ {k v v' paren vs vs'}, c.lines k → v.Alike c.Code v' →
    List.Forall₂ (Value.Alike c.Code) vs vs' →
    Agrees c (Value.Alike c.Code) (call n v paren vs) (call n v' (paren.down k) vs')
  invoke : ∀ {f f' vs vs'}, f.Alike c.Code f' → List.Forall₂ (Value.Alike c.Code) vs vs' →
    Agrees c (Value.Alike c.Code) (invoke n f vs) (invoke n f' vs')
  exec : ∀ {k j s}, c.lines k → c.Places j s.ids →
    Agrees c (Completion.Alike c.Code) (exec n s) (exec n (s.relabel (Token.down k) (· + j)))
  execAll : ∀ {k j body}, c.lines k → c.Places j (Stmt.idsAll body) →
    Agrees c (Completion.Alike c.Code) (execAll n body)
      (execAll n (Stmt.relabelAll (Token.down k) (· + j) body))
  iterate : ∀ {k j condition body increment}, c.lines k → c.Places j condition.ids →
    c.Places j body.ids → c.Places j (Expr.ids? increment) →
    Agrees c (Completion.Alike c.Code) (iterate n condition body increment)
      (iterate n (condition.relabel (Token.down k) (· + j)) (body.relabel (Token.down k) (· + j))
        (Expr.relabel? (Token.down k) (· + j) increment))

section Step

variable {n : Nat} (hs : Simulated c n)
include hs

theorem eval_agrees (hk : c.lines k) {e : Expr} (h : c.Places j e.ids) :
    Agrees c (Value.Alike c.Code) (eval (n + 1) e)
      (eval (n + 1) (e.relabel (Token.down k) (· + j))) := by
  cases e with
  | literal value =>
    cases value with
    | number x => exact .pure (.number x)
    | string s => exact .pure (.string s)
    | boolean b => exact .pure (.boolean b)
    | nil => exact .pure .nil
  | grouping inner => exact hs.eval hk h
  | unary operator right =>
    have hright : c.Places j right.ids := h
    exact (hs.eval hk hright).bind fun v v' hv =>
      (unary_computes Token.down_kind hv.resembles).agrees hk
  | binary left operator right =>
    obtain ⟨hleft, hright⟩ := Comparison.Places.append.1 h
    simp only [Expr.relabel]
    unfold eval
    refine (hs.eval hk hleft).bind fun v v' hv => ?_
    rw [Token.down_kind, afterLeft_eq operator.kind hv.resembles]
    cases afterLeft operator.kind v with
    | keepLeft => exact .pure hv
    | takeRight => exact hs.eval hk hright
    | combine =>
      exact (hs.eval hk hright).bind fun w w' hw =>
        (binary_computes Token.down_kind hv.resembles hw.resembles).agrees hk
  | binaryError operator right => exact fail_agrees (lowered hk operator) _
  | conditional condition thenBranch elseBranch =>
    obtain ⟨hcondition, hbranches⟩ := Comparison.Places.append.1 h
    obtain ⟨hthen, helse⟩ := Comparison.Places.append.1 hbranches
    simp only [Expr.relabel]
    unfold eval
    refine (hs.eval hk hcondition).bind fun v v' hv => ?_
    rw [hv.resembles.isTruthy]
    by_cases htruthy : v.isTruthy = true
    · rw [if_pos htruthy, if_pos htruthy]
      exact hs.eval hk hthen
    · rw [if_neg htruthy, if_neg htruthy]
      exact hs.eval hk helse
  | «variable» ref => exact lookUp_agrees hk h
  | assign target value =>
    obtain ⟨hvalue, htarget⟩ := Comparison.Places.append.1 h
    refine (hs.eval hk hvalue).bind fun v v' hv => ?_
    exact (assign_agrees hk htarget hv).bind fun _ _ _ => .pure hv
  | call callee paren arguments =>
    obtain ⟨hcallee, harguments⟩ := Comparison.Places.append.1 h
    refine (hs.eval hk hcallee).bind fun v v' hv => ?_
    exact (hs.evalAll hk harguments).bind fun vs vs' hvs => hs.call hk hv hvs
  | get object name =>
    have hobject : c.Places j object.ids := h
    exact (hs.eval hk hobject).bind fun v v' hv => property_agrees hk name hv
  | set object name value =>
    obtain ⟨hvalue, hobject⟩ := Comparison.Places.append.1 h
    refine (hs.eval hk hobject).bind fun o o' ho => ?_
    refine (propertyTable_agrees hk name ho).bind fun table _ htable => ?_
    subst htable
    refine (hs.eval hk hvalue).bind fun v v' hv => ?_
    exact (access_agrees (Access.setProperty_agrees table name.lexeme hv)).bind fun _ _ _ => .pure hv
  | this ref => exact lookUp_agrees hk h
  | super ref method => exact superMethod_agrees hk h method
  | lambda function => exact closure_agrees none ⟨k, j, hk, h, rfl⟩

theorem evalAll_agrees (hk : c.lines k) {es : List Expr} (h : c.Places j (Expr.idsAll es)) :
    Agrees c (List.Forall₂ (Value.Alike c.Code)) (evalAll (n + 1) es)
      (evalAll (n + 1) (Expr.relabelAll (Token.down k) (· + j) es)) := by
  cases es with
  | nil => exact .pure .nil
  | cons e rest =>
    obtain ⟨hfirst, hrest⟩ := Comparison.Places.append.1 h
    refine (hs.eval hk hfirst).bind fun v v' hv => ?_
    exact (hs.evalAll hk hrest).bind fun vs vs' hvs => .pure (.cons hv hvs)

theorem call_agrees (hk : c.lines k) (hv : v.Alike c.Code v') (paren : Token) {vs vs' : List Value}
    (hvs : List.Forall₂ (Value.Alike c.Code) vs vs') :
    Agrees c (Value.Alike c.Code) (call (n + 1) v paren vs)
      (call (n + 1) v' (paren.down k) vs') := by
  have hlength : vs'.length = vs.length := hvs.length_eq.symm
  cases hv with
  | native f =>
    simp only [call, hlength]
    exact (checkArity_agrees hk paren f.arity vs.length).bind fun _ _ _ => native_agrees f
  | @function f f' hf =>
    simp only [call, hlength, hf.function.arity]
    refine (checkArity_agrees hk paren f.function.arity vs.length).bind fun _ _ _ => ?_
    exact hs.invoke hf hvs
  | @«class» cls cls' hc =>
    have hinitializer := hc.initializer?
    have harity := Class.arity_eq_of_rel (fun _ _ hf => hf.function.arity) hinitializer
    simp only [call, hlength, harity]
    refine (checkArity_agrees hk paren cls.arity vs.length).bind fun _ _ _ => ?_
    refine (access_agrees (Access.newObject_agrees fun _ => .none)).bind fun id _ hid => ?_
    subst hid
    have hobject : Instance.Alike c.Code ⟨id, cls⟩ ⟨id, cls'⟩ := ⟨rfl, hc⟩
    generalize cls.initializer? = f? at hinitializer ⊢
    generalize cls'.initializer? = f?' at hinitializer ⊢
    cases hinitializer with
    | none => exact .pure (.instance hobject)
    | some hf =>
      refine (access_agrees (Access.bindMethod_agrees hf hobject)).bind fun g g' hg => ?_
      exact (hs.invoke hg hvs).bind fun _ _ _ => .pure (.instance hobject)
  | _ => exact fail_agrees (lowered hk paren) _

theorem invoke_agrees {f f' : Closure} (hf : f.Alike c.Code f') {vs vs' : List Value}
    (hvs : List.Forall₂ (Value.Alike c.Code) vs vs') :
    Agrees c (Value.Alike c.Code) (invoke (n + 1) f vs) (invoke (n + 1) f' vs') := by
  have hbody : Agrees c (Completion.Alike c.Code) (execAll n f.function.body)
      (execAll n f'.function.body) := by
    obtain ⟨k, j, hk, hplaces, hrelabel⟩ := hf.function
    rw [hrelabel]
    generalize f.function = function at hplaces ⊢
    obtain ⟨params, body⟩ := function
    exact hs.execAll hk hplaces
  refine (access_agrees (callEnvironment_agrees hf hvs)).bind fun inner _ hinner => ?_
  subst hinner
  exact (within_agrees hbody inner).bind fun r r' hr => callResult_agrees hf hr

theorem exec_agrees (hk : c.lines k) {s : Stmt} (h : c.Places j s.ids) :
    Agrees c (Completion.Alike c.Code) (exec (n + 1) s)
      (exec (n + 1) (s.relabel (Token.down k) (· + j))) := by
  cases s with
  | expression e => exact (hs.eval hk h).bind fun _ _ _ => .pure .normal
  | print e =>
    exact (hs.eval hk h).bind fun v v' hv => (print_agrees hv).bind fun _ _ _ => .pure .normal
  | var name initializer =>
    cases initializer with
    | none => exact (define_agrees hk name .none).bind fun _ _ _ => .pure .normal
    | some e =>
      refine (hs.eval hk h).bind fun v v' hv => ?_
      exact (define_agrees hk name (.some hv)).bind fun _ _ _ => .pure .normal
  | block body =>
    refine environment_agrees.bind fun e _ he => ?_
    subst he
    refine (access_agrees (Access.child_agrees e)).bind fun inner _ hinner => ?_
    subst hinner
    exact within_agrees (hs.execAll hk h) inner
  | ite condition thenBranch elseBranch =>
    obtain ⟨hcondition, hbranches⟩ := Comparison.Places.append.1 h
    obtain ⟨hthen, helse⟩ := Comparison.Places.append.1 hbranches
    simp only [Stmt.relabel]
    unfold exec
    refine (hs.eval hk hcondition).bind fun v v' hv => ?_
    rw [hv.resembles.isTruthy]
    by_cases htruthy : v.isTruthy = true
    · rw [if_pos htruthy, if_pos htruthy]
      exact hs.exec hk hthen
    · rw [if_neg htruthy, if_neg htruthy]
      cases elseBranch with
      | none => exact .pure .normal
      | some branch => exact hs.exec hk helse
  | loop condition body increment =>
    obtain ⟨hcondition, hrest⟩ := Comparison.Places.append.1 h
    obtain ⟨hbody, hincrement⟩ := Comparison.Places.append.1 hrest
    exact hs.iterate hk hcondition hbody hincrement
  | «break» keyword => exact .pure .break
  | «continue» keyword => exact .pure .continue
  | breakError keyword => exact fail_agrees (lowered hk keyword) _
  | continueError keyword => exact fail_agrees (lowered hk keyword) _
  | function decl =>
    obtain ⟨name, function⟩ := decl
    refine (closure_agrees (some name.lexeme) ⟨k, j, hk, h, rfl⟩).bind fun v v' hv => ?_
    exact (define_agrees hk name (.some hv)).bind fun _ _ _ => .pure .normal
  | «return» keyword value =>
    cases value with
    | none => exact .pure (.return .nil)
    | some e => exact (hs.eval hk h).bind fun v v' hv => .pure (.return hv)
  | «class» name superclass own statics =>
    obtain ⟨hsuperclass, hmethods⟩ := Comparison.Places.append.1 h
    obtain ⟨hown, hstatics⟩ := Comparison.Places.append.1 hmethods
    refine (superclass_agrees hk hsuperclass).bind fun superclass superclass' hsuper => ?_
    refine environment_agrees.bind fun e _ he => ?_
    subst he
    refine (access_agrees (defineClass_agrees e (lowered hk name) hsuper
      (declarations_alike hk hown) (declarations_alike hk hstatics))).bind fun _ _ _ => ?_
    exact .pure .normal

theorem execAll_agrees (hk : c.lines k) {body : List Stmt} (h : c.Places j (Stmt.idsAll body)) :
    Agrees c (Completion.Alike c.Code) (execAll (n + 1) body)
      (execAll (n + 1) (Stmt.relabelAll (Token.down k) (· + j) body)) := by
  cases body with
  | nil => exact .pure .normal
  | cons s rest =>
    obtain ⟨hfirst, hrest⟩ := Comparison.Places.append.1 h
    refine (hs.exec hk hfirst).bind fun r r' hr => ?_
    cases hr with
    | normal => exact hs.execAll hk hrest
    | «return» hv => exact .pure (.return hv)
    | «break» => exact .pure .break
    | «continue» => exact .pure .continue

theorem iterate_agrees (hk : c.lines k) {condition : Expr} {body : Stmt} {increment : Option Expr}
    (hcondition : c.Places j condition.ids) (hbody : c.Places j body.ids)
    (hincrement : c.Places j (Expr.ids? increment)) :
    Agrees c (Completion.Alike c.Code) (iterate (n + 1) condition body increment)
      (iterate (n + 1) (condition.relabel (Token.down k) (· + j))
        (body.relabel (Token.down k) (· + j))
        (Expr.relabel? (Token.down k) (· + j) increment)) := by
  unfold iterate
  refine (hs.eval hk hcondition).bind fun v v' hv => ?_
  rw [hv.resembles.isTruthy]
  by_cases htruthy : v.isTruthy = true
  · rw [if_pos htruthy, if_pos htruthy]
    refine (hs.exec hk hbody).bind fun r r' hr => ?_
    cases hr with
    | «return» hv => exact .pure (.return hv)
    | «break» => exact .pure .normal
    | _ =>
      cases increment with
      | none => exact hs.iterate hk hcondition hbody hincrement
      | some e =>
        refine (hs.eval hk hincrement).bind fun _ _ _ => ?_
        exact hs.iterate hk hcondition hbody hincrement
  · rw [if_neg htruthy, if_neg htruthy]
    exact .pure .normal

end Step

/-- Both runs end alike with any amount of fuel. -/
theorem simulated (c : Comparison) (n : Nat) : Simulated c n := by
  induction n with
  | zero =>
    constructor <;> intros <;> exact outOfFuel_agrees
  | succ n ih =>
    exact ⟨fun hk h => eval_agrees ih hk h, fun hk h => evalAll_agrees ih hk h,
      fun hk hv hvs => call_agrees ih hk hv _ hvs, fun hf hvs => invoke_agrees ih hf hvs,
      fun hk h => exec_agrees ih hk h, fun hk h => execAll_agrees ih hk h,
      fun hk hcondition hbody hincrement => iterate_agrees ih hk hcondition hbody hincrement⟩

end Run

end Lox
