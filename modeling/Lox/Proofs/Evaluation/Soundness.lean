import Lox.Proofs.Evaluation.Operations

/-!
Every point of a run is sound, and so is what it ends with.
-/

namespace Lox

open Run

namespace World

/-- The value of a `return` is sound. -/
def Carries (W : World) (begun : Begun) (h : Heap) (c : Completion) : Prop :=
  ∀ v, c = .return v → W.Gives begun h v

/-- After a statement that ends normally the frame has the name that it declares. -/
def Completes (W : World) (begun : Begun) (s : Stmt) (e : Environment) (h : Heap) (c : Completion) :
    Prop :=
  W.Carries begun h c ∧
    (c = .normal → ∀ name ∈ s.declared?, (h.slot? e.inner name.lexeme).isSome)

end World

/-- Sound evaluations with some fuel end soundly. -/
structure Preserves (W : World) (n : Nat) : Prop where
  eval : ∀ {begun e m}, (Point.expr n e m).Sound W begun →
    Ends W begun m (W.Gives begun) (Run.eval n e m)
  evalAll : ∀ {begun es m}, (Point.exprs n es m).Sound W begun →
    Ends W begun m (fun h vs => ∀ v ∈ vs, W.Gives begun h v) (Run.evalAll n es m)
  call : ∀ {begun callee paren arguments m}, (Point.call n callee paren arguments m).Sound W begun →
    Ends W begun m (W.Gives begun) (Run.call n callee paren arguments m)
  invoke : ∀ {begun closure arguments m}, (Point.invoke n closure arguments m).Sound W begun →
    Ends W begun m (W.Gives begun) (Run.invoke n closure arguments m)
  exec : ∀ {begun s m}, (Point.stmt n s m).Sound W begun →
    Ends W begun m (W.Completes begun s m.environment) (Run.exec n s m)
  execAll : ∀ {begun body m}, (Point.stmts n body m).Sound W begun →
    Ends W begun m (W.Carries begun) (Run.execAll n body m)
  iterate : ∀ {begun condition body increment m},
    (Point.loop n condition body increment m).Sound W begun →
    Ends W begun m (W.Carries begun) (Run.iterate n condition body increment m)

/-- A bound on the fuel of what a point evaluates. -/
def Point.fuel : Point → Nat
  | expr n _ _ | exprs n _ _ | call n _ _ _ _ | invoke n _ _ _ | stmt n _ _ | stmts n _ _
  | loop n _ _ _ _ => n
  | bind _ _ _ => 0
  | each fuel _ _ => fuel + 1

section

variable {α : Type} {W : World} {begun : Begun} {m m' : Machine} {P Q : Point}

theorem Ends.of_ok {R : Heap → α → Prop} {r : EStateM.Result Halt Machine α} {a : α}
    (h : Ends W begun m R r) (hr : r = .ok a m') :
    m.Keeps m' ∧ m'.Sound W begun ∧ R m'.heap a := by
  subst hr
  exact h

/-- The value of an earlier evaluation is sound on a later machine. -/
theorem World.Gives.later {h h' : Heap} {v : Value} (hv : W.Gives begun h v) (hg : h.Grows h') :
    W.Gives begun h' v := Value.Sound.mono hv hg.le_same

theorem Machine.Sound.within (hm : m.Sound W begun) (P : Point) : m.Sound W (P.within begun) := by
  refine ⟨hm.heap.mono ((Heap.Grows.refl _).le fun frame x hx => .inl ?_) rfl, hm.hops⟩
  unfold Point.within
  split
  · exact .inl hx
  · exact hx

theorem newObject_ends (hm : m.Sound W begun) :
    Ends W begun m (fun _ _ => True) (access (.newObject ∅) m) := by
  apply Ends.access hm.hops
  apply Access.newObject_ends hm.heap
  intro x v hv
  rw [Std.TreeMap.getElem?_emptyc] at hv
  exact nomatch hv

/-- A class that is called makes an instance, whose initializer is bound to it. -/
theorem Point.Sound.newInstance {n : Nat} {cls : Class} {paren : Token} {arguments : List Value}
    {id : ObjectId} (h : (Point.call (n + 1) (.class cls) paren arguments m).Sound W begun)
    (ha : checkArity paren cls.arity arguments.length m = .ok () m)
    (ho : access (.newObject ∅) m = .ok id m') {method : Closure}
    (hmethod : cls.initializer? = some method) : (Point.bind method ⟨id, cls⟩ m').Sound W begun := by
  obtain ⟨hcls, _⟩ := h.ready
  obtain ⟨keeps, hm', _⟩ := (newObject_ends h.machine).of_ok ho
  have hcls' : cls.Sound (W.view begun m'.heap) := Class.Sound.mono hcls keeps.heap.le_same
  exact ⟨W.calls h.visited (.bindInitializer ha ho hmethod), hm', hcls'.method hmethod, hcls'⟩

/-- Binding a method gives a sound closure that takes as many arguments. -/
theorem Point.Sound.bound {method closure : Closure} {receiver : Instance}
    (h : (Point.bind method receiver m).Sound W begun)
    (hb : access (.bindMethod method receiver) m = .ok closure m') :
    m.Keeps m' ∧ m'.Sound W begun ∧ closure.Sound (W.view begun m'.heap) ∧
      closure.function = method.function := by
  obtain ⟨hmethod, hreceiver⟩ := h.ready
  have hbind : Ends W begun m _ (access (.bindMethod method receiver) m) :=
    .access h.machine.hops (Access.bindMethod_ends h.machine.heap h.visited hmethod hreceiver)
  obtain ⟨keeps, hm', hclosure⟩ := hbind.of_ok hb
  exact ⟨keeps, hm', hclosure, (bindMethod_closure (access_ok hb).1).2⟩

section

variable {n : Nat}

/-! What was evaluated before the rest of a point has kept the machine sound. -/

theorem Point.Sound.afterCallee (ih : Preserves W n) {callee : Expr} {paren : Token}
    {arguments : List Expr} {f : Value}
    (h : (Point.expr (n + 1) (.call callee paren arguments) m).Sound W begun)
    (hf : Run.eval n callee m = .ok f m') :
    m.Keeps m' ∧ m'.Sound W begun ∧ W.Gives begun m'.heap f ∧
      (Point.exprs n arguments m').Sound W begun := by
  obtain ⟨Γ, hm, hp, hk⟩ := h.ready
  obtain ⟨hkc, hka⟩ := List.forall_mem_append.1 hk
  have hcallee : (Point.expr n callee m).Sound W begun :=
    ⟨W.calls h.visited .callee, h.machine, Γ, hm, hp.1, hkc⟩
  obtain ⟨keeps, hm', hfv⟩ := (ih.eval hcallee).of_ok hf
  have harguments : (Point.exprs n arguments m').Sound W begun :=
    ⟨W.calls h.visited (.arguments hf), hm', Γ, keeps.mirrors hm, hp.2, hka⟩
  exact ⟨keeps, hm', hfv, harguments⟩

theorem Point.Sound.afterCondition (ih : Preserves W n) {condition thenBranch elseBranch : Expr}
    {v : Value}
    (h : (Point.expr (n + 1) (.conditional condition thenBranch elseBranch) m).Sound W begun)
    (hv : Run.eval n condition m = .ok v m') : m.Keeps m' ∧ m'.Sound W begun := by
  obtain ⟨Γ, hm, hp, hk⟩ := h.ready
  have hcondition : (Point.expr n condition m).Sound W begun :=
    ⟨W.calls h.visited .condition, h.machine, Γ, hm, hp.1, (List.forall_mem_append.1 hk).1⟩
  obtain ⟨keeps, hm', _⟩ := (ih.eval hcondition).of_ok hv
  exact ⟨keeps, hm'⟩

theorem Point.Sound.afterIte (ih : Preserves W n) {condition : Expr} {thenBranch : Stmt}
    {elseBranch : Option Stmt} {v : Value}
    (h : (Point.stmt (n + 1) (.ite condition thenBranch elseBranch) m).Sound W begun)
    (hv : Run.eval n condition m = .ok v m') : m.Keeps m' ∧ m'.Sound W begun := by
  obtain ⟨Γ, hm, hp, hk⟩ := h.ready
  have hcondition : (Point.expr n condition m).Sound W begun :=
    ⟨W.calls h.visited .iteCondition, h.machine, Γ, hm, hp.1, (List.forall_mem_append.1 hk).1⟩
  obtain ⟨keeps, hm', _⟩ := (ih.eval hcondition).of_ok hv
  exact ⟨keeps, hm'⟩

section

variable {condition : Expr} {body : Stmt} {increment : Option Expr} {v : Value}

theorem Point.Sound.turnBody (ih : Preserves W n)
    (h : (Point.loop (n + 1) condition body increment m).Sound W begun)
    (hv : Run.eval n condition m = .ok v m') (ht : v.isTruthy = true) :
    m.Keeps m' ∧ (Point.stmt n body m').Sound W begun := by
  obtain ⟨Γ, hm, hp, hk⟩ := h.ready
  obtain ⟨hkc, hkb⟩ := List.forall_mem_append.1 hk
  have hcondition : (Point.expr n condition m).Sound W begun :=
    ⟨W.calls h.visited .turnCondition, h.machine, Γ, hm, hp.1, hkc⟩
  obtain ⟨keeps, hm', _⟩ := (ih.eval hcondition).of_ok hv
  have hbody : (Point.stmt n body m').Sound W begun :=
    ⟨W.calls h.visited (.turnBody hv ht), hm', Γ, keeps.mirrors hm, hp.2.1.2,
      (List.forall_mem_append.1 hkb).1⟩
  exact ⟨keeps, hbody⟩

/-- After a turn the loop is in its scopes as before it. -/
theorem Point.Sound.afterTurn (ih : Preserves W n) {m'' : Machine} {c : Completion}
    (h : (Point.loop (n + 1) condition body increment m).Sound W begun)
    (hv : Run.eval n condition m = .ok v m') (ht : v.isTruthy = true)
    (hb : Run.exec n body m' = .ok c m'') : m.Keeps m'' ∧ m''.Sound W begun := by
  obtain ⟨keeps, hbody⟩ := h.turnBody ih hv ht
  obtain ⟨keeps', hm'', _⟩ := (ih.exec hbody).of_ok hb
  exact ⟨keeps.trans keeps', hm''⟩

theorem Point.Sound.turnIncrement (ih : Preserves W n) {e : Expr} {m'' : Machine} {c : Completion}
    (h : (Point.loop (n + 1) condition body (some e) m).Sound W begun)
    (hv : Run.eval n condition m = .ok v m') (ht : v.isTruthy = true)
    (hb : Run.exec n body m' = .ok c m'') (hgo : c = .normal ∨ c = .continue) :
    m.Keeps m'' ∧ (Point.expr n e m'').Sound W begun := by
  obtain ⟨keeps, hm''⟩ := h.afterTurn ih hv ht hb
  obtain ⟨Γ, hm, hp, hk⟩ := h.ready
  obtain ⟨_, hkt⟩ := List.forall_mem_append.1 hk
  obtain ⟨_, hki⟩ := List.forall_mem_append.1 hkt
  exact ⟨keeps, W.calls h.visited (.increment hv ht hb hgo), hm'', Γ, keeps.mirrors hm, hp.2.2, hki⟩

end

end

/-- A sound point calls sound points only. -/
theorem Point.Sound.step (ih : ∀ n, n + 1 = P.fuel → Preserves W n) (h : P.Sound W begun)
    (hc : Calls P Q) : Q.Sound W (P.within begun) := by
  have hcall {Q : Point} (hc : Calls P Q) (hm : Q.start.Sound W begun)
      (hr : Q.Ready (W.view begun Q.start.heap)) : Q.Sound W begun := ⟨W.calls h.visited hc, hm, hr⟩
  have hcalled := hc
  cases hc with
  | grouping | operand | object | expression | print | returned | loop =>
    obtain ⟨Γ, hm, hp, hk⟩ := h.ready
    exact hcall hcalled h.machine ⟨Γ, hm, hp, hk⟩
  | left | condition | callee | firstExpr | turnCondition | iteCondition | firstStmt =>
    obtain ⟨Γ, hm, hp, hk⟩ := h.ready
    exact hcall hcalled h.machine ⟨Γ, hm, hp.1, (List.forall_mem_append.1 hk).1⟩
  | assigned =>
    obtain ⟨Γ, hm, hp, hk⟩ := h.ready
    exact hcall hcalled h.machine ⟨Γ, hm, hp.2, (List.forall_mem_append.1 hk).1⟩
  | setObject =>
    obtain ⟨Γ, hm, hp, hk⟩ := h.ready
    exact hcall hcalled h.machine ⟨Γ, hm, hp.1, (List.forall_mem_append.1 hk).2⟩
  | @right n left operator right m a m' hl _ =>
    obtain ⟨Γ, hm, hp, hk⟩ := h.ready
    obtain ⟨hkl, hkr⟩ := List.forall_mem_append.1 hk
    have hleft := hcall .left h.machine ⟨Γ, hm, hp.1, hkl⟩
    obtain ⟨keeps, hm', _⟩ := ((ih n rfl).eval hleft).of_ok hl
    exact hcall hcalled hm' ⟨Γ, keeps.mirrors hm, hp.2, hkr⟩
  | @thenValue n condition thenBranch elseBranch m v m' hv ht =>
    obtain ⟨keeps, hm'⟩ := h.afterCondition (ih n rfl) hv
    obtain ⟨Γ, hm, hp, hk⟩ := h.ready
    obtain ⟨_, hkb⟩ := List.forall_mem_append.1 hk
    exact hcall hcalled hm' ⟨Γ, keeps.mirrors hm, hp.2.1, (List.forall_mem_append.1 hkb).1⟩
  | @elseValue n condition thenBranch elseBranch m v m' hv hf =>
    obtain ⟨keeps, hm'⟩ := h.afterCondition (ih n rfl) hv
    obtain ⟨Γ, hm, hp, hk⟩ := h.ready
    obtain ⟨_, hkb⟩ := List.forall_mem_append.1 hk
    exact hcall hcalled hm' ⟨Γ, keeps.mirrors hm, hp.2.2, (List.forall_mem_append.1 hkb).2⟩
  | @arguments n callee paren arguments m f m' hf =>
    exact (h.afterCallee (ih n rfl) hf).2.2.2
  | @call n callee paren arguments m f m' vs m'' hf ha =>
    obtain ⟨_, _, hfv, harguments⟩ := h.afterCallee (ih n rfl) hf
    obtain ⟨keeps', hm'', hvs⟩ := ((ih n rfl).evalAll harguments).of_ok ha
    exact hcall hcalled hm'' ⟨World.Gives.later hfv keeps'.heap, hvs⟩
  | @bindProperty n object name m receiver m' method ho hproperty hmethod =>
    have hobject := hcall .object h.machine h.ready
    obtain ⟨_, hm', hreceiver⟩ := ((ih n rfl).eval hobject).of_ok ho
    exact hcall hcalled hm' ⟨Class.Sound.method hreceiver hmethod, hreceiver⟩
  | @setValue n object name value m o m' table m'' ho ht =>
    obtain ⟨Γ, hm, hp, hk⟩ := h.ready
    obtain ⟨hkv, hko⟩ := List.forall_mem_append.1 hk
    have hobject := hcall .setObject h.machine ⟨Γ, hm, hp.1, hko⟩
    obtain ⟨keeps, hm', _⟩ := ((ih n rfl).eval hobject).of_ok ho
    obtain ⟨keeps', hm'', _⟩ := (propertyTable_ends hm' o name).of_ok ht
    exact hcall hcalled hm'' ⟨Γ, (keeps.trans keeps').mirrors hm, hp.2, hkv⟩
  | @bindSuper n ref method m distance cls receiver found hd hs ht hmethod =>
    have hsuper : Ends W begun m _ (access (.getAt m.environment distance ref.name) m) :=
      .access h.machine.hops (Access.getAt_ends h.machine.heap _ _ _)
    have hthis : Ends W begun m _
        (access (.getAt m.environment (distance - 1) (.synthetic .this "this" ref.name.line)) m) :=
      .access h.machine.hops (Access.getAt_ends h.machine.heap _ _ _)
    obtain ⟨_, _, hcls⟩ := hsuper.of_ok hs
    obtain ⟨_, _, hreceiver⟩ := hthis.of_ok ht
    exact hcall hcalled h.machine ⟨Class.Sound.method hcls hmethod, hreceiver⟩
  | @restExprs n e rest m v m' he =>
    obtain ⟨Γ, hm, hp, hk⟩ := h.ready
    obtain ⟨hke, hkr⟩ := List.forall_mem_append.1 hk
    have hfirst := hcall .firstExpr h.machine ⟨Γ, hm, hp.1, hke⟩
    obtain ⟨keeps, hm', _⟩ := ((ih n rfl).eval hfirst).of_ok he
    exact hcall hcalled hm' ⟨Γ, keeps.mirrors hm, hp.2, hkr⟩
  | function ha =>
    obtain ⟨hclosure, harguments⟩ := h.ready
    exact hcall hcalled h.machine ⟨hclosure, harguments, (checkArity_ok ha).1⟩
  | bindInitializer ha ho hmethod => exact h.newInstance ha ho hmethod
  | @initializer n cls paren arguments m id m' method closure m'' ha ho hmethod hb =>
    have hbind := h.newInstance ha ho hmethod
    obtain ⟨keeps, hm'', hclosure, hfunction⟩ := hbind.bound hb
    obtain ⟨_, harguments⟩ := h.ready
    have harity : arguments.length = closure.function.arity := by
      rw [(checkArity_ok ha).1, hfunction, Class.arity, hmethod]
      rfl
    have hnew := ((newObject_ends h.machine).of_ok ho).1
    exact hcall hcalled hm'' ⟨hclosure,
      fun v hv => World.Gives.later (harguments v hv) (hnew.trans keeps).heap, harity⟩
  | @body n closure arguments m inner m' hi =>
    obtain ⟨hclosure, harguments, harity⟩ := h.ready
    have hends : Ends W begun m _ (access (callEnvironment closure arguments) m) :=
      .access h.machine.hops
        (Access.callEnvironment_ends h.visited h.machine.heap hclosure harguments harity)
    obtain ⟨_, hm', henters⟩ := hends.of_ok hi
    exact hcall hcalled ⟨hm'.heap, hm'.hops⟩ henters
  | @var n name e m =>
    obtain ⟨Γ, hm, hp, hk⟩ := h.ready
    have hm' := h.machine.within (.stmt (n + 1) (.var name (some e)) m)
    have hle : (W.view begun m.heap).Le
        (W.view (Point.within begun (.stmt (n + 1) (.var name (some e)) m)) m.heap) :=
      (Heap.Grows.refl _).le fun _ _ hx => .inl (.inl hx)
    have hbinds : (W.view (Point.within begun (.stmt (n + 1) (.var name (some e)) m)) m.heap).Binds
        m.environment.inner name.lexeme := .inr (.inr ⟨rfl, rfl⟩)
    exact ⟨W.calls h.visited hcalled, hm', _, (hm.mono hle).declare hbinds, hp.2, hk⟩
  | @block n body m inner m' hi =>
    obtain ⟨Γ, hm, hp, hk⟩ := h.ready
    have hchild : Ends W begun m _ (access (.child m.environment) m) :=
      .access h.machine.hops (Access.child_ends h.machine.heap m.environment)
    obtain ⟨keeps, hm', hinner⟩ := hchild.of_ok hi
    obtain ⟨rfl, hin⟩ := hinner
    exact hcall hcalled ⟨hm'.heap, hm'.hops⟩
      ⟨_, .block h.visited hin (List.forall_mem_nil _) (hm.mono keeps.heap.le_same), hp, hk⟩
  | @thenBranch n condition thenBranch elseBranch m v m' hv ht =>
    obtain ⟨keeps, hm'⟩ := h.afterIte (ih n rfl) hv
    obtain ⟨Γ, hm, hp, hk⟩ := h.ready
    obtain ⟨_, hkb⟩ := List.forall_mem_append.1 hk
    exact hcall hcalled hm' ⟨Γ, keeps.mirrors hm, hp.2.1.2, (List.forall_mem_append.1 hkb).1⟩
  | @elseBranch n condition thenBranch elseBranch m v m' hv hf =>
    obtain ⟨keeps, hm'⟩ := h.afterIte (ih n rfl) hv
    obtain ⟨Γ, hm, hp, hk⟩ := h.ready
    obtain ⟨_, hkb⟩ := List.forall_mem_append.1 hk
    exact hcall hcalled hm' ⟨Γ, keeps.mirrors hm, hp.2.2.2, (List.forall_mem_append.1 hkb).2⟩
  | @restStmts n s rest m m' hs =>
    obtain ⟨Γ, hm, hp, hk⟩ := h.ready
    obtain ⟨hks, hkr⟩ := List.forall_mem_append.1 hk
    have hfirst := hcall .firstStmt h.machine ⟨Γ, hm, hp.1, hks⟩
    obtain ⟨keeps, hm', _, hdeclares⟩ := ((ih n rfl).exec hfirst).of_ok hs
    have hafter : Mirrors (W.view begun m'.heap) m'.environment (Γ.after s) := by
      have hmirrors := keeps.mirrors hm
      cases hd : s.declared? with
      | none =>
        rw [Layers.after_undeclared hd]
        exact hmirrors
      | some name =>
        rw [Layers.after_declared hd]
        apply hmirrors.declare
        rw [keeps.environment]
        exact .inl (hdeclares rfl name hd)
    exact hcall hcalled hm' ⟨_, hafter, hp.2, hkr⟩
  | @turnBody n condition body increment m v m' hv ht => exact (h.turnBody (ih n rfl) hv ht).2
  | @increment n condition body e m v m' c m'' hv ht hb hgo =>
    exact (h.turnIncrement (ih n rfl) hv ht hb hgo).2
  | @nextTurn n condition body m v m' c m'' hv ht hb hgo =>
    obtain ⟨keeps, hm''⟩ := h.afterTurn (ih n rfl) hv ht hb
    obtain ⟨Γ, hm, hp, hk⟩ := h.ready
    exact hcall hcalled hm'' ⟨Γ, keeps.mirrors hm, hp, hk⟩
  | @nextTurnAfter n condition body e m v m' c m'' v' m₃ hv ht hb hgo hi =>
    obtain ⟨keeps, hincrement⟩ := h.turnIncrement (ih n rfl) hv ht hb hgo
    obtain ⟨keeps', hm₃, _⟩ := ((ih n rfl).eval hincrement).of_ok hi
    obtain ⟨Γ, hm, hp, hk⟩ := h.ready
    exact hcall hcalled hm₃ ⟨Γ, (keeps.trans keeps').mirrors hm, hp, hk⟩
  | @firstInput fuel s rest m =>
    obtain ⟨henv, hp, hk⟩ := h.ready
    have hm : Mirrors (W.view begun m.heap) m.environment [] := by
      rw [henv]
      exact .global
    exact hcall hcalled h.machine ⟨[], hm, hp.1, (List.forall_mem_append.1 hk).1⟩
  | @restInput fuel s rest m c m' hs =>
    obtain ⟨henv, hp, hk⟩ := h.ready
    have hm : Mirrors (W.view begun m.heap) m.environment [] := by
      rw [henv]
      exact .global
    obtain ⟨hks, hkr⟩ := List.forall_mem_append.1 hk
    have hfirst := hcall .firstInput h.machine ⟨[], hm, hp.1, hks⟩
    obtain ⟨keeps, hm', _⟩ := ((ih fuel rfl).exec hfirst).of_ok hs
    rw [Layers.after_top] at hkr
    exact hcall hcalled hm' ⟨keeps.environment.trans henv, hp.2, hkr⟩

theorem print_ends (hm : m.Sound W begun) (v : Value) :
    Ends W begun m (fun _ _ => True) (print v m) :=
  ⟨⟨.refl _, rfl⟩, ⟨hm.heap, hm.hops⟩, trivial⟩

theorem World.Carries.completes {h : Heap} {c : Completion} {s : Stmt} {e : Environment}
    (hc : W.Carries begun h c) (hs : s.declared? = none) : W.Completes begun s e h c := by
  refine ⟨hc, fun _ name hname => ?_⟩
  rw [hs] at hname
  exact nomatch hname

theorem literal_sound (w : View) (l : Literal) : l.value.Sound w := by
  cases l <;> exact trivial

/-- A declaration gives a name its value. While the value is made the name is only begun. -/
theorem Ends.declare {begun' : Begun} {p : Run Value} {name : Token} {s : Stmt}
    (hlt : m.environment.inner < m.heap.frames.size) (hname : name.IsName)
    (hs : s.declared? = some name)
    (hbegun : ∀ frame x, begun' frame x →
      begun frame x ∨ (m.environment.inner = frame ∧ name.lexeme = x))
    (hp : Ends W begun' m (W.Gives begun') (p m))
    (hfail : ∀ halt m', p m = .error halt m' →
      Aborted W.visited m.environment.inner name.lexeme) :
    Ends W begun m (W.Completes begun s m.environment)
      ((p >>= fun v => define name (some v) >>= fun _ => pure .normal) m) := by
  show Ends W begun m _ (EStateM.bind p _ m)
  unfold EStateM.bind
  cases hr : p m with
  | error halt m' =>
    rw [hr] at hp
    obtain ⟨keeps, hm'⟩ := hp
    refine ⟨keeps, hm'.heap.mono ((Heap.Grows.refl _).le ?_) rfl, hm'.hops⟩
    intro frame x hx
    rcases hx with hx | hx
    · rcases hbegun frame x hx with hx | ⟨rfl, rfl⟩
      · exact .inl (.inl hx)
      · exact .inl (.inr (hfail halt m' hr))
    · exact .inl (.inr hx)
  | ok v m' =>
    rw [hr] at hp
    obtain ⟨keeps, hm', hv⟩ := hp
    rw [← keeps.environment] at hlt hbegun
    have hdefine : Ends W begun m' _ (define name (some v) m') :=
      .access hm'.hops (Access.define_ends hm'.heap (Nat.lt_of_lt_of_le hlt keeps.heap.size) hname
        (fun v' hv' => Option.some.inj hv' ▸ hv) hbegun)
    have hdone : Ends W begun m' (W.Completes begun s m'.environment)
        ((define name (some v) >>= fun _ => pure Completion.normal) m') := by
      refine hdefine.bind fun _ m'' _ _ hm'' hthere => .ok hm'' ⟨nofun, fun _ name' hname' => ?_⟩
      obtain rfl := Option.some.inj (hs.symm.trans hname')
      exact hthere
    rw [keeps.environment] at hdone
    show Ends W begun m _ ((define name (some v) >>= fun _ => pure Completion.normal) m')
    cases hr' : (define name (some v) >>= fun _ => pure Completion.normal) m' with
    | error halt m'' =>
      rw [hr'] at hdone
      exact ⟨keeps.trans hdone.1, hdone.2⟩
    | ok c m'' =>
      rw [hr'] at hdone
      exact ⟨keeps.trans hdone.1, hdone.2⟩

section

variable {n : Nat}

theorem preserves_eval (ih : Preserves W n) {e : Expr}
    (h : (Point.expr (n + 1) e m).Sound W begun) :
    Ends W begun m (W.Gives begun) (eval (n + 1) e m) := by
  have step {Q : Point} (hc : Calls (.expr (n + 1) e m) Q) : Q.Sound W begun :=
    h.step (fun k hk => by cases hk; exact ih) hc
  obtain ⟨Γ, hmirrors, hp, hk⟩ := h.ready
  cases e with
  | literal value => exact .ok h.machine (literal_sound _ value)
  | grouping inner => exact ih.eval (step .grouping)
  | unary operator right =>
    exact (ih.eval (step .operand)).bind fun v m' _ _ hm' _ =>
      (unary_computes_self operator v).ends hm'
  | binary left operator right =>
    apply (ih.eval (step .left)).bind
    intro a m' ha _ hm' hav
    cases hafter : afterLeft operator.kind a with
    | keepLeft => exact .ok hm' hav
    | takeRight => exact ih.eval (step (.right ha (by rw [hafter]; nofun)))
    | combine =>
      have hright := ih.eval (step (.right ha (by rw [hafter]; nofun)))
      exact hright.bind fun b m'' _ _ hm'' _ =>
        (binary_computes_self operator a b).ends hm''
  | binaryError operator right => exact .error h.machine
  | conditional condition thenBranch elseBranch =>
    apply (ih.eval (step .condition)).bind
    intro v m' hv _ hm' _
    by_cases htruthy : v.isTruthy = true
    · rw [if_pos htruthy]
      exact ih.eval (step (.thenValue hv htruthy))
    · rw [if_neg htruthy]
      exact ih.eval (step (.elseValue hv (Bool.eq_false_iff.2 htruthy)))
  | «variable» ref => exact lookUp_ends h.machine ref
  | assign target value =>
    apply (ih.eval (step .assigned)).bind
    intro v m' _ _ hm' hv
    refine (assign_ends hm' hp.1 hv).bind fun _ m'' _ keeps hm'' _ => .ok hm'' ?_
    exact World.Gives.later hv keeps.heap
  | call callee paren arguments =>
    apply (ih.eval (step .callee)).bind
    intro f m' hf _ _ _
    apply (ih.evalAll (step (.arguments hf))).bind
    intro vs m'' ha _ _ _
    exact ih.call (step (.call hf ha))
  | get object name =>
    apply (ih.eval (step .object)).bind
    intro o m' ho _ hm' hov
    apply property_ends hm' hov
    intro receiver method hreceiver hproperty hmethod
    subst hreceiver
    exact W.calls h.visited (.bindProperty ho hproperty hmethod)
  | set object name value =>
    apply (ih.eval (step .setObject)).bind
    intro o m' ho _ hm' _
    apply (propertyTable_ends hm' o name).bind
    intro table m'' ht _ _ _
    apply (ih.eval (step (.setValue ho ht))).bind
    intro v m₃ _ _ hm₃ hv
    have hset : Ends W begun m₃ _ (access (.setProperty table name.lexeme v) m₃) :=
      .access hm₃.hops (Access.setProperty_ends hm₃.heap table name.lexeme hv)
    exact hset.bind fun _ m₄ _ keeps hm₄ _ => .ok hm₄ (World.Gives.later hv keeps.heap)
  | this ref => exact lookUp_ends h.machine ref
  | super ref method =>
    exact superMethod_ends h.machine fun distance cls receiver found hd hs ht hmethod =>
      W.calls h.visited (.bindSuper hd hs ht hmethod)
  | lambda function => exact closure_ends h.machine hmirrors none hp hk

theorem preserves_evalAll (ih : Preserves W n) {es : List Expr}
    (h : (Point.exprs (n + 1) es m).Sound W begun) :
    Ends W begun m (fun h vs => ∀ v ∈ vs, W.Gives begun h v) (evalAll (n + 1) es m) := by
  have step {Q : Point} (hc : Calls (.exprs (n + 1) es m) Q) : Q.Sound W begun :=
    h.step (fun k hk => by cases hk; exact ih) hc
  cases es with
  | nil => exact .ok h.machine (List.forall_mem_nil _)
  | cons e rest =>
    apply (ih.eval (step .firstExpr)).bind
    intro v m' hv _ _ hvs
    refine (ih.evalAll (step (.restExprs hv))).bind fun vs m'' _ keeps hm'' hrest => .ok hm'' ?_
    exact List.forall_mem_cons.2 ⟨World.Gives.later hvs keeps.heap, hrest⟩

theorem preserves_call (ih : Preserves W n) {callee : Value} {paren : Token}
    {arguments : List Value} (h : (Point.call (n + 1) callee paren arguments m).Sound W begun) :
    Ends W begun m (W.Gives begun) (Run.call (n + 1) callee paren arguments m) := by
  have step {Q : Point} (hc : Calls (.call (n + 1) callee paren arguments m) Q) : Q.Sound W begun :=
    h.step (fun k hk => by cases hk; exact ih) hc
  cases callee with
  | native function =>
    apply (checkArity_ends h.machine paren _ _).bind
    intro _ m' _ _ hm' _
    cases function with
    | clock => exact .ok hm' trivial
  | function closure =>
    apply (checkArity_ends h.machine paren _ _).bind
    intro _ m' ha _ _ _
    obtain ⟨_, rfl⟩ := checkArity_ok ha
    exact ih.invoke (step (.function ha))
  | «class» cls =>
    apply (checkArity_ends h.machine paren _ _).bind
    intro _ m' ha _ hm' _
    obtain ⟨_, rfl⟩ := checkArity_ok ha
    have hnew : Ends W begun m' _ (access (.newObject ∅) m') := newObject_ends h.machine
    apply hnew.bind
    intro id m'' ho keeps hm'' _
    have hcls : cls.Sound (W.view begun m''.heap) := Class.Sound.mono h.ready.1 keeps.heap.le_same
    cases hinit : cls.initializer? with
    | none => exact .ok hm'' hcls
    | some method =>
      have hbind := step (.bindInitializer ha ho hinit)
      have hbound : Ends W begun m'' _ (access (.bindMethod method ⟨id, cls⟩) m'') :=
        .access hm''.hops (Access.bindMethod_ends hm''.heap hbind.visited hbind.ready.1 hcls)
      apply hbound.bind
      intro closure m₃ hb keeps' _ _
      apply (ih.invoke (step (.initializer ha ho hinit hb))).bind
      intro _ m₄ _ keeps'' hm₄ _
      exact .ok hm₄ (Class.Sound.mono hcls (keeps'.trans keeps'').heap.le_same)
  | _ => exact .error h.machine

theorem preserves_invoke (ih : Preserves W n) {closure : Closure} {arguments : List Value}
    (h : (Point.invoke (n + 1) closure arguments m).Sound W begun) :
    Ends W begun m (W.Gives begun) (Run.invoke (n + 1) closure arguments m) := by
  have step {Q : Point} (hc : Calls (.invoke (n + 1) closure arguments m) Q) : Q.Sound W begun :=
    h.step (fun k hk => by cases hk; exact ih) hc
  obtain ⟨hclosure, harguments, harity⟩ := h.ready
  have henter : Ends W begun m _ (access (callEnvironment closure arguments) m) :=
    .access h.machine.hops
      (Access.callEnvironment_ends h.visited h.machine.heap hclosure harguments harity)
  apply henter.bind
  intro inner m' hi _ _ _
  apply (Ends.within (ih.execAll (step (.body hi)))).bind
  intro c m'' _ _ hm'' hc
  exact callResult_ends hm'' closure hc

theorem preserves_exec (ih : Preserves W n) {s : Stmt}
    (h : (Point.stmt (n + 1) s m).Sound W begun) :
    Ends W begun m (W.Completes begun s m.environment) (exec (n + 1) s m) := by
  have step {Q : Point} (hc : Calls (.stmt (n + 1) s m) Q) :
      Q.Sound W (Point.within begun (.stmt (n + 1) s m)) :=
    h.step (fun k hk => by cases hk; exact ih) hc
  obtain ⟨Γ, hmirrors, hp, hk⟩ := h.ready
  have hlt := hmirrors.inner_lt h.machine.heap
  cases s with
  | expression e =>
    exact (ih.eval (step .expression)).bind fun _ m' _ _ hm' _ =>
      .ok hm' (World.Carries.completes nofun rfl)
  | print e =>
    apply (ih.eval (step .print)).bind
    intro v m' _ _ hm' _
    exact (print_ends hm' v).bind fun _ m'' _ _ hm'' _ =>
      .ok hm'' (World.Carries.completes nofun rfl)
  | var name initializer =>
    cases initializer with
    | none =>
      have hdefine : Ends W begun m _ (define name none m) :=
        define_ends h.machine hmirrors hp.1 nofun
      apply hdefine.bind
      intro _ m' _ _ hm' hthere
      refine .ok hm' ⟨nofun, fun _ name' hname' => ?_⟩
      obtain rfl := Option.some.inj hname'
      exact hthere
    | some e =>
      refine Ends.declare hlt hp.1 rfl (fun _ _ hx => hx) (ih.eval (step .var)) ?_
      intro halt m' hr
      exact ⟨n, name, e, m, halt, m', h.visited, rfl, rfl, hr⟩
  | block body =>
    have hchild : Ends W begun m _ (access (.child m.environment) m) :=
      .access h.machine.hops (Access.child_ends h.machine.heap m.environment)
    show Ends W begun m _
      ((access (.child m.environment) >>= fun inner => Run.within inner (execAll n body)) m)
    apply hchild.bind
    intro inner m' hi _ _ _
    apply (Ends.within (ih.execAll (step (.block hi)))).weaken
    intro _ _ _ hc
    exact World.Carries.completes hc rfl
  | ite condition thenBranch elseBranch =>
    apply (ih.eval (step .iteCondition)).bind
    intro v m' hv _ hm' _
    by_cases htruthy : v.isTruthy = true
    · rw [if_pos htruthy]
      exact (ih.exec (step (.thenBranch hv htruthy))).weaken fun _ _ _ hc =>
        World.Carries.completes hc.1 rfl
    · rw [if_neg htruthy]
      cases elseBranch with
      | none => exact .ok hm' (World.Carries.completes nofun rfl)
      | some branch =>
        exact (ih.exec (step (.elseBranch hv (Bool.eq_false_iff.2 htruthy)))).weaken fun _ _ _ hc =>
          World.Carries.completes hc.1 rfl
  | loop condition body increment =>
    exact (ih.iterate (step .loop)).weaken fun _ _ _ hc => World.Carries.completes hc rfl
  | «break» keyword => exact .ok h.machine (World.Carries.completes nofun rfl)
  | «continue» keyword => exact .ok h.machine (World.Carries.completes nofun rfl)
  | breakError keyword => exact .error h.machine
  | continueError keyword => exact .error h.machine
  | function decl =>
    cases decl with
    | mk name function =>
      let begun' : Begun := fun frame x =>
        begun frame x ∨ (m.environment.inner = frame ∧ name.lexeme = x)
      have hle : (W.view begun m.heap).Le (W.view begun' m.heap) :=
        (Heap.Grows.refl _).le fun _ _ hx => .inl (.inl hx)
      have hinner : Mirrors (W.view begun' m.heap) m.environment (Γ.declare name.lexeme) :=
        (hmirrors.mono hle).declare (.inr (.inr ⟨rfl, rfl⟩))
      have hclosure := closure_ends ⟨h.machine.heap.mono hle rfl, h.machine.hops⟩ hinner
        (some name.lexeme) hp.2 hk
      exact Ends.declare hlt hp.1 rfl (fun _ _ hx => hx) hclosure fun _ _ hr => nomatch hr
  | «return» keyword value =>
    cases value with
    | none =>
      refine .ok h.machine (World.Carries.completes (fun v hv => ?_) rfl)
      cases hv
      exact trivial
    | some e =>
      apply (ih.eval (step .returned)).bind
      intro v m' _ _ hm' hv
      refine .ok hm' (World.Carries.completes (fun v' hv' => ?_) rfl)
      cases hv'
      exact hv
  | «class» name superclass? own statics =>
    apply (superclass_ends h.machine superclass?).bind
    intro superclass m' hs _ hm' hsound
    obtain ⟨rfl, hroot, hinherits⟩ := superclass_ok hs
    have hd : Access.Defines W begun m' name superclass? own statics superclass Γ :=
      ⟨⟨n, h.visited⟩, hmirrors, hp, hk, hinherits, hroot, hsound⟩
    have hdefine : Ends W begun m' _
        (access (defineClass name superclass own statics m'.environment) m') :=
      .access hm'.hops (Access.defineClass_ends hd hm'.heap)
    refine hdefine.bind fun _ m'' _ _ hm'' hthere => .ok hm'' ⟨nofun, fun _ name' hname' => ?_⟩
    obtain rfl := Option.some.inj hname'
    exact hthere

theorem preserves_execAll (ih : Preserves W n) {body : List Stmt}
    (h : (Point.stmts (n + 1) body m).Sound W begun) :
    Ends W begun m (W.Carries begun) (execAll (n + 1) body m) := by
  have step {Q : Point} (hc : Calls (.stmts (n + 1) body m) Q) : Q.Sound W begun :=
    h.step (fun k hk => by cases hk; exact ih) hc
  cases body with
  | nil => exact .ok h.machine nofun
  | cons s rest =>
    apply (ih.exec (step .firstStmt)).bind
    intro c m' hs _ hm' hc
    cases c with
    | normal => exact ih.execAll (step (.restStmts hs))
    | _ => exact .ok hm' hc.1

/-- How a loop goes on after a turn that does not end it. -/
def Run.goOn (n : Nat) (condition : Expr) (body : Stmt) (increment : Option Expr) : Run Completion :=
  match increment with
  | some e => do
    let _ ← eval n e
    iterate n condition body increment
  | none => iterate n condition body increment

theorem preserves_iterate (ih : Preserves W n) {condition : Expr} {body : Stmt}
    {increment : Option Expr}
    (h : (Point.loop (n + 1) condition body increment m).Sound W begun) :
    Ends W begun m (W.Carries begun) (iterate (n + 1) condition body increment m) := by
  have step {Q : Point} (hc : Calls (.loop (n + 1) condition body increment m) Q) :
      Q.Sound W begun := h.step (fun k hk => by cases hk; exact ih) hc
  apply (ih.eval (step .turnCondition)).bind
  intro v m' hv _ hm' _
  by_cases htruthy : v.isTruthy = true
  · rw [if_pos htruthy]
    apply (ih.exec (step (.turnBody hv htruthy))).bind
    intro c m'' hb _ hm'' hc
    have hnext (hgo : c = .normal ∨ c = .continue) :
        Ends W begun m'' (W.Carries begun) (goOn n condition body increment m'') := by
      cases increment with
      | none => exact ih.iterate (step (.nextTurn hv htruthy hb hgo))
      | some e =>
        apply (ih.eval (step (.increment hv htruthy hb hgo))).bind
        intro _ m₃ hi _ _ _
        exact ih.iterate (step (.nextTurnAfter hv htruthy hb hgo hi))
    cases c with
    | normal => exact hnext (.inl rfl)
    | «continue» => exact hnext (.inr rfl)
    | «break» => exact .ok hm'' nofun
    | «return» value => exact .ok hm'' hc.1
  · rw [if_neg htruthy]
    exact .ok hm' nofun

end

/-- Whatever a sound point evaluates ends soundly, with every amount of fuel. -/
theorem preserves (W : World) : ∀ n, Preserves W n
  | 0 => ⟨fun h => .error h.machine, fun h => .error h.machine, fun h => .error h.machine,
    fun h => .error h.machine, fun h => .error h.machine, fun h => .error h.machine,
    fun h => .error h.machine⟩
  | n + 1 =>
    have ih := preserves W n
    ⟨preserves_eval ih, preserves_evalAll ih, preserves_call ih, preserves_invoke ih,
      preserves_exec ih, preserves_execAll ih, preserves_iterate ih⟩

end

end Lox
