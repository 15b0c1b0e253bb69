import Mathlib
import Lox.Proofs.Evaluation.Sessions

/-!
Where lookups go. A name with hops is looked up in the frame of the scope that has it, `this` gives the
receiver of the method around it, and `super` starts from the superclass of the class around it.
-/

namespace Lox

open Run

section

variable {W : World} {begun : Begun} {m : Machine} {P : Point}

/-- A point that looks a name up does so in the scopes around an occurrence of it. -/
theorem LooksUp.occurrence {ref : Reference} {error? : Option RuntimeError} (h : P.Sound W begun)
    (hl : LooksUp P ref m error?) : m.hops = W.hops ∧ ∃ o, W.known o ∧ o.ref = ref ∧
      Mirrors (W.view begun m.heap) m.environment o.layers := by
  cases hl with
  | «variable» | this | super =>
    obtain ⟨Γ, hm, _, hk⟩ := h.ready
    exact ⟨h.machine.hops, _, hk _ (List.mem_singleton_self _), rfl, hm⟩
  | @assign n target value m₀ v _ hv =>
    obtain ⟨Γ, hm, _, hk⟩ := h.ready
    have hvalue : (Point.expr n value m₀).Sound W begun := h.step (fun k _ => preserves W k) .assigned
    obtain ⟨keeps, hm', _⟩ := ((preserves W n).eval hvalue).of_ok hv
    have htarget := hk _ (List.mem_append_right _ (List.mem_singleton_self _))
    exact ⟨hm'.hops, _, htarget, rfl, keeps.mirrors hm⟩
  | superclass =>
    obtain ⟨Γ, hm, _, hk⟩ := h.ready
    exact ⟨h.machine.hops, _, hk _ (List.mem_append_left _ (List.mem_singleton_self _)), rfl, hm⟩

/-- A name that is found is in the scope it is found in. -/
theorem Layers.find?_some {Γ : Layers} {x : String} {i : Nat} (h : Γ.find? x = some i) :
    ∃ l, Γ[i]? = some l ∧ x ∈ l.names := by
  obtain ⟨hlt, hl, _⟩ := List.findIdx?_eq_some_iff_getElem.1 h
  exact ⟨Γ[i], List.getElem?_eq_getElem hlt, by simpa using hl⟩

theorem getAt_eq {e target : Environment} {distance : Nat} {name : Token} {v : Value}
    (ha : e.ancestor? distance = some target)
    (hv : m.heap.slot? target.inner name.lexeme = some (.assigned v)) :
    access (.getAt e distance name) m = .ok v m := by
  unfold access Access.getAt Access.read
  simp only [ha, hv]

/-- A lookup by hops finds no variable only where the frame does not have the name. -/
theorem getAt_undefined {e target : Environment} {distance : Nat} {name : Token} {t : Token}
    {x : String} (ha : e.ancestor? distance = some target)
    (hr : errorOf (access (.getAt e distance name) m) = some ⟨t, .undefinedVariable x⟩) :
    x = name.lexeme ∧ m.heap.slot? target.inner name.lexeme = none := by
  unfold access Access.getAt Access.read at hr
  simp only [ha] at hr
  cases hslot : m.heap.slot? target.inner name.lexeme with
  | none =>
    rw [hslot] at hr
    cases hr
    exact ⟨rfl, rfl⟩
  | some slot =>
    rw [hslot] at hr
    cases slot <;> cases hr

theorem assignAt_undefined {e target : Environment} {distance : Nat} {name : Token} {v : Value}
    {t : Token} {x : String} (ha : e.ancestor? distance = some target)
    (hr : errorOf (access (.assignAt e distance name v) m) = some ⟨t, .undefinedVariable x⟩) :
    x = name.lexeme ∧ m.heap.slot? target.inner name.lexeme = none := by
  unfold access Access.assignAt Access.overwrite at hr
  simp only [ha] at hr
  cases hslot : m.heap.slot? target.inner name.lexeme with
  | none =>
    rw [hslot] at hr
    cases hr
    exact ⟨rfl, rfl⟩
  | some slot =>
    rw [hslot] at hr
    cases hr

/-- `super` gives the method of the superclass, bound to the receiver. -/
theorem superMethod_eq {ref : Reference} {method : Token} {depth : Nat} {outer receives : Environment}
    {cls : Class} {receiver : Instance} (hh : m.hops[ref.id]? = some (depth + 2))
    (ha : m.environment.ancestor? (depth + 2) = some outer)
    (hs : m.heap.slot? outer.inner ref.name.lexeme = some (.assigned (.class cls)))
    (hr : m.environment.ancestor? (depth + 1) = some receives)
    (ht : m.heap.slot? receives.inner "this" = some (.assigned (.instance receiver))) :
    superMethod ref method m = match cls.method? method.lexeme with
      | some found => (Value.function <$> access (.bindMethod found receiver)) m
      | none => .error (.error ⟨method, .undefinedProperty method.lexeme⟩) m := by
  have hsuper := getAt_eq (m := m) ha hs
  have hthis : access (.getAt m.environment (depth + 1) (.synthetic .this "this" ref.name.line)) m =
      .ok (.instance receiver) m := getAt_eq hr ht
  have hhops : hops? ref.id m = .ok (some (depth + 2)) m := by
    unfold hops?
    rw [hh]
  unfold superMethod
  show EStateM.bind (hops? ref.id) _ m = _
  unfold EStateM.bind
  rw [hhops]
  show EStateM.bind environment _ m = _
  unfold EStateM.bind
  show EStateM.bind (access (.getAt m.environment (depth + 2) ref.name)) _ m = _
  unfold EStateM.bind
  rw [hsuper]
  show EStateM.bind (access (.getAt m.environment (depth + 1) _)) _ m = _
  unfold EStateM.bind
  rw [hthis]
  cases cls.method? method.lexeme <;> rfl

end

/-- The occurrence stands in a method, and the machine is in a call of that method which was bound to the
receiver. -/
structure Receives (visited : Point → Prop) (o : Occurrence) (m : Machine) (depth : Nat)
    (own : List FunctionDecl) (method : Closure) (receiver : Instance) : Prop where
  inMethod : o.layers.InMethod depth own
  text : ∃ names, o.layers[depth]? = some ⟨.function method.function, names⟩
  inCall : InCall visited m.environment depth receiver method

/-- The environment of methods was made by a class statement, whose superclass was the class then. -/
inductive Inherits (visited : Point → Prop) (superclass : Reference) (own statics : List FunctionDecl)
    (e : Environment) (cls : Class) : Prop where
  | intro {n name m} (h : visited (.stmt (n + 1) (.class name (some superclass) own statics) m))
    (hs : lookUp superclass m = .ok (.class cls) m)
    (he : e = ⟨m.heap.frames.size, m.environment.frames⟩)

section

variable {W : World} {begun : Begun} {m : Machine} {n : Nat} {ref : Reference}

/-- In a method the frame of the receiver lies one hop outside that of the call. -/
theorem Mirrors.receives {w : View} {o : Occurrence} {depth : Nat} {own : List FunctionDecl}
    (hm : Mirrors w m.environment o.layers) (hin : o.layers.InMethod depth own) :
    ∃ method receiver frame, Receives w.visited o m depth own method receiver ∧
      m.environment.ancestor? (depth + 1) = some ⟨frame, method.environment.frames⟩ ∧
      w.heap.slot? frame "this" = some (.assigned (.instance receiver)) ∧
      m.environment.ancestor? (depth + 2) = some method.environment ∧
      Mirrors w method.environment (o.layers.drop (depth + 2)) := by
  obtain ⟨decl, _, names, hf⟩ := hin.method
  obtain ⟨receiver, method, frame, hcall, hfunction, hone, hthis, htwo, houter⟩ :=
    hm.inCall hf hin.receiver
  have htext : o.layers[depth]? = some ⟨.function method.function, names⟩ := by
    rw [hfunction]
    exact hf
  exact ⟨method, receiver, frame, ⟨hin, ⟨names, htext⟩, hcall⟩, hone, hthis, htwo, houter⟩

/-- The innermost scope of the environment of a method is that of `super`. -/
theorem Mirrors.inherits {w : View} {e : Environment} {Γ : Layers} {superclass : Reference}
    {own statics : List FunctionDecl} {names : List String} (hm : Mirrors w e Γ)
    (hscope : Γ[0]? = some ⟨.super superclass own statics, names⟩) :
    ∃ cls, Inherits w.visited superclass own statics e cls ∧
      w.heap.slot? e.inner "super" = some (.assigned (.class cls)) := by
  cases hm with
  | super h hs hn inner binds super outer =>
    cases hscope
    exact ⟨_, ⟨h, hs, rfl⟩, super⟩
  | global | block | call | method => cases hscope

theorem Point.Sound.this (h : (Point.expr (n + 1) (.this ref) m).Sound W begun) :
    ∃ o depth own method receiver, W.known o ∧ o.ref = ref ∧
      Receives W.visited o m depth own method receiver ∧
      eval (n + 1) (.this ref) m = .ok (.instance receiver) m := by
  obtain ⟨Γ, hm, _, hk⟩ := h.ready
  have ho := hk _ (List.mem_singleton_self _)
  have hfound := W.found ho
  obtain ⟨hlexeme, depth, own, hin⟩ := hfound.allowed
  have hlexeme : ref.name.lexeme = "this" := hlexeme
  obtain ⟨method, receiver, frame, hreceives, hone, hthis, _⟩ := Mirrors.receives (o := ⟨.this, ref, Γ⟩) hm hin
  have hhops : m.hops[ref.id]? = some (depth + 1) := by
    have hfind : W.hops[ref.id]? = Γ.find? ref.name.lexeme := hfound.hops
    rw [show m.hops = W.hops from h.machine.hops, hfind, hlexeme]
    exact hin.this
  refine ⟨_, depth, own, method, receiver, ho, rfl, hreceives, ?_⟩
  show lookUp ref m = _
  rw [lookUp_eq, hhops]
  exact getAt_eq hone (by rw [hlexeme]; exact hthis)

theorem Point.Sound.super {name : Token}
    (h : (Point.expr (n + 1) (.super ref name) m).Sound W begun) :
    ∃ o depth own superclass statics method receiver cls, W.known o ∧ o.ref = ref ∧
      o.layers.InSubclass depth own superclass statics ∧
      Receives W.visited o m depth own method receiver ∧
      Inherits W.visited superclass own statics method.environment cls ∧
      eval (n + 1) (.super ref name) m = match cls.method? name.lexeme with
        | some found => (Value.function <$> access (.bindMethod found receiver)) m
        | none => .error (.error ⟨name, .undefinedProperty name.lexeme⟩) m := by
  obtain ⟨Γ, hm, _, hk⟩ := h.ready
  have ho := hk _ (List.mem_singleton_self _)
  have hfound := W.found ho
  obtain ⟨hlexeme, depth, own, superclass, statics, hin⟩ := hfound.allowed
  have hlexeme : ref.name.lexeme = "super" := hlexeme
  obtain ⟨method, receiver, frame, hreceives, hone, hthis, htwo, houter⟩ :=
    Mirrors.receives (o := ⟨.super, ref, Γ⟩) hm hin.toInMethod
  have hscope : (Γ.drop (depth + 2))[0]? = some ⟨.super superclass own statics, ["super"]⟩ := by
    rw [List.getElem?_drop]
    exact hin.scope
  obtain ⟨cls, hinherits, hsuper⟩ := houter.inherits hscope
  have hhops : m.hops[ref.id]? = some (depth + 2) := by
    have hfind : W.hops[ref.id]? = Γ.find? ref.name.lexeme := hfound.hops
    rw [show m.hops = W.hops from h.machine.hops, hfind, hlexeme]
    exact hin.super
  refine ⟨_, depth, own, superclass, statics, method, receiver, cls, ho, rfl, hin, hreceives,
    hinherits, ?_⟩
  exact superMethod_eq hhops htwo (by rw [hlexeme]; exact hsuper) hone hthis

end

/-! A point of a session is seen among all of its points. -/

theorem Receives.mono {visited visited' : Point → Prop} (hv : ∀ P, visited P → visited' P)
    {o : Occurrence} {m : Machine} {depth : Nat} {own : List FunctionDecl} {method : Closure}
    {receiver : Instance} (h : Receives visited o m depth own method receiver) :
    Receives visited' o m depth own method receiver := by
  obtain ⟨bound, made, called, frame⟩ := h.inCall
  exact ⟨h.inMethod, h.text, ⟨hv _ bound, made, hv _ called, frame⟩⟩

theorem Inherits.mono {visited visited' : Point → Prop} (hv : ∀ P, visited P → visited' P)
    {superclass : Reference} {own statics : List FunctionDecl} {e : Environment} {cls : Class}
    (h : Inherits visited superclass own statics e cls) :
    Inherits visited' superclass own statics e cls := by
  obtain ⟨hclass, hs, he⟩ := h
  exact ⟨hv _ hclass, hs, he⟩

theorem Pending.mono {visited visited' : Point → Prop} (hv : ∀ P, visited P → visited' P) {P : Point}
    {frame : FrameId} {x : String} (h : Pending visited P frame x) : Pending visited' P frame x := by
  obtain ⟨n, name, e, m, hvar, hrest⟩ := h
  exact ⟨n, name, e, m, hv _ hvar, hrest⟩

namespace Session

/-- The occurrence is one of an input that was run. -/
def Knows (fuel : Nat) (inputs : List (Mode × String)) (s : Session) (o : Occurrence) : Prop :=
  ∃ c, s.Accepts fuel inputs c ∧ o ∈ c.program.occurrences

/-- What a session shows at one of its points. -/
def view (fuel : Nat) (inputs : List (Mode × String)) (s : Session) (P : Point) (h : Heap) : View :=
  ⟨s.Visits fuel inputs, s.Knows fuel inputs, Pending (s.Visits fuel inputs) P, h⟩

/-- The hops of an input that was run lead to its names. -/
theorem Accepts.found {fuel : Nat} : ∀ {inputs : List (Mode × String)} {s : Session}
    {c : Compilation}, s.Accepts fuel inputs c → ∀ o ∈ c.program.occurrences, o.Found c.hops
  | (_, _) :: _, _, _, .inl ⟨rfl, hc⟩ => (compile_resolved hc).found
  | (_, _) :: _, _, _, .inr h => Accepts.found h

/-- Every point of a session that starts anew is sound. -/
theorem visits_sound {fuel : Nat} {time : Float} {inputs : List (Mode × String)} {P : Point}
    (hP : (start time).Visits fuel inputs P) : ∃ (W : World) (begun : Begun), P.Sound W begun ∧
      (∀ Q, W.visited Q → (start time).Visits fuel inputs Q) ∧
      (∀ o, W.known o → (start time).Knows fuel inputs o) ∧
      ∀ h : Heap, (W.view begun h).Le ((start time).view fuel inputs P h) := by
  obtain ⟨W, begun, hsound, hvisited, hknown, hbegun⟩ := (start_sound time).visits fuel hP
  have hvisited (Q : Point) (hQ : W.visited Q) : (start time).Visits fuel inputs Q :=
    (hvisited Q hQ).resolve_left id
  have hknown (o : Occurrence) (ho : W.known o) : (start time).Knows fuel inputs o :=
    (hknown o ho).resolve_left id
  refine ⟨W, begun, hsound, hvisited, hknown, fun h => ?_⟩
  refine ⟨hvisited, hknown, Nat.le_refl _, fun frame x hx => ?_, fun _ _ _ _ => rfl⟩
  exact hx.imp_right fun hx => (hbegun frame x hx).mono hvisited

end Session

/-- Only where the frame does not have the name does a lookup by hops find no variable. -/
theorem LooksUp.undefined {W : World} {begun : Begun} {P : Point} {ref : Reference} {m : Machine}
    {error? : Option RuntimeError} {distance : Nat} {target : Environment} {t : Token} {x : String}
    (h : P.Sound W begun) (hl : LooksUp P ref m error?) (hh : m.hops[ref.id]? = some distance)
    (ha : m.environment.ancestor? distance = some target)
    (hr : error? = some ⟨t, .undefinedVariable x⟩) :
    x = ref.name.lexeme ∧ m.heap.slot? target.inner ref.name.lexeme = none := by
  cases hl with
  | «variable» | this | superclass =>
    rw [lookUp_eq, hh] at hr
    exact getAt_undefined ha hr
  | assign hv =>
    rw [assign_eq, hh] at hr
    exact assignAt_undefined ha hr
  | super =>
    obtain ⟨_, _, _, _, _, _, receiver, cls, _, _, _, _, _, heval⟩ := h.super
    have hmethod : superMethod ref _ m = _ := heval
    rw [hmethod] at hr
    cases hfound : cls.method? _ with
    | none =>
      rw [hfound] at hr
      cases hr
    | some found =>
      rw [hfound] at hr
      cases hr

/-- The machine as an input runs. -/
def Session.entry (s : Session) (source : String) : Machine :=
  s.machine.addHops (compile source .script s.nextId).hops

/-- The machine as the body of a function without parameters starts. -/
def Machine.enter (m : Machine) (closure : Closure) : Machine :=
  let (inner, heap) := m.heap.newFrame closure.environment.frames
  { m with heap, environment := inner }

theorem eval_global {n : Nat} {ref : Reference} {m : Machine} {v : Value}
    (hh : m.hops[ref.id]? = none)
    (hs : m.heap.slot? 0 ref.name.lexeme = some (.assigned v)) :
    eval (n + 1) (.variable ref) m = .ok v m := by
  have hholder : m.heap.holder? .global ref.name.lexeme = some 0 := by
    show List.find? _ [0] = some 0
    rw [List.find?_cons_of_pos]
    rw [hs]
    rfl
  show lookUp ref m = _
  rw [lookUp_eq, hh]
  show access (.get .global ref.name) m = _
  unfold access Access.get Access.read
  simp only [hholder, hs]

/-- An input that only calls a global function gets to the body of it. -/
theorem Session.passes_body {n : Nat} {s : Session} {source : String} {ref : Reference}
    {paren : Token} {closure : Closure}
    (hd : (compile source .script s.nextId).diagnostics.isEmpty)
    (hprogram : (compile source .script s.nextId).program =
      .statements [.expression (.call (.variable ref) paren [])])
    (hh : (s.entry source).hops[ref.id]? = none)
    (hs : s.machine.heap.slot? 0 ref.name.lexeme = some (.assigned (.function closure)))
    (hp : closure.function.params = []) :
    s.Passes (n + 4) .script source
      (.stmts n closure.function.body ((s.entry source).enter closure)) := by
  have hcallee : eval (n + 2) (.variable ref) (s.entry source) =
      .ok (.function closure) (s.entry source) := eval_global hh hs
  have harity : checkArity paren closure.function.arity 0 (s.entry source) =
      .ok () (s.entry source) := by
    unfold Lambda.arity
    rw [hp]
    rfl
  have henter : access (callEnvironment closure []) (s.entry source) =
      .ok ((s.entry source).enter closure).environment
        { s.entry source with heap := ((s.entry source).enter closure).heap } := by
    unfold callEnvironment
    rw [hp]
    rfl
  have hreaches : Reaches (.each (n + 4) [.expression (.call (.variable ref) paren [])]
      (s.entry source)) (.stmts n closure.function.body ((s.entry source).enter closure)) :=
    .head .firstInput <| .head .expression <| .head (.call hcallee rfl) <|
      .head (.function harity) <| .head (.body henter) .refl
  refine ⟨List.isEmpty_iff.1 hd, ?_⟩
  show Reaches (Program.point _ _ (s.entry source)) _
  rw [hprogram]
  exact hreaches

/-- A block whose function leaves it. -/
def escaping : String := "var f;\x7bvar a=nil;fun g()\x7bprint a;\x7df=g;\x7d"

def escaped : Closure :=
  ⟨0, some "g", .mk [] [.print (.variable ⟨0, .synthetic .identifier "a" 1⟩)], ⟨1, [0]⟩, false⟩

def escapingSession : Session := ((Session.start 0).run 9 .script escaping).2

def escapingVisits : Point → Prop :=
  (Session.start 0).Visits 9 [(.script, escaping), (.script, "f();")]

/-- A class that inherits, and a method bound to an instance of it. -/
def inheriting : String :=
  "class A\x7bm()\x7b\x7d\x7dclass B<A\x7bm()\x7bthis;super.m;\x7d\x7dvar m=B().m;"

def thisStmt : Stmt := .expression (.this ⟨1, .synthetic .this "this" 1⟩)

def superStmt : Stmt :=
  .expression (.super ⟨2, .synthetic .super "super" 1⟩ (.synthetic .identifier "m" 1))

def inherited : Closure := ⟨2, some "m", .mk [] [thisStmt, superStmt], ⟨2, [1, 0]⟩, false⟩

def inheritingSession : Session := ((Session.start 0).run 9 .script inheriting).2

def inheritingVisits : Point → Prop :=
  (Session.start 0).Visits 9 [(.script, inheriting), (.script, "m();")]

end Lox
