import Lox.Proofs.Evaluation.Accesses
import Lox.Proofs.Evaluation.Operators

/-!
How each operation of the evaluator ends on a sound machine.
-/

namespace Lox

open Run

variable {α : Type} {W : World} {begun : Begun} {m : Machine}

theorem Ends.access {Q : Heap → α → Prop} {action : Access α} (hm : m.hops = W.hops)
    (h : Access.Ends W begun m.heap Q (action m.heap)) :
    Ends W begun m Q (Run.access action m) := by
  unfold Run.access
  simp only
  cases hr : action m.heap with
  | ok a h' =>
    rw [hr] at h
    exact ⟨⟨h.1, rfl⟩, ⟨h.2.1, hm⟩, h.2.2⟩
  | error e h' =>
    rw [hr] at h
    have hsound : Machine.Sound W begun { m with heap := h' } := ⟨h.2, hm⟩
    exact ⟨⟨h.1, rfl⟩, hsound.aborted⟩

theorem access_ok {action : Access α} {a : α} {m' : Machine}
    (h : Run.access action m = .ok a m') :
    action m.heap = .ok a m'.heap ∧ m' = { m with heap := m'.heap } := by
  unfold Run.access at h
  simp only at h
  cases hr : action m.heap with
  | ok a' h' =>
    rw [hr] at h
    cases h
    exact ⟨rfl, rfl⟩
  | error e h' =>
    rw [hr] at h
    cases h

namespace Run

/-- A lookup goes to the frame that the hops lead to, or else to the global one. -/
theorem lookUp_eq (ref : Reference) (m : Machine) : lookUp ref m =
    match m.hops[ref.id]? with
    | some distance => access (.getAt m.environment distance ref.name) m
    | none => access (.get .global ref.name) m := by
  show (match m.hops[ref.id]? with
    | some distance => (do access (.getAt (← environment) distance ref.name) : Run Value)
    | none => access (.get .global ref.name)) m = _
  cases m.hops[ref.id]? <;> rfl

theorem assign_eq (target : Reference) (value : Value) (m : Machine) : assign target value m =
    match m.hops[target.id]? with
    | some distance => access (.assignAt m.environment distance target.name value) m
    | none => access (.assign .global target.name value) m := by
  show (match m.hops[target.id]? with
    | some distance => (do access (.assignAt (← environment) distance target.name value) : Run Unit)
    | none => access (.assign .global target.name value)) m = _
  cases m.hops[target.id]? <;> rfl

theorem lookUp_ends (hm : m.Sound W begun) (ref : Reference) :
    Ends W begun m (W.Gives begun) (lookUp ref m) := by
  rw [lookUp_eq]
  split
  · exact .access hm.hops (Access.getAt_ends hm.heap _ _ _)
  · exact .access hm.hops (Access.get_ends hm.heap _ _)

theorem assign_ends (hm : m.Sound W begun) {target : Reference} {value : Value}
    (hname : target.name.IsName) (hv : W.Gives begun m.heap value) :
    Ends W begun m (fun _ _ => True) (assign target value m) := by
  rw [assign_eq]
  split
  · exact .access hm.hops (Access.assignAt_ends hm.heap _ _ hname hv)
  · exact .access hm.hops (Access.assign_ends hm.heap _ hname hv)

/-- A lookup by hops gives the value in the frame that many scopes out, and changes nothing. -/
theorem getAt_ok {e : Environment} {distance : Nat} {name : Token} {v : Value} {m' : Machine}
    (h : access (.getAt e distance name) m = .ok v m') :
    ∃ ancestor, e.ancestor? distance = some ancestor ∧
      m.heap.slot? ancestor.inner name.lexeme = some (.assigned v) ∧ m' = m := by
  obtain ⟨hget, hm'⟩ := access_ok h
  unfold Access.getAt at hget
  cases hancestor : e.ancestor? distance with
  | none =>
    rw [hancestor] at hget
    cases hget
  | some ancestor =>
    rw [hancestor] at hget
    obtain ⟨hslot, hheap⟩ := Access.read_ok hget
    exact ⟨ancestor, rfl, hslot, by rw [hm', hheap]⟩

theorem getAt_state {e : Environment} {distance : Nat} {name : Token} {v : Value} {m' : Machine}
    (h : access (.getAt e distance name) m = .ok v m') : m' = m := by
  obtain ⟨_, _, _, hm'⟩ := getAt_ok h
  exact hm'

/-- A lookup changes nothing. -/
theorem lookUp_state {ref : Reference} {v : Value} {m' : Machine} (h : lookUp ref m = .ok v m') :
    m' = m := by
  rw [lookUp_eq] at h
  split at h
  · exact getAt_state h
  · obtain ⟨hget, hm'⟩ := access_ok h
    unfold Access.get at hget
    split at hget
    · rw [hm', (Access.read_ok hget).2]
    · cases hget

theorem Computes.ends {operator operator' : Token} {p p' : Run Value}
    (h : Computes operator operator' p p') (hm : m.Sound W begun) :
    Ends W begun m (W.Gives begun) (p m) := by
  cases h with
  | boolean b => exact .ok hm trivial
  | number x => exact .ok hm trivial
  | string s => exact .ok hm trivial
  | fails fault => exact .error hm

theorem property_ends (hm : m.Sound W begun) {object : Value} {name : Token}
    (ho : W.Gives begun m.heap object)
    (hv : ∀ receiver method, object = .instance receiver →
      m.heap.property? receiver.id name.lexeme = none →
      receiver.cls.method? name.lexeme = some method → W.visited (.bind method receiver m)) :
    Ends W begun m (W.Gives begun) (property object name m) := by
  unfold property
  split
  next receiver =>
    exact .access hm.hops (Access.instanceProperty_ends hm.heap ho fun method => hv receiver method rfl)
  next cls => exact .access hm.hops (Access.classProperty_ends hm.heap cls name)
  next => exact .error hm

theorem propertyTable_ends (hm : m.Sound W begun) (object : Value) (name : Token) :
    Ends W begun m (fun _ _ => True) (propertyTable object name m) := by
  unfold propertyTable
  split
  · exact .ok hm trivial
  · exact .ok hm trivial
  · exact .error hm

theorem checkArity_ends (hm : m.Sound W begun) (paren : Token) (expected given : Nat) :
    Ends W begun m (fun _ _ => given = expected) (checkArity paren expected given m) := by
  unfold checkArity
  split
  next h => exact .ok hm h
  next => exact .error hm

theorem checkArity_ok {paren : Token} {expected given : Nat} {m' : Machine}
    (h : checkArity paren expected given m = .ok () m') : given = expected ∧ m' = m := by
  unfold checkArity at h
  split at h
  next hsame =>
    cases h
    exact ⟨hsame, rfl⟩
  next => cases h

theorem define_ends (hm : m.Sound W begun) {Γ : Layers}
    (hmirrors : Mirrors (W.view begun m.heap) m.environment Γ) {name : Token}
    {value : Option Value} (hname : name.IsName) (hv : ∀ v ∈ value, W.Gives begun m.heap v) :
    Ends W begun m (fun h _ => (h.slot? m.environment.inner name.lexeme).isSome)
      (define name value m) :=
  .access hm.hops (Access.define_ends hm.heap (hmirrors.inner_lt hm.heap) hname hv fun _ _ hx => .inl hx)

theorem closure_ends (hm : m.Sound W begun) {Γ : Layers}
    (hmirrors : Mirrors (W.view begun m.heap) m.environment Γ) (name : Option String) {f : Lambda}
    (hp : f.Proper) (hk : (W.view begun m.heap).Knows (f.occurrences Γ)) :
    Ends W begun m (W.Gives begun) (closure name f m) := by
  show Ends W begun m (W.Gives begun)
    ((access (.newClosure name f m.environment false) >>= fun c => pure (.function c)) m)
  have hnew : Ends W begun m _ (access (.newClosure name f m.environment false) m) :=
    .access hm.hops (Access.newClosure_ends hm.heap name false)
  refine hnew.bind fun c m' _ keeps hm' hc => .ok hm' ?_
  obtain ⟨hfunction, henv, hordinary⟩ := hc
  have hle : (W.view begun m.heap).Le (W.view begun m'.heap) := keeps.heap.le_same
  have hmirrors' := hmirrors.mono hle
  have hk' := View.Knows.mono hk hle
  rw [← henv] at hmirrors'
  rw [← hfunction] at hp hk'
  exact Closure.Sound.plain hmirrors' hp hk' hordinary

theorem callResult_ends (hm : m.Sound W begun) (closure : Closure) {completion : Completion}
    (hc : ∀ v, completion = .return v → W.Gives begun m.heap v) :
    Ends W begun m (W.Gives begun) (callResult closure completion m) := by
  unfold callResult
  split
  · exact .access hm.hops (Access.getAt_ends hm.heap _ _ _)
  · split
    next v => exact .ok hm (hc v rfl)
    next => exact .ok hm trivial

/-- A superclass is a class, whose methods are sound. -/
theorem superclass_ends (hm : m.Sound W begun) (ref? : Option Reference) :
    Ends W begun m (fun h superclass => ∀ cls ∈ superclass, cls.Sound (W.view begun h))
      (superclass ref? m) := by
  unfold superclass
  cases ref? with
  | none => exact .ok hm nofun
  | some ref =>
    apply (lookUp_ends hm ref).bind
    intro v m' _ _ hm' hv
    split
    next cls =>
      apply Ends.ok hm'
      intro cls' hcls
      cases hcls
      exact hv
    next => exact .error hm'

theorem superclass_ok {ref? : Option Reference} {s : Option Class} {m' : Machine}
    (h : superclass ref? m = .ok s m') : m' = m ∧ (ref? = none → s = none) ∧
      ∀ ref ∈ ref?, ∃ cls, s = some cls ∧ lookUp ref m = .ok (.class cls) m := by
  unfold superclass at h
  cases ref? with
  | none =>
    cases h
    exact ⟨rfl, fun _ => rfl, nofun⟩
  | some ref =>
    have h : EStateM.bind (lookUp ref) _ m = .ok s m' := h
    unfold EStateM.bind at h
    cases hl : lookUp ref m with
    | error halt m'' =>
      rw [hl] at h
      cases h
    | ok v m'' =>
      rw [hl] at h
      obtain rfl := lookUp_state hl
      cases v with
      | «class» cls =>
        cases h
        refine ⟨rfl, nofun, fun ref' href => ?_⟩
        cases href
        exact ⟨cls, rfl, hl⟩
      | _ => cases h

/-- `super` looks up, `this` one frame further in, and then the method of the superclass. -/
theorem superMethod_ends (hm : m.Sound W begun) {ref : Reference} {method : Token}
    (hbinds : ∀ distance cls receiver found, m.hops[ref.id]? = some distance →
      access (.getAt m.environment distance ref.name) m = .ok (.class cls) m →
      access (.getAt m.environment (distance - 1) (.synthetic .this "this" ref.name.line)) m =
        .ok (.instance receiver) m →
      cls.method? method.lexeme = some found → W.visited (.bind found receiver m)) :
    Ends W begun m (W.Gives begun) (superMethod ref method m) := by
  have hhops : Ends W begun m (fun _ _ => True) (hops? ref.id m) := .ok hm trivial
  apply hhops.bind
  intro distance? _ hd _ _ _
  cases hd
  cases hdistance : m.hops[ref.id]? with
  | none => exact .error hm
  | some distance =>
    have henvironment : Ends W begun m (fun _ _ => True) (environment m) := .ok hm trivial
    apply henvironment.bind
    intro e _ he _ _ _
    cases he
    have hsuper : Ends W begun m _ (access (.getAt m.environment distance ref.name) m) :=
      .access hm.hops (Access.getAt_ends hm.heap _ _ _)
    apply hsuper.bind
    intro v m' hread _ _ hcls
    obtain rfl := getAt_state hread
    cases v with
    | «class» cls =>
      have hthis : Ends W begun m' _
          (access (.getAt m'.environment (distance - 1) (.synthetic .this "this" ref.name.line)) m') :=
        .access hm.hops (Access.getAt_ends hm.heap _ _ _)
      apply hthis.bind
      intro v' m'' hread' _ _ hreceiver
      obtain rfl := getAt_state hread'
      cases v' with
      | «instance» receiver =>
        cases hfound : cls.method? method.lexeme with
        | none =>
          exact .error hm
        | some found =>
          have hvisited := hbinds distance cls receiver found hdistance hread hread' hfound
          have hbind : Ends W begun m'' _ (access (.bindMethod found receiver) m'') :=
            .access hm.hops (Access.bindMethod_ends hm.heap hvisited (Class.Sound.method hcls hfound)
              hreceiver)
          show Ends W begun m'' _
            ((access (.bindMethod found receiver) >>= fun c => pure (Value.function c)) m'')
          exact hbind.bind fun c m₃ _ _ hm₃ hc => .ok hm₃ hc
      | _ => exact .error hm
    | _ => exact .error hm

end Run

end Lox
