import Lox.Proofs.Loops.Inlining
import Lox.Proofs.Loops.Padding
import Lox.Proofs.Scope.Resolving

/-!
The hops of a program that has increments in loop bodies. Each occurrence still means the same scope,
which lies as many scopes farther out as have been added on the way to it.
-/

namespace Lox

/-- The scopes around a place in two programs, of which the second one has the marked scopes added. -/
def Layers.Padded (K : List Bool) (Γ Γ' : Layers) : Prop :=
  Lox.Padded (fun l l' => l'.names = l.names) (fun l' => l'.names = []) K Γ Γ'

namespace Layers.Padded

variable {K : List Bool} {Γ Γ' : Layers}

theorem push (h : Γ.Padded K Γ') (l l' : Layer) (hl : l'.names = l.names) :
    Layers.Padded (false :: K) (l :: Γ) (l' :: Γ') := .same hl h

/-- The innermost scope that has a name is the same. -/
theorem find? (h : Γ.Padded K Γ') (x : String) : Γ'.find? x = (Γ.find? x).map (placeIn K) := by
  refine Lox.Padded.findIdx? (fun l l' hl => ?_) (fun l' hl => ?_) h
  · rw [hl]
  · rw [hl]
    rfl

theorem declare (h : Γ.Padded K Γ') (hK : K.head? ≠ some true) (x : String) :
    (Γ.declare x).Padded K (Γ'.declare x) := by
  rcases h.head hK with ⟨rfl, rfl, rfl⟩ | ⟨K', l, rest, l', rest', rfl, rfl, rfl, hl, hrest⟩
  · exact .nil
  · exact .same (congrArg (x :: ·) hl) hrest

/-- An added scope is only around statements that declare nothing. -/
theorem after {s s' : Stmt} (h : Γ.Padded K Γ') (hs : s'.declared? = s.declared?)
    (hK : K.head? = some true → s.declared? = none) : (Γ.after s).Padded K (Γ'.after s') := by
  cases hd : s.declared? with
  | none =>
    rw [Layers.after_undeclared hd, Layers.after_undeclared (hs.trans hd)]
    exact h
  | some name =>
    rw [Layers.after_declared hd, Layers.after_declared (hs.trans hd)]
    refine h.declare (fun htrue => ?_) name.lexeme
    have hnone := hK htrue
    rw [hd] at hnone
    cases hnone

theorem ofClass (h : Γ.Padded K Γ') (hK : K.head? ≠ some true) (name : Token)
    (superclass : Option Reference) (own statics own' statics' : List FunctionDecl) :
    (Γ.ofClass name superclass own statics).Padded (superMarks superclass K)
      (Γ'.ofClass name superclass own' statics') := by
  cases superclass with
  | none => exact h.declare hK name.lexeme
  | some ref => exact (h.declare hK name.lexeme).push _ _ rfl

end Layers.Padded

/-- What is known of an occurrence with the scopes around it in both programs is as `R` asks. -/
def Traces (R : List Bool → Role → Reference → Prop) (T T' : Occurrence → Prop) : Prop :=
  ∀ (K : List Bool) (Γ Γ' : Layers) (role : Role) (ref : Reference), Γ.Padded K Γ' →
    T ⟨role, ref, Γ⟩ → T' ⟨role, ref, Γ'⟩ → R K role ref

section Traces

variable {R : List Bool → Role → Reference → Prop} {T T' : Occurrence → Prop}

mutual

theorem Expr.Inlined.traced (hR : Traces R T T') : ∀ {K : List Bool} {e e' : Expr} {Γ Γ' : Layers},
    e.Inlined Anywhere K e' → Γ.Padded K Γ' → e.Proper →
    (∀ o ∈ e.occurrences Γ, T o) → (∀ o ∈ e'.occurrences Γ', T' o) → e.Inlined R K e'
  | _, _, _, _, _, .literal value, _, _, _, _ => .literal value
  | _, _, _, _, _, .grouping h, hΓ, hp, ho, ho' => .grouping (h.traced hR hΓ hp ho ho')
  | _, _, _, _, _, .unary operator h, hΓ, hp, ho, ho' => .unary operator (h.traced hR hΓ hp ho ho')
  | _, _, _, _, _, .binary hl operator hr, hΓ, hp, ho, ho' => by
    obtain ⟨hol, hor⟩ := List.forall_mem_append.1 ho
    obtain ⟨hol', hor'⟩ := List.forall_mem_append.1 ho'
    exact .binary (hl.traced hR hΓ hp.1 hol hol') operator (hr.traced hR hΓ hp.2 hor hor')
  | _, _, _, _, _, .binaryError operator h, hΓ, hp, ho, ho' =>
    .binaryError operator (h.traced hR hΓ hp ho ho')
  | _, _, _, _, _, .conditional hc ht hf, hΓ, hp, ho, ho' => by
    obtain ⟨hoc, ho⟩ := List.forall_mem_append.1 ho
    obtain ⟨hot, hof⟩ := List.forall_mem_append.1 ho
    obtain ⟨hoc', ho'⟩ := List.forall_mem_append.1 ho'
    obtain ⟨hot', hof'⟩ := List.forall_mem_append.1 ho'
    exact .conditional (hc.traced hR hΓ hp.1 hoc hoc') (ht.traced hR hΓ hp.2.1 hot hot')
      (hf.traced hR hΓ hp.2.2 hof hof')
  | _, _, _, _, _, .variable ref _, hΓ, _, ho, ho' =>
    .variable ref (hR _ _ _ _ _ hΓ (ho _ List.mem_cons_self) (ho' _ List.mem_cons_self))
  | _, _, _, _, _, .assign target _ hv, hΓ, hp, ho, ho' => by
    obtain ⟨hov, hot⟩ := List.forall_mem_append.1 ho
    obtain ⟨hov', hot'⟩ := List.forall_mem_append.1 ho'
    exact .assign target (hR _ _ _ _ _ hΓ (hot _ List.mem_cons_self) (hot' _ List.mem_cons_self))
      (hv.traced hR hΓ hp.2 hov hov')
  | _, _, _, _, _, .call hc paren ha, hΓ, hp, ho, ho' => by
    obtain ⟨hoc, hoa⟩ := List.forall_mem_append.1 ho
    obtain ⟨hoc', hoa'⟩ := List.forall_mem_append.1 ho'
    exact .call (hc.traced hR hΓ hp.1 hoc hoc') paren (ha.traced hR hΓ hp.2 hoa hoa')
  | _, _, _, _, _, .get h name, hΓ, hp, ho, ho' => .get (h.traced hR hΓ hp ho ho') name
  | _, _, _, _, _, .set hobject name hv, hΓ, hp, ho, ho' => by
    obtain ⟨hov, hoo⟩ := List.forall_mem_append.1 ho
    obtain ⟨hov', hoo'⟩ := List.forall_mem_append.1 ho'
    exact .set (hobject.traced hR hΓ hp.1 hoo hoo') name (hv.traced hR hΓ hp.2 hov hov')
  | _, _, _, _, _, .this ref _, hΓ, _, ho, ho' =>
    .this ref (hR _ _ _ _ _ hΓ (ho _ List.mem_cons_self) (ho' _ List.mem_cons_self))
  | _, _, _, _, _, .super ref method _, hΓ, _, ho, ho' =>
    .super ref method (hR _ _ _ _ _ hΓ (ho _ List.mem_cons_self) (ho' _ List.mem_cons_self))
  | _, _, _, _, _, .lambda h, hΓ, hp, ho, ho' => .lambda (h.traced hR hΓ hp ho ho')

theorem Expr.InlinedAll.traced (hR : Traces R T T') : ∀ {K : List Bool} {es es' : List Expr} {Γ Γ' : Layers},
    Expr.InlinedAll Anywhere K es es' → Γ.Padded K Γ' → Expr.ProperAll es →
    (∀ o ∈ Expr.occurrencesAll Γ es, T o) → (∀ o ∈ Expr.occurrencesAll Γ' es', T' o) →
    Expr.InlinedAll R K es es'
  | _, _, _, _, _, .nil, _, _, _, _ => .nil
  | _, _, _, _, _, .cons h hs, hΓ, hp, ho, ho' => by
    obtain ⟨hoe, hor⟩ := List.forall_mem_append.1 ho
    obtain ⟨hoe', hor'⟩ := List.forall_mem_append.1 ho'
    exact .cons (h.traced hR hΓ hp.1 hoe hoe') (hs.traced hR hΓ hp.2 hor hor')

theorem Expr.Inlined?.traced (hR : Traces R T T') : ∀ {K : List Bool} {e e' : Option Expr} {Γ Γ' : Layers},
    Expr.Inlined? Anywhere K e e' → Γ.Padded K Γ' → Expr.Proper? e →
    (∀ o ∈ Expr.occurrences? Γ e, T o) → (∀ o ∈ Expr.occurrences? Γ' e', T' o) →
    Expr.Inlined? R K e e'
  | _, _, _, _, _, .none, _, _, _, _ => .none
  | _, _, _, _, _, .some h, hΓ, hp, ho, ho' => .some (h.traced hR hΓ hp ho ho')

theorem Stmt.Inlined.traced (hR : Traces R T T') : ∀ {K : List Bool} {s s' : Stmt} {Γ Γ' : Layers},
    s.Inlined Anywhere K s' → Γ.Padded K Γ' → s.Proper →
    (K.head? = some true → s.declared? = none) →
    (∀ o ∈ s.occurrences Γ, T o) → (∀ o ∈ s'.occurrences Γ', T' o) → s.Inlined R K s'
  | _, _, _, _, _, .expression h, hΓ, hp, _, ho, ho' => .expression (h.traced hR hΓ hp ho ho')
  | _, _, _, _, _, .print h, hΓ, hp, _, ho, ho' => .print (h.traced hR hΓ hp ho ho')
  | _, _, _, _, _, .var name h, hΓ, hp, hd, ho, ho' =>
    .var name (h.traced hR (hΓ.declare (mt hd nofun) name.lexeme) hp.2 ho ho')
  | _, _, _, _, _, @Stmt.Inlined.block _ _ body body' h, hΓ, hp, _, ho, ho' => by
    have hinner := hΓ.push ⟨.block body, []⟩ ⟨.block body', []⟩ rfl
    exact .block (h.traced hR hinner hp (by simp) ho ho')
  | _, _, _, _, _, .ite hc ht hf, hΓ, hp, _, ho, ho' => by
    obtain ⟨hoc, ho⟩ := List.forall_mem_append.1 ho
    obtain ⟨hot, hof⟩ := List.forall_mem_append.1 ho
    obtain ⟨hoc', ho'⟩ := List.forall_mem_append.1 ho'
    obtain ⟨hot', hof'⟩ := List.forall_mem_append.1 ho'
    exact .ite (hc.traced hR hΓ hp.1 hoc hoc')
      (ht.traced hR hΓ hp.2.1.2 (fun _ => hp.2.1.1) hot hot') (hf.traced hR hΓ hp.2.2 hof hof')
  | _, _, _, _, _, .loop hc hb hi, hΓ, hp, _, ho, ho' => by
    obtain ⟨hoc, ho⟩ := List.forall_mem_append.1 ho
    obtain ⟨hob, hoi⟩ := List.forall_mem_append.1 ho
    obtain ⟨hoc', ho'⟩ := List.forall_mem_append.1 ho'
    obtain ⟨hob', hoi'⟩ := List.forall_mem_append.1 ho'
    exact .loop (hc.traced hR hΓ hp.1 hoc hoc')
      (hb.traced hR hΓ hp.2.1.2 (fun _ => hp.2.1.1) hob hob') (hi.traced hR hΓ hp.2.2 hoi hoi')
  | _, _, _, _, Γ', @Stmt.Inlined.increment _ _ _ c' _ body' _ e' hgoes hc hb he, hΓ, hp, _, ho,
      ho' => by
    obtain ⟨hoc, ho⟩ := List.forall_mem_append.1 ho
    obtain ⟨hob, hoe⟩ := List.forall_mem_append.1 ho
    obtain ⟨hoc', ho'⟩ := List.forall_mem_append.1 ho'
    have hinner := (List.forall_mem_append.1 ho').1
    obtain ⟨hob', hrest⟩ := List.forall_mem_append.1 hinner
    have hoe' := (List.forall_mem_append.1 hrest).1
    have hadded : Layers.Padded (true :: _) _ (⟨.block [body', .expression e'], []⟩ :: Γ') :=
      .added rfl hΓ
    -- The body declares nothing, so the increment is in the same scopes as the body.
    have hafter : Layers.after body' (⟨.block [body', .expression e'], []⟩ :: Γ') =
        ⟨.block [body', .expression e'], []⟩ :: Γ' :=
      Layers.after_undeclared (hb.declared?.trans hp.2.1.1) _
    rw [hafter] at hoe'
    exact .increment hgoes (hc.traced hR hΓ hp.1 hoc hoc')
      (hb.traced hR hadded hp.2.1.2 (fun _ => hp.2.1.1) hob hob') (he.traced hR hadded hp.2.2 hoe hoe')
  | _, _, _, _, _, .break keyword, _, _, _, _, _ => .break keyword
  | _, _, _, _, _, .continue keyword, _, _, _, _, _ => .continue keyword
  | _, _, _, _, _, .breakError keyword, _, _, _, _, _ => .breakError keyword
  | _, _, _, _, _, .continueError keyword, _, _, _, _, _ => .continueError keyword
  | _, _, _, _, _, .function name h, hΓ, hp, hd, ho, ho' =>
    .function name (h.traced hR (hΓ.declare (mt hd nofun) name.lexeme) hp.2 ho ho')
  | _, _, _, _, _, .return keyword h, hΓ, hp, _, ho, ho' => .return keyword (h.traced hR hΓ hp ho ho')
  | _, _, _, _, _, @Stmt.Inlined.class _ _ own own' statics statics' name superclass _ hown hstatics,
      hΓ, hp, hd, ho, ho' => by
    have hK := mt hd nofun
    obtain ⟨hos, ho⟩ := List.forall_mem_append.1 ho
    obtain ⟨hoown, hostatics⟩ := List.forall_mem_append.1 ho
    obtain ⟨hos', ho'⟩ := List.forall_mem_append.1 ho'
    obtain ⟨hoown', hostatics'⟩ := List.forall_mem_append.1 ho'
    have hinner := hΓ.ofClass hK name superclass own statics own' statics'
    have hreceiver := hinner.push ⟨.receiver own, ["this"]⟩ ⟨.receiver own', ["this"]⟩ rfl
    refine .class name superclass (fun ref href => ?_)
      (hown.traced hR hreceiver hp.2.2.1 hoown hoown')
      (hstatics.traced hR hinner hp.2.2.2 hostatics hostatics')
    obtain rfl := Option.mem_def.1 href
    exact hR _ _ _ _ _ hΓ (hos _ List.mem_cons_self) (hos' _ List.mem_cons_self)

theorem Stmt.Inlined?.traced (hR : Traces R T T') : ∀ {K : List Bool} {s s' : Option Stmt} {Γ Γ' : Layers},
    Stmt.Inlined? Anywhere K s s' → Γ.Padded K Γ' → Stmt.Proper? s →
    (∀ o ∈ Stmt.occurrences? Γ s, T o) → (∀ o ∈ Stmt.occurrences? Γ' s', T' o) →
    Stmt.Inlined? R K s s'
  | _, _, _, _, _, .none, _, _, _, _ => .none
  | _, _, _, _, _, .some h, hΓ, hp, ho, ho' => .some (h.traced hR hΓ hp.2 (fun _ => hp.1) ho ho')

theorem Stmt.InlinedAll.traced (hR : Traces R T T') : ∀ {K : List Bool} {body body' : List Stmt} {Γ Γ' : Layers},
    Stmt.InlinedAll Anywhere K body body' → Γ.Padded K Γ' → Stmt.ProperAll body →
    K.head? ≠ some true → (∀ o ∈ Stmt.occurrencesAll Γ body, T o) →
    (∀ o ∈ Stmt.occurrencesAll Γ' body', T' o) → Stmt.InlinedAll R K body body'
  | _, _, _, _, _, .nil, _, _, _, _, _ => .nil
  | _, _, _, _, _, .cons h hs, hΓ, hp, hK, ho, ho' => by
    obtain ⟨hofirst, horest⟩ := List.forall_mem_append.1 ho
    obtain ⟨hofirst', horest'⟩ := List.forall_mem_append.1 ho'
    have hafter := hΓ.after h.declared? fun htrue => absurd htrue hK
    exact .cons (h.traced hR hΓ hp.1 (fun htrue => absurd htrue hK) hofirst hofirst')
      (hs.traced hR hafter hp.2 hK horest horest')

theorem FunctionDecl.InlinedAll.traced (hR : Traces R T T') : ∀ {K : List Bool} {decls decls' : List FunctionDecl}
    {Γ Γ' : Layers}, FunctionDecl.InlinedAll Anywhere K decls decls' → Γ.Padded K Γ' →
    FunctionDecl.ProperAll decls → (∀ o ∈ FunctionDecl.occurrencesAll Γ decls, T o) →
    (∀ o ∈ FunctionDecl.occurrencesAll Γ' decls', T' o) → FunctionDecl.InlinedAll R K decls decls'
  | _, _, _, _, _, .nil, _, _, _, _ => .nil
  | _, _, _, _, _, .cons name hf hs, hΓ, hp, ho, ho' => by
    obtain ⟨hofirst, horest⟩ := List.forall_mem_append.1 ho
    obtain ⟨hofirst', horest'⟩ := List.forall_mem_append.1 ho'
    exact .cons name (hf.traced hR hΓ hp.1 hofirst hofirst') (hs.traced hR hΓ hp.2 horest horest')

theorem Lambda.Inlined.traced (hR : Traces R T T') : ∀ {K : List Bool} {f f' : Lambda} {Γ Γ' : Layers},
    f.Inlined Anywhere K f' → Γ.Padded K Γ' → f.Proper →
    (∀ o ∈ f.occurrences Γ, T o) → (∀ o ∈ f'.occurrences Γ', T' o) → f.Inlined R K f'
  | _, _, _, _, _, @Lambda.Inlined.mk _ _ body body' params hb, hΓ, hp, ho, ho' => by
    have hinner := hΓ.push (Lambda.mk params body).layer (Lambda.mk params body').layer rfl
    exact .mk params (hb.traced hR hinner hp.2 (by simp) ho ho')

end

theorem Program.Inlines.traced {p p' : Program} (hR : Traces R T T') (h : p.Inlines p')
    (hp : p.Proper) (ho : ∀ o ∈ p.occurrences, T o) (ho' : ∀ o ∈ p'.occurrences, T' o) :
    p.Inlined R p' := by
  cases h with
  | statements h => exact .statements (h.traced hR .nil hp (by simp) ho ho')
  | expression h => exact .expression (h.traced hR .nil hp ho ho')

end Traces

/-- The hops of the occurrences in some code, and in the same code with increments in loop bodies. The
numbers from `next` on belong to no occurrence yet. -/
structure Detour where
  direct : NodeId → Option Nat
  around : NodeId → Option Nat
  next : NodeId

/-- The detour of an occurrence within scopes of which some have been added. The scope of a receiver lies
one hop inside that of `super` in both. -/
structure Detour.Leads (d : Detour) (K : List Bool) (role : Role) (ref : Reference) : Prop where
  old : ref.id < d.next
  around : d.around ref.id = (d.direct ref.id).map (placeIn K)
  receiver : role = .super → ∀ i, d.direct ref.id = some i → placeIn K i - 1 = placeIn K (i - 1)

/-- Hops of new code are added. -/
structure Detour.Le (d d' : Detour) : Prop where
  next : d.next ≤ d'.next
  direct : ∀ id < d.next, d'.direct id = d.direct id
  around : ∀ id < d.next, d'.around id = d.around id

theorem Detour.Leads.mono {d d' : Detour} (hd : d.Le d') {K : List Bool} {role : Role}
    {ref : Reference} (h : d.Leads K role ref) : d'.Leads K role ref := by
  have hdirect := hd.direct ref.id h.old
  refine ⟨Nat.lt_of_lt_of_le h.old hd.next, ?_, fun hrole i hi => ?_⟩
  · rw [hd.around ref.id h.old, hdirect]
    exact h.around
  · rw [hdirect] at hi
    exact h.receiver hrole i hi

/-- What is found in both programs is found by a detour. -/
theorem Occurrence.Found.leads {d : Detour} {K : List Bool} {Γ Γ' : Layers} {role : Role}
    {ref : Reference} {hops hops' : HopMap} (hΓ : Γ.Padded K Γ')
    (h : Occurrence.Found ⟨role, ref, Γ⟩ hops) (h' : Occurrence.Found ⟨role, ref, Γ'⟩ hops')
    (hold : ref.id < d.next) (hdirect : d.direct ref.id = hops[ref.id]?)
    (haround : d.around ref.id = hops'[ref.id]?) : d.Leads K role ref := by
  have hfirst : d.direct ref.id = Γ.find? ref.name.lexeme := hdirect.trans h.hops
  have hsecond : d.around ref.id = Γ'.find? ref.name.lexeme := haround.trans h'.hops
  refine ⟨hold, ?_, fun hrole i hi => ?_⟩
  · rw [hfirst, hsecond, hΓ.find?]
  · subst hrole
    obtain ⟨hname, depth, own, superclass, statics, hin⟩ := h.allowed
    obtain ⟨-, depth', own', superclass', statics', hin'⟩ := h'.allowed
    rw [hfirst, hname, hin.super] at hi
    obtain rfl := Option.some.inj hi
    have hthis := hΓ.find? "this"
    have hsuper := hΓ.find? "super"
    rw [hin.this, hin'.this, Option.map_some] at hthis
    rw [hin.super, hin'.super, Option.map_some] at hsuper
    rw [← Option.some.inj hsuper]
    exact Option.some.inj hthis

end Lox
