import Lox.Proofs.Scope.Walk

/-!
What the hops mean. Where the resolver reports nothing, every occurrence has the number of scopes
between it and the innermost one with its name, and `this` and `super` stand in methods only.
-/

namespace Lox

namespace Layers

/-- The place is inside a method of a class with these methods, and between it and the scope of the
method lie `depth` scopes. -/
structure InMethod (Γ : Layers) (depth : Nat) (own : List FunctionDecl) : Prop where
  this : Γ.find? "this" = some (depth + 1)
  receiver : Γ[depth + 1]? = some ⟨.receiver own, ["this"]⟩
  method : ∃ decl ∈ own, ∃ names, Γ[depth]? = some ⟨.function decl.function, names⟩

/-- The class has a superclass as well. -/
structure InSubclass (Γ : Layers) (depth : Nat) (own : List FunctionDecl) (superclass : Reference)
    (statics : List FunctionDecl) : Prop extends InMethod Γ depth own where
  super : Γ.find? "super" = some (depth + 2)
  scope : Γ[depth + 2]? = some ⟨.super superclass own statics, ["super"]⟩

theorem find?_cons (l : Layer) (Γ : Layers) (x : String) :
    Layers.find? (l :: Γ) x = if l.names.contains x then some 0 else (Γ.find? x).map (· + 1) :=
  List.findIdx?_cons

theorem find?_declare {name x : String} (h : x ≠ name) (Γ : Layers) :
    (Γ.declare name).find? x = Γ.find? x := by
  cases Γ with
  | nil => rfl
  | cons l rest =>
    have hnames : (name :: l.names).contains x = l.names.contains x := by
      rw [List.contains_cons, beq_false_of_ne h, Bool.false_or]
    show find? (⟨l.scope, name :: l.names⟩ :: rest) x = _
    rw [find?_cons, find?_cons, hnames]

/-- A new name changes the innermost scope only. -/
theorem getElem?_declare (name : String) (Γ : Layers) (i : Nat) :
    (Γ.declare name)[i + 1]? = Γ[i + 1]? := by
  cases Γ <;> rfl

theorem scope_declare {Γ : Layers} {i : Nat} {scope : StaticScope} {names : List String}
    (name : String) (h : Γ[i]? = some ⟨scope, names⟩) :
    ∃ names, (Γ.declare name)[i]? = some ⟨scope, names⟩ := by
  cases i with
  | succ i => exact ⟨names, by rw [getElem?_declare, h]⟩
  | zero =>
    cases Γ with
    | nil => simp at h
    | cons l rest =>
      obtain rfl : l = _ := Option.some.inj h
      exact ⟨_, rfl⟩

namespace InMethod

variable {Γ : Layers} {depth : Nat} {own : List FunctionDecl}

theorem push (h : InMethod Γ depth own) {l : Layer} (hl : "this" ∉ l.names) :
    InMethod (l :: Γ) (depth + 1) own := by
  constructor
  · rw [find?_cons, if_neg (by simpa using hl), h.this]
    rfl
  · exact h.receiver
  · exact h.method

theorem declare (h : InMethod Γ depth own) {name : Token} (hn : name.IsName) :
    InMethod (Γ.declare name.lexeme) depth own := by
  constructor
  · rw [find?_declare hn.1.symm, h.this]
  · rw [getElem?_declare, h.receiver]
  · obtain ⟨decl, hdecl, names, hnames⟩ := h.method
    exact ⟨decl, hdecl, scope_declare _ hnames⟩

end InMethod

namespace InSubclass

variable {Γ : Layers} {depth : Nat} {own statics : List FunctionDecl} {superclass : Reference}

theorem push (h : InSubclass Γ depth own superclass statics) {l : Layer} (hthis : "this" ∉ l.names)
    (hsuper : "super" ∉ l.names) : InSubclass (l :: Γ) (depth + 1) own superclass statics := by
  constructor
  · exact h.toInMethod.push hthis
  · rw [find?_cons, if_neg (by simpa using hsuper), h.super]
    rfl
  · exact h.scope

theorem declare (h : InSubclass Γ depth own superclass statics) {name : Token} (hn : name.IsName) :
    InSubclass (Γ.declare name.lexeme) depth own superclass statics := by
  constructor
  · exact h.toInMethod.declare hn
  · rw [find?_declare hn.2.symm, h.super]
  · rw [getElem?_declare, h.scope]

end InSubclass

end Layers

/-- The scopes are those of a place in a class of the kind. -/
def ClassKind.Fits : ClassKind → Layers → Prop
  | noClass, _ | staticMethod, _ => True
  | rootClass, Γ => ∃ depth own, Γ.InMethod depth own
  | subclass, Γ => ∃ depth own superclass statics, Γ.InSubclass depth own superclass statics

namespace ClassKind.Fits

variable {c : ClassKind} {Γ : Layers}

theorem push (h : c.Fits Γ) {l : Layer} (hthis : "this" ∉ l.names) (hsuper : "super" ∉ l.names) :
    c.Fits (l :: Γ) := by
  cases c with
  | noClass => exact trivial
  | staticMethod => exact trivial
  | rootClass =>
    obtain ⟨depth, own, hin⟩ := h
    exact ⟨depth + 1, own, hin.push hthis⟩
  | subclass =>
    obtain ⟨depth, own, superclass, statics, hin⟩ := h
    exact ⟨depth + 1, own, superclass, statics, hin.push hthis hsuper⟩

theorem declare (h : c.Fits Γ) {name : Token} (hn : name.IsName) :
    c.Fits (Γ.declare name.lexeme) := by
  cases c with
  | noClass => exact trivial
  | staticMethod => exact trivial
  | rootClass =>
    obtain ⟨depth, own, hin⟩ := h
    exact ⟨depth, own, hin.declare hn⟩
  | subclass =>
    obtain ⟨depth, own, superclass, statics, hin⟩ := h
    exact ⟨depth, own, superclass, statics, hin.declare hn⟩

theorem after (h : c.Fits Γ) {st : Stmt} (hp : st.Proper) : c.Fits (Γ.after st) := by
  unfold Layers.after
  cases st with
  | var name initializer => exact h.declare hp.1
  | function decl =>
    cases decl with
    | mk name function => exact h.declare hp.1
  | «class» name superclass own statics => exact h.declare hp.1
  | _ => exact h

/-- No parameter takes the place of `this` or `super`. -/
theorem params_mem {f : Lambda} (hp : f.Proper) : "this" ∉ f.layer.names ∧ "super" ∉ f.layer.names := by
  cases f with
  | mk params body =>
    constructor
    · intro hmem
      obtain ⟨p, hmem, hthis⟩ := List.mem_map.1 hmem
      exact (hp.1 p hmem).1 hthis
    · intro hmem
      obtain ⟨p, hmem, hsuper⟩ := List.mem_map.1 hmem
      exact (hp.1 p hmem).2 hsuper

theorem lambda (h : c.Fits Γ) {f : Lambda} (hp : f.Proper) : c.Fits (f.layer :: Γ) :=
  h.push (params_mem hp).1 (params_mem hp).2

theorem inMethod {decl : FunctionDecl} {own : List FunctionDecl} (hdecl : decl ∈ own)
    (hp : decl.function.Proper) (Γ : Layers) :
    Layers.InMethod (decl.function.layer :: Γ.ofReceiver own) 0 own := by
  constructor
  · rw [Layers.find?_cons, if_neg (by simpa using (params_mem hp).1), Layers.ofReceiver,
      Layers.find?_cons]
    rfl
  · rfl
  · exact ⟨decl, hdecl, _, rfl⟩

/-- A method stands in its class. -/
theorem method {decl : FunctionDecl} {own : List FunctionDecl} (hdecl : decl ∈ own)
    (hp : decl.function.Proper) (name : Token) (superclass : Option Reference)
    (statics : List FunctionDecl) (Γ : Layers) :
    Fits (if superclass.isSome then .subclass else .rootClass)
      (decl.function.layer :: (Γ.ofClass name superclass own statics).ofReceiver own) := by
  cases superclass with
  | none => exact ⟨0, own, inMethod hdecl hp _⟩
  | some ref =>
    refine ⟨0, own, ref, statics, inMethod hdecl hp _, ?_, rfl⟩
    rw [Layers.find?_cons, if_neg (by simpa using (params_mem hp).2), Layers.ofReceiver,
      Layers.find?_cons]
    rfl

end ClassKind.Fits

/-- An occurrence in the role may have the name in these scopes. -/
def Role.Allows : Role → Token → Layers → Prop
  | read, name, _ | target, name, _ => name.IsName
  | this, name, Γ => name.lexeme = "this" ∧ ∃ depth own, Γ.InMethod depth own
  | super, name, Γ => name.lexeme = "super" ∧
    ∃ depth own superclass statics, Γ.InSubclass depth own superclass statics

/-- The hops of an occurrence lead to the innermost scope that has its name. -/
structure Occurrence.Found (o : Occurrence) (hops : HopMap) : Prop where
  hops : hops[o.id]? = o.layers.find? o.ref.name.lexeme
  allowed : o.role.Allows o.ref.name o.layers

namespace Resolution

/-- A walk without a report, over occurrences that are met for the first time. -/
structure Clean (r r' : Resolution) (ids : List NodeId) : Prop where
  nodup : ids.Nodup
  unseen : ∀ id ∈ ids, r.hops[id]? = none
  log : r'.log = []

namespace Clean

variable {r r₁ r₂ r' : Resolution} {ids ids' : List NodeId}

theorem left (h : Clean r r' (ids ++ ids')) (hw : Walk r₁ r' ids') : Clean r r₁ ids := by
  constructor
  · exact (List.nodup_append.1 h.nodup).1
  · exact fun id hid => h.unseen id (List.mem_append_left _ hid)
  · exact hw.log h.log

theorem right (h : Clean r r' (ids ++ ids')) (hw : Walk r r₁ ids) : Clean r₁ r' ids' := by
  obtain ⟨_, hnodup, hdisjoint⟩ := List.nodup_append.1 h.nodup
  refine ⟨hnodup, ?_, h.log⟩
  intro id hid
  rw [hw.hops id fun hleft => hdisjoint id hleft id hid rfl]
  exact h.unseen id (List.mem_append_right _ hid)

/-- What opens or closes a scope may be left out. -/
theorem skip (h : Clean r r' ids) (hw : Walk r r₁ []) (hw' : Walk r₂ r' []) : Clean r₁ r₂ ids := by
  refine ⟨h.nodup, ?_, hw'.log h.log⟩
  intro id hid
  rw [hw.hops id List.not_mem_nil]
  exact h.unseen id hid

/-- The occurrences of a part are found also after what follows. -/
theorem append {os os' : List Occurrence} (h : Clean r r' (ids ++ ids')) (hw : Walk r₁ r' ids')
    (hids : os.map Occurrence.id = ids) (hos : ∀ o ∈ os, o.Found r₁.hops)
    (hos' : ∀ o ∈ os', o.Found r'.hops) : ∀ o ∈ os ++ os', o.Found r'.hops := by
  intro o ho
  rcases List.mem_append.1 ho with ho | ho
  · have hid : o.id ∈ ids := by
      rw [← hids]
      exact List.mem_map_of_mem ho
    have hkept := hw.hops o.id fun hright => (List.nodup_append.1 h.nodup).2.2 _ hid _ hright rfl
    exact ⟨by rw [hkept, (hos o ho).hops], (hos o ho).allowed⟩
  · exact hos' o ho

theorem same {os : List Occurrence} (hw : Walk r r' []) (hos : ∀ o ∈ os, o.Found r.hops) :
    ∀ o ∈ os, o.Found r'.hops := by
  intro o ho
  exact ⟨by rw [hw.hops o.id List.not_mem_nil, (hos o ho).hops], (hos o ho).allowed⟩

end Clean

section

variable {r : Resolution} {Γ : Layers}

theorem record_hops (ht : Tracks r Γ) (ref : Reference) (isRead : Bool)
    (hunseen : r.hops[ref.id]? = none) :
    (r.record ref isRead).hops[ref.id]? = Γ.find? ref.name.lexeme := by
  rw [hops_record, findIdx?_scopes ht]
  cases hfind : Γ.find? ref.name.lexeme with
  | none => simpa using hunseen
  | some depth => simp

theorem record_found (ht : Tracks r Γ) (role : Role) {ref : Reference} (isRead : Bool)
    (hunseen : r.hops[ref.id]? = none) (hallowed : role.Allows ref.name Γ) :
    ∀ o ∈ [(⟨role, ref, Γ⟩ : Occurrence)], o.Found (r.record ref isRead).hops := by
  intro o ho
  obtain rfl := List.mem_singleton.1 ho
  exact ⟨record_hops ht ref isRead hunseen, hallowed⟩

theorem readVariable_eq {ref : Reference} (h : (readVariable ref r).log = []) :
    readVariable ref r = r.record ref true := by
  unfold readVariable at h ⊢
  split
  next hown =>
    rw [if_pos hown] at h
    exact absurd ((walk_record ref true).log h) (log_report _ _)
  next => rfl

theorem readKeyword_eq {ref : Reference} {fault? : Option ScopeFault}
    (h : (readKeyword ref fault? r).log = []) :
    fault? = none ∧ readKeyword ref fault? r = r.record ref true := by
  cases fault? with
  | none => exact ⟨rfl, rfl⟩
  | some fault => exact absurd h (log_report _ _)

theorem this_allowed {c : ClassKind} (hfits : c.Fits Γ) (h : c.thisFault? = none) :
    ∃ depth own, Γ.InMethod depth own := by
  cases c with
  | noClass => exact nomatch h
  | staticMethod => exact nomatch h
  | rootClass => exact hfits
  | subclass =>
    obtain ⟨depth, own, superclass, statics, hin⟩ := hfits
    exact ⟨depth, own, hin.toInMethod⟩

theorem super_allowed {c : ClassKind} (hfits : c.Fits Γ) (h : c.superFault? = none) :
    ∃ depth own superclass statics, Γ.InSubclass depth own superclass statics := by
  cases c with
  | noClass => exact nomatch h
  | staticMethod => exact nomatch h
  | rootClass => exact nomatch h
  | subclass => exact hfits

/-- A superclass is not the class itself, so it is the same name outside. -/
theorem superclass_found (ht : Tracks r (Γ.declare name.lexeme)) {superclass : Option Reference}
    (hp : ∀ ref ∈ superclass, ref.name.IsName)
    (hc : Clean r (openSuper name superclass r) (superclass.map Reference.id).toList) :
    ∀ o ∈ (superclass.map ((⟨.read, ·, Γ⟩) : Reference → Occurrence)).toList,
      o.Found (openSuper name superclass r).hops := by
  cases superclass with
  | none => exact List.forall_mem_nil _
  | some ref =>
    have hopen : Walk (readVariable ref r) _ [] :=
      walk_openScope.after (walk_bindImplicit "super" name)
    have hname : ref.name.lexeme ≠ name.lexeme := by
      intro heq
      have hlog := hc.log
      simp only [openSuper, if_pos heq] at hlog
      have hreport := (walk_openScope.after (walk_bindImplicit "super" name)).log hlog
      exact log_report _ _ ((walk_readVariable ref).log hreport)
    have hstep : openSuper name (some ref) r =
        (readVariable ref r).openScope.bindImplicit "super" name := by
      simp only [openSuper, if_neg hname]
    have hread := readVariable_eq (hopen.log (hstep ▸ hc.log))
    have hunseen := hc.unseen ref.id (List.mem_singleton_self _)
    intro o ho
    obtain rfl := List.mem_singleton.1 ho
    refine ⟨?_, hp ref rfl⟩
    rw [hstep, hopen.hops _ List.not_mem_nil, hread]
    exact (record_hops ht ref true hunseen).trans (Layers.find?_declare hname Γ)

end

theorem properAll_mem : ∀ {decls : List FunctionDecl}, FunctionDecl.ProperAll decls →
    ∀ {decl : FunctionDecl}, decl ∈ decls → decl.function.Proper
  | .mk _ _ :: _, hp, _, .head _ => hp.1
  | .mk _ _ :: _, hp, _, .tail _ hmem => properAll_mem hp.2 hmem

mutual

theorem expr_found (s : Surroundings) : ∀ (e : Expr) (r : Resolution) (Γ : Layers), e.Proper →
    s.cls.Fits Γ → Tracks r Γ → Clean r (expr s e r) e.ids →
    ∀ o ∈ e.occurrences Γ, o.Found (expr s e r).hops
  | .literal _, _, _, _, _, _, _ => List.forall_mem_nil _
  | .grouping inner, r, Γ, hp, hf, ht, hc => expr_found s inner r Γ hp hf ht hc
  | .unary _ right, r, Γ, hp, hf, ht, hc => expr_found s right r Γ hp hf ht hc
  | .binaryError _ right, r, Γ, hp, hf, ht, hc => expr_found s right r Γ hp hf ht hc
  | .get object _, r, Γ, hp, hf, ht, hc => expr_found s object r Γ hp hf ht hc
  | .binary left _ right, r, Γ, hp, hf, ht, hc => by
    obtain ⟨hl, htl⟩ := walk_expr s left r hp.1
    obtain ⟨hr, _⟩ := walk_expr s right (expr s left r) hp.2
    have hleft := expr_found s left r Γ hp.1 hf ht (hc.left hr)
    have hright := expr_found s right _ Γ hp.2 hf (htl Γ ht) (hc.right hl)
    exact hc.append hr (Expr.map_occurrences Γ left) hleft hright
  | .conditional condition thenBranch elseBranch, r, Γ, hp, hf, ht, hc => by
    obtain ⟨hwc, htc⟩ := walk_expr s condition r hp.1
    obtain ⟨hwt, htt⟩ := walk_expr s thenBranch (expr s condition r) hp.2.1
    obtain ⟨hwe, _⟩ := walk_expr s elseBranch (expr s thenBranch (expr s condition r)) hp.2.2
    have hbranches := hc.right hwc
    have hcondition := expr_found s condition r Γ hp.1 hf ht (hc.left (hwt.trans hwe))
    have hthen := expr_found s thenBranch _ Γ hp.2.1 hf (htc Γ ht) (hbranches.left hwe)
    have helse := expr_found s elseBranch _ Γ hp.2.2 hf (htt Γ (htc Γ ht)) (hbranches.right hwt)
    have hrest := hbranches.append hwe (Expr.map_occurrences Γ thenBranch) hthen helse
    exact hc.append (hwt.trans hwe) (Expr.map_occurrences Γ condition) hcondition hrest
  | .variable ref, r, Γ, hp, hf, ht, hc => by
    unfold expr at hc ⊢
    rw [readVariable_eq hc.log]
    exact record_found ht .read true (hc.unseen ref.id (List.mem_singleton_self _)) hp
  | .assign target value, r, Γ, hp, hf, ht, hc => by
    obtain ⟨hv, htv⟩ := walk_expr s value r hp.2
    have hrecord := walk_record (r := expr s value r) target false
    have hunseen := (hc.right hv).unseen target.id (List.mem_singleton_self _)
    have hvalue := expr_found s value r Γ hp.2 hf ht (hc.left hrecord)
    have htarget := record_found (htv Γ ht) .target false hunseen hp.1
    exact hc.append hrecord (Expr.map_occurrences Γ value) hvalue htarget
  | .call callee _ arguments, r, Γ, hp, hf, ht, hc => by
    obtain ⟨hwc, htc⟩ := walk_expr s callee r hp.1
    obtain ⟨hwa, _⟩ := walk_exprs s arguments (expr s callee r) hp.2
    have hcallee := expr_found s callee r Γ hp.1 hf ht (hc.left hwa)
    have harguments := exprs_found s arguments _ Γ hp.2 hf (htc Γ ht) (hc.right hwc)
    exact hc.append hwa (Expr.map_occurrences Γ callee) hcallee harguments
  | .set object _ value, r, Γ, hp, hf, ht, hc => by
    obtain ⟨hwv, htv⟩ := walk_expr s value r hp.2
    obtain ⟨hwo, _⟩ := walk_expr s object (expr s value r) hp.1
    have hvalue := expr_found s value r Γ hp.2 hf ht (hc.left hwo)
    have hobject := expr_found s object _ Γ hp.1 hf (htv Γ ht) (hc.right hwv)
    exact hc.append hwo (Expr.map_occurrences Γ value) hvalue hobject
  | .this ref, r, Γ, hp, hf, ht, hc => by
    unfold expr at hc ⊢
    obtain ⟨hfault, heq⟩ := readKeyword_eq hc.log
    rw [heq]
    have hunseen := hc.unseen ref.id (List.mem_singleton_self _)
    exact record_found ht .this true hunseen ⟨hp, this_allowed hf hfault⟩
  | .super ref _, r, Γ, hp, hf, ht, hc => by
    unfold expr at hc ⊢
    obtain ⟨hfault, heq⟩ := readKeyword_eq hc.log
    rw [heq]
    have hunseen := hc.unseen ref.id (List.mem_singleton_self _)
    exact record_found ht .super true hunseen ⟨hp, super_allowed hf hfault⟩
  | .lambda function, r, Γ, hp, hf, ht, hc =>
    lambda_found _ function r Γ hp (hf.lambda hp) ht hc

theorem exprs_found (s : Surroundings) : ∀ (es : List Expr) (r : Resolution) (Γ : Layers),
    Expr.ProperAll es → s.cls.Fits Γ → Tracks r Γ → Clean r (exprs s es r) (Expr.idsAll es) →
    ∀ o ∈ Expr.occurrencesAll Γ es, o.Found (exprs s es r).hops
  | [], _, _, _, _, _, _ => List.forall_mem_nil _
  | e :: rest, r, Γ, hp, hf, ht, hc => by
    obtain ⟨hwe, hte⟩ := walk_expr s e r hp.1
    obtain ⟨hws, _⟩ := walk_exprs s rest (expr s e r) hp.2
    have hfirst := expr_found s e r Γ hp.1 hf ht (hc.left hws)
    have hrest := exprs_found s rest _ Γ hp.2 hf (hte Γ ht) (hc.right hwe)
    exact hc.append hws (Expr.map_occurrences Γ e) hfirst hrest

theorem optionalExpr_found (s : Surroundings) : ∀ (e? : Option Expr) (r : Resolution) (Γ : Layers),
    Expr.Proper? e? → s.cls.Fits Γ → Tracks r Γ → Clean r (optionalExpr s e? r) (Expr.ids? e?) →
    ∀ o ∈ Expr.occurrences? Γ e?, o.Found (optionalExpr s e? r).hops
  | none, _, _, _, _, _, _ => List.forall_mem_nil _
  | some e, r, Γ, hp, hf, ht, hc => expr_found s e r Γ hp hf ht hc

theorem stmt_found (s : Surroundings) : ∀ (st : Stmt) (r : Resolution) (Γ : Layers), st.Proper →
    s.cls.Fits Γ → Tracks r Γ → Clean r (stmt s st r) st.ids →
    ∀ o ∈ st.occurrences Γ, o.Found (stmt s st r).hops
  | .expression e, r, Γ, hp, hf, ht, hc => expr_found s e r Γ hp hf ht hc
  | .print e, r, Γ, hp, hf, ht, hc => expr_found s e r Γ hp hf ht hc
  | .var name initializer, r, Γ, hp, hf, ht, hc => by
    have hdefine := walk_define (r := optionalExpr s initializer (r.declare name)) name
    have hinit := optionalExpr_found s initializer (r.declare name) _ hp.2 (hf.declare hp.1)
      (tracks_declare ht name) (hc.skip (walk_declare name) hdefine)
    exact Clean.same hdefine hinit
  | .block body, r, Γ, hp, hf, ht, hc => by
    have hclose := walk_closeScope (r := stmts s body r.openScope)
    have hbody := stmts_found s body r.openScope _ hp
      (hf.push (l := ⟨.block body, []⟩) List.not_mem_nil List.not_mem_nil)
      (tracks_openScope ht (.block body)) (hc.skip walk_openScope hclose)
    exact Clean.same hclose hbody
  | .ite condition thenBranch elseBranch, r, Γ, hp, hf, ht, hc => by
    obtain ⟨hpc, ⟨hdeclared, hpt⟩, hpe⟩ := hp
    obtain ⟨hwc, htc⟩ := walk_expr s condition r hpc
    obtain ⟨hwt, htt⟩ := walk_stmt s thenBranch (expr s condition r) hpt
    obtain ⟨hwe, _⟩ := walk_optionalStmt s elseBranch (stmt s thenBranch (expr s condition r)) hpe
    have htthen := tracks_undeclared hdeclared htt Γ (htc Γ ht)
    have hbranches := hc.right hwc
    have hcondition := expr_found s condition r Γ hpc hf ht (hc.left (hwt.trans hwe))
    have hthen := stmt_found s thenBranch _ Γ hpt hf (htc Γ ht) (hbranches.left hwe)
    have helse := optionalStmt_found s elseBranch _ Γ hpe hf htthen (hbranches.right hwt)
    have hrest := hbranches.append hwe (Stmt.map_occurrences Γ thenBranch) hthen helse
    exact hc.append (hwt.trans hwe) (Expr.map_occurrences Γ condition) hcondition hrest
  | .loop condition body increment, r, Γ, hp, hf, ht, hc => by
    obtain ⟨hpc, ⟨hdeclared, hpb⟩, hpi⟩ := hp
    obtain ⟨hwc, htc⟩ := walk_expr s condition r hpc
    obtain ⟨hwb, htb⟩ := walk_stmt s body (expr s condition r) hpb
    obtain ⟨hwi, _⟩ := walk_optionalExpr s increment (stmt s body (expr s condition r)) hpi
    have htbody := tracks_undeclared hdeclared htb Γ (htc Γ ht)
    have hturn := hc.right hwc
    have hcondition := expr_found s condition r Γ hpc hf ht (hc.left (hwb.trans hwi))
    have hbody := stmt_found s body _ Γ hpb hf (htc Γ ht) (hturn.left hwi)
    have hincrement := optionalExpr_found s increment _ Γ hpi hf htbody (hturn.right hwb)
    have hrest := hturn.append hwi (Stmt.map_occurrences Γ body) hbody hincrement
    exact hc.append (hwb.trans hwi) (Expr.map_occurrences Γ condition) hcondition hrest
  | .break _, _, _, _, _, _, _ | .continue _, _, _, _, _, _, _
  | .breakError _, _, _, _, _, _, _ | .continueError _, _, _, _, _, _, _ =>
    List.forall_mem_nil _
  | .function (.mk name function), r, Γ, hp, hf, ht, hc => by
    have hdefined := (walk_declare (r := r) name).after (walk_define name)
    exact lambda_found _ function _ _ hp.2 ((hf.declare hp.1).lambda hp.2)
      (tracks_define (tracks_declare ht name) name) (hc.skip hdefined (.refl _))
  | .return keyword value, r, Γ, hp, hf, ht, hc =>
    optionalExpr_found s value _ Γ hp hf (tracks_returnFaults ht keyword _ _)
      (hc.skip (walk_returnFaults keyword _ _) (.refl _))
  | .class name superclass own statics, r, Γ, hp, hf, ht, hc => by
    obtain ⟨hpn, hps, hpo, hpt⟩ := hp
    let cls := if superclass.isSome then ClassKind.subclass else .rootClass
    let r₀ := (r.declare name).define name
    let r₁ := openSuper name superclass r₀
    let r₂ := r₁.openScope.bindImplicit "this" name
    let r₃ := methods { s with cls } own r₂
    let r₄ := staticMethods { s with cls := .staticMethod } statics r₃.closeScope
    have hopen : Walk r₁ r₂ [] := walk_openScope.after (walk_bindImplicit "this" name)
    have hclose : Walk r₄ (stmt s (.class name superclass own statics) r) [] := by
      cases superclass with
      | none => exact .refl _
      | some ref => exact walk_closeScope
    obtain ⟨hwo, hto⟩ := walk_methods { s with cls } own r₂ hpo
    obtain ⟨hws, _⟩ := walk_staticMethods { s with cls := .staticMethod } statics r₃.closeScope hpt
    have hreceiver : Walk r₁ r₃.closeScope _ := hopen.after (hwo.before walk_closeScope)
    have hwsuper : Walk r₀ r₁ _ := walk_openSuper name superclass
    have ht₀ : Tracks r₀ (Γ.declare name.lexeme) := tracks_define (tracks_declare ht name) name
    have ht₁ : Tracks r₁ _ := tracks_openSuper ht₀ superclass own statics
    have ht₂ : Tracks r₂ (Layers.ofReceiver own _) :=
      tracks_bindImplicit "this" name _ (tracks_openScope ht₁ (.receiver own))
    have hall := hc.skip ((walk_declare name).after (walk_define name)) hclose
    have hmembers := hall.right hwsuper
    have hsuper := superclass_found ht₀ hps (hall.left (hreceiver.trans hws))
    have hown := methods_found { s with cls } own r₂ _ hpo
      (fun decl hdecl => .method hdecl (properAll_mem hpo hdecl) name superclass statics Γ) ht₂
      ((hmembers.left hws).skip hopen walk_closeScope)
    have hstatics := staticMethods_found { s with cls := .staticMethod } statics _ _ hpt
      (fun _ _ => trivial) (tracks_closeScope (hto _ ht₂)) (hmembers.right hreceiver)
    have hbodies := hmembers.append hws (FunctionDecl.map_occurrencesAll _ own)
      (Clean.same walk_closeScope hown) hstatics
    have hids : (superclass.map ((⟨.read, ·, Γ⟩) : Reference → Occurrence)).toList.map
        Occurrence.id = (superclass.map Reference.id).toList := by
      cases superclass <;> rfl
    exact Clean.same hclose (hall.append (hreceiver.trans hws) hids hsuper hbodies)

theorem optionalStmt_found (s : Surroundings) : ∀ (st? : Option Stmt) (r : Resolution) (Γ : Layers),
    Stmt.Proper? st? → s.cls.Fits Γ → Tracks r Γ → Clean r (optionalStmt s st? r) (Stmt.ids? st?) →
    ∀ o ∈ Stmt.occurrences? Γ st?, o.Found (optionalStmt s st? r).hops
  | none, _, _, _, _, _, _ => List.forall_mem_nil _
  | some st, r, Γ, hp, hf, ht, hc => stmt_found s st r Γ hp.2 hf ht hc

theorem stmts_found (s : Surroundings) : ∀ (body : List Stmt) (r : Resolution) (Γ : Layers),
    Stmt.ProperAll body → s.cls.Fits Γ → Tracks r Γ →
    Clean r (stmts s body r) (Stmt.idsAll body) →
    ∀ o ∈ Stmt.occurrencesAll Γ body, o.Found (stmts s body r).hops
  | [], _, _, _, _, _, _ => List.forall_mem_nil _
  | st :: rest, r, Γ, hp, hf, ht, hc => by
    obtain ⟨hw, htst⟩ := walk_stmt s st r hp.1
    obtain ⟨hws, _⟩ := walk_stmts s rest (stmt s st r) hp.2
    have hfirst := stmt_found s st r Γ hp.1 hf ht (hc.left hws)
    have hrest := stmts_found s rest _ _ hp.2 (hf.after hp.1) (htst Γ ht) (hc.right hw)
    exact hc.append hws (Stmt.map_occurrences Γ st) hfirst hrest

theorem lambda_found (s : Surroundings) : ∀ (f : Lambda) (r : Resolution) (Γ : Layers), f.Proper →
    s.cls.Fits (f.layer :: Γ) → Tracks r Γ → Clean r (lambda s f r) f.ids →
    ∀ o ∈ f.occurrences Γ, o.Found (lambda s f r).hops
  | .mk params body, r, Γ, hp, hf, ht, hc => by
    have hclose := walk_closeScope
      (r := stmts s body (params.foldl (fun r p => r.declareParameter p) r.openScope))
    have hopen := (walk_openScope (r := r)).after (walk_parameters params)
    have hbody := stmts_found s body _ _ hp.2 hf (tracks_function ht (.mk params body))
      (hc.skip hopen hclose)
    exact Clean.same hclose hbody

/-- Methods are walked over inside the class that they belong to. -/
theorem methods_found (s : Surroundings) : ∀ (decls : List FunctionDecl)
    (r : Resolution) (Γ : Layers), FunctionDecl.ProperAll decls →
    (∀ decl ∈ decls, s.cls.Fits (decl.function.layer :: Γ)) → Tracks r Γ →
    Clean r (methods s decls r) (FunctionDecl.idsAll decls) →
    ∀ o ∈ FunctionDecl.occurrencesAll Γ decls, o.Found (methods s decls r).hops
  | [], _, _, _, _, _, _ => List.forall_mem_nil _
  | .mk name function :: rest, r, Γ, hp, hf, ht, hc => by
    let inner := { s with body := if name.lexeme = "init" then BodyKind.initializer else .method }
    obtain ⟨hw, htf⟩ := walk_lambda inner function r hp.1
    obtain ⟨hws, _⟩ := walk_methods s rest (lambda inner function r) hp.2
    rw [List.forall_mem_cons] at hf
    have hfirst := lambda_found inner function r Γ hp.1 hf.1 ht (hc.left hws)
    have hrest := methods_found s rest _ Γ hp.2 hf.2 (htf Γ ht) (hc.right hw)
    exact hc.append hws (Lambda.map_occurrences Γ function) hfirst hrest

theorem staticMethods_found (s : Surroundings) : ∀ (decls : List FunctionDecl)
    (r : Resolution) (Γ : Layers), FunctionDecl.ProperAll decls →
    (∀ decl ∈ decls, s.cls.Fits (decl.function.layer :: Γ)) → Tracks r Γ →
    Clean r (staticMethods s decls r) (FunctionDecl.idsAll decls) →
    ∀ o ∈ FunctionDecl.occurrencesAll Γ decls, o.Found (staticMethods s decls r).hops
  | [], _, _, _, _, _, _ => List.forall_mem_nil _
  | .mk _ function :: rest, r, Γ, hp, hf, ht, hc => by
    let inner := { s with body := BodyKind.function }
    obtain ⟨hw, htf⟩ := walk_lambda inner function r hp.1
    obtain ⟨hws, _⟩ := walk_staticMethods s rest (lambda inner function r) hp.2
    rw [List.forall_mem_cons] at hf
    have hfirst := lambda_found inner function r Γ hp.1 hf.1 ht (hc.left hws)
    have hrest := staticMethods_found s rest _ Γ hp.2 hf.2 (htf Γ ht) (hc.right hw)
    exact hc.append hws (Lambda.map_occurrences Γ function) hfirst hrest

end

end Resolution

theorem Resolution.hops_start (id : NodeId) : Resolution.start.hops[id]? = none :=
  Std.TreeMap.getElem?_emptyc

theorem resolve_walk : ∀ {p : Program}, p.Proper → Walk .start (resolve p) p.ids
  | .statements body, hp => (Resolution.walk_stmts .topLevel body .start hp).1
  | .expression e, hp => (Resolution.walk_expr .topLevel e .start hp).1

/-- What the resolver accepts it finds, and nothing else gets hops. -/
theorem resolve_found {p : Program} (hp : p.Proper) (hnodup : p.ids.Nodup)
    (hlog : (resolve p).log = []) : ∀ o ∈ p.occurrences, o.Found (resolve p).hops := by
  have hclean : Resolution.Clean .start (resolve p) p.ids :=
    ⟨hnodup, fun id _ => Resolution.hops_start id, hlog⟩
  cases p with
  | statements body => exact Resolution.stmts_found .topLevel body .start [] hp trivial rfl hclean
  | expression e => exact Resolution.expr_found .topLevel e .start [] hp trivial rfl hclean

theorem resolve_other {p : Program} (hp : p.Proper) {id : NodeId} (hid : id ∉ p.ids) :
    (resolve p).hops[id]? = none :=
  ((resolve_walk hp).hops id hid).trans (Resolution.hops_start id)

end Lox
