import Lox.Proofs.Renaming.Words
import Lox.Proofs.Scope.Walk
import Mathlib.Data.List.Nodup
import Mathlib.Data.List.Pairwise

/-!
What is distinct in a text of which the resolver reports nothing: within one scope each name is
declared once, be it by a variable, a parameter, a function or a class.
-/

namespace Lox

/-- A local declaration is in its scope, and nothing else there is declared with its name. -/
structure Word.Distinct (w : Word) : Prop where
  own : w.use = .variable → w.scopes ≠ [] → w.token ∈ w.scopes.headD []
  only : w.use = .variable ∨ w.use = .named → ∀ t ∈ w.scopes.headD [],
    t.lexeme = w.token.lexeme → w.use = .variable ∧ t = w.token

/-- If the statement declares something, a variable of the innermost scope that has the name is what
the statement declares. -/
structure Stmt.Distinct (Γ : List (List Token)) (st : Stmt) : Prop where
  own : ∀ t, st.variable? = some t → Γ ≠ [] → t ∈ Γ.headD []
  only : ∀ name, st.declared? = some name → ∀ t ∈ Γ.headD [], t.lexeme = name.lexeme →
    st.variable? = some t

theorem distinct_other (t : Token) (Γ : List (List Token)) : Word.Distinct ⟨.other, t, Γ⟩ :=
  ⟨nofun, fun h => h.elim nofun nofun⟩

theorem distinct_reference (ref : Reference) (Γ : List (List Token)) : (ref.word Γ).Distinct :=
  ⟨nofun, fun h => h.elim nofun nofun⟩

theorem declared_of_variable {st : Stmt} {t : Token} (h : st.variable? = some t) :
    st.declared? = some t := by
  cases st with
  | var name initializer => exact h
  | _ => cases h

theorem distinct_named {st : Stmt} {name : Token} {Γ : List (List Token)}
    (hname : st.declared? = some name) (hv : st.variable? = none) (h : st.Distinct Γ) :
    Word.Distinct ⟨.named, name, Γ⟩ := by
  refine ⟨nofun, fun _ t ht heq => ?_⟩
  have hvariable := h.only name hname t ht heq
  rw [hv] at hvariable
  cases hvariable

theorem distinct_of_undeclared {st : Stmt} (h : st.declared? = none) (Γ : List (List Token)) :
    st.Distinct Γ := by
  constructor
  · intro t ht
    rw [declared_of_variable ht] at h
    cases h
  · intro name hname
    rw [h] at hname
    cases hname

/-- The names that a body declares in its own scope. -/
def Stmt.declaredNames (body : List Stmt) : List String :=
  (body.filterMap Stmt.declared?).map Token.lexeme

/-- Two statements do not declare the same name. -/
def Stmt.Differ (st st' : Stmt) : Prop :=
  ∀ name, st.declared? = some name → ∀ name', st'.declared? = some name' → name.lexeme ≠ name'.lexeme

instance : Std.Symm Stmt.Differ := ⟨fun _ _ h name hname name' hname' =>
  (h name' hname' name hname).symm⟩

namespace Resolution

variable {r : Resolution} {l : Layer} {L : Layers}

theorem declare_fresh (ht : Tracks r (l :: L)) {name : Token} (hlog : (r.declare name).log = []) :
    name.lexeme ∉ l.names := by
  unfold Tracks names Layers.view at ht
  unfold declare at hlog
  cases hs : r.scopes with
  | nil =>
    rw [hs] at ht
    cases ht
  | cons s rest =>
    rw [hs, List.map_cons, List.map_cons] at ht
    have hhead := congrFun (List.cons.inj ht).1 name.lexeme
    rw [hs] at hlog
    simp only at hlog
    by_cases hc : s.contains name.lexeme = true
    · rw [if_pos hc] at hlog
      exact absurd hlog (log_report _ _)
    · rw [Bool.eq_false_iff.2 hc] at hhead
      simpa using hhead.symm

/-- What is reported inside a class statement is reported of the statement. -/
theorem log_class (s : Surroundings) {name : Token} {superclass : Option Reference}
    {own statics : List FunctionDecl} (hpo : FunctionDecl.ProperAll own)
    (hpt : FunctionDecl.ProperAll statics)
    (hlog : (stmt s (.class name superclass own statics) r).log = []) :
    let r₁ := openSuper name superclass ((r.declare name).define name)
    let r₂ := methods { s with cls := if superclass.isSome then ClassKind.subclass else .rootClass }
      own (r₁.openScope.bindImplicit "this" name)
    (r.declare name).log = [] ∧ r₂.log = [] ∧
      (staticMethods { s with cls := .staticMethod } statics r₂.closeScope).log = [] := by
  intro r₁ r₂
  have hsuper := (walk_openSuper (r := (r.declare name).define name) name superclass).log
  have hown := (walk_methods { s with cls := if superclass.isSome then ClassKind.subclass else .rootClass }
    own (r₁.openScope.bindImplicit "this" name) hpo).1.log
  have hstatics := (walk_staticMethods { s with cls := .staticMethod } statics r₂.closeScope hpt).1.log
  have hend : (staticMethods { s with cls := .staticMethod } statics r₂.closeScope).log = [] := by
    cases superclass with
    | none => exact hlog
    | some ref => exact walk_closeScope.log hlog
  have hmethods := walk_closeScope.log (hstatics hend)
  have hopen := walk_openScope.log ((walk_bindImplicit "this" name).log (hown hmethods))
  exact ⟨(walk_define name).log (hsuper hopen), hmethods, hend⟩

/-- What a statement declares was not there before. -/
theorem declared_fresh (s : Surroundings) {st : Stmt} (hp : st.Proper) (ht : Tracks r (l :: L))
    (hlog : (stmt s st r).log = []) {name : Token} (hname : st.declared? = some name) :
    name.lexeme ∉ l.names := by
  cases st with
  | var other initializer =>
    obtain rfl := Option.some.inj hname
    have hwalk := (walk_optionalExpr s initializer (r.declare other) hp.2).1
    exact declare_fresh ht (hwalk.log ((walk_define other).log hlog))
  | function decl =>
    obtain ⟨other, function⟩ := decl
    obtain rfl := Option.some.inj hname
    have hwalk := (walk_lambda { s with body := .function } function
      ((r.declare other).define other) hp.2).1
    exact declare_fresh ht ((walk_define other).log (hwalk.log hlog))
  | «class» other superclass own statics =>
    obtain rfl := Option.some.inj hname
    exact declare_fresh ht (log_class s hp.2.2.1 hp.2.2.2 hlog).1
  | _ => cases hname

/-- The statements of a body declare names that are distinct and were not there before. -/
theorem declaredNames_distinct (s : Surroundings) : ∀ (body : List Stmt) {r : Resolution} {l : Layer},
    Stmt.ProperAll body → Tracks r (l :: L) → (stmts s body r).log = [] →
    (Stmt.declaredNames body).Nodup ∧ ∀ x ∈ Stmt.declaredNames body, x ∉ l.names
  | [], _, _, _, _, _ => ⟨List.nodup_nil, nofun⟩
  | st :: rest, r, l, hp, ht, hlog => by
    have hlog' := (walk_stmts s rest (stmt s st r) hp.2).1.log hlog
    have htst := (walk_stmt s st r hp.1).2 _ ht
    unfold Stmt.declaredNames
    cases hd : st.declared? with
    | none =>
      rw [Layers.after_undeclared hd] at htst
      rw [List.filterMap_cons_none hd]
      exact declaredNames_distinct s rest hp.2 htst hlog
    | some name =>
      rw [Layers.after_declared hd] at htst
      obtain ⟨hnodup, hfresh⟩ := declaredNames_distinct s rest hp.2 htst hlog
      rw [List.filterMap_cons_some hd, List.map_cons]
      refine ⟨List.nodup_cons.2 ⟨fun hmem => hfresh _ hmem List.mem_cons_self, hnodup⟩, ?_⟩
      rw [List.forall_mem_cons]
      exact ⟨declared_fresh s hp.1 ht hlog' hd, fun x hx hl => hfresh x hx (List.mem_cons_of_mem _ hl)⟩

/-- The scope of a body has the parameters and the variables of the body. -/
theorem body_distinct (s : Surroundings) {body : List Stmt} (hp : Stmt.ProperAll body)
    (ht : Tracks r (l :: L)) (hlog : (stmts s body r).log = []) {params : List Token}
    (hparams : ∀ p ∈ params, p.lexeme ∈ l.names) (Γ : List (List Token)) :
    ∀ st ∈ body, st.Distinct ((params ++ Stmt.variables body) :: Γ) := by
  obtain ⟨hnodup, hfresh⟩ := declaredNames_distinct s body hp ht hlog
  intro st hst
  constructor
  · intro t hvariable _
    exact List.mem_append_right _ (List.mem_filterMap.2 ⟨st, hst, hvariable⟩)
  · intro name hname t hmem heq
    have hdeclared : name ∈ body.filterMap Stmt.declared? := List.mem_filterMap.2 ⟨st, hst, hname⟩
    rw [List.headD_cons, List.mem_append] at hmem
    rcases hmem with hparam | hvariable
    · exact absurd (heq ▸ hparams t hparam) (hfresh _ (List.mem_map_of_mem hdeclared))
    · obtain ⟨other, hother, hv⟩ := List.mem_filterMap.1 hvariable
      -- Two statements that declare one name are one statement.
      have hsame : st = other := by
        unfold Stmt.declaredNames List.Nodup at hnodup
        rw [List.pairwise_map, List.pairwise_filterMap] at hnodup
        have hdiffer : body.Pairwise Stmt.Differ := hnodup
        by_contra hne
        exact hdiffer.forall hst hother hne name hname t (declared_of_variable hv) heq.symm
      rw [hsame]
      exact hv

/-- The parameters of a function have distinct names. -/
theorem parameters_distinct (params : List Token) {r : Resolution} {l : Layer}
    (ht : Tracks r (l :: L)) (hlog : (params.foldl (fun r p => r.declareParameter p) r).log = []) :
    (params.map Token.lexeme).Nodup ∧ ∀ p ∈ params, p.lexeme ∉ l.names := by
  induction params generalizing r l with
  | nil => exact ⟨List.nodup_nil, List.forall_mem_nil _⟩
  | cons p params ih =>
    have hdeclared : (r.declare p).log = [] := by
      have hfirst := (walk_parameters (r := r.declareParameter p) params).log hlog
      exact (walk_define p).log ((modifyInnermost_eq _ _).2.log hfirst)
    have htracks : Tracks (r.declareParameter p) (⟨l.scope, p.lexeme :: l.names⟩ :: L) :=
      (modifyInnermost_eq _ _).1.trans (tracks_define (tracks_declare ht p) p)
    obtain ⟨hnodup, hfresh⟩ := ih htracks hlog
    refine ⟨List.nodup_cons.2 ⟨fun hmem => ?_, hnodup⟩, List.forall_mem_cons.2
      ⟨declare_fresh ht hdeclared, fun q hq hl => hfresh q hq (List.mem_cons_of_mem _ hl)⟩⟩
    obtain ⟨q, hq, heq⟩ := List.mem_map.1 hmem
    exact hfresh q hq (heq ▸ List.mem_cons_self)

theorem parameter_distinct (s : Surroundings) {f : Lambda} (hp : f.Proper) (ht : Tracks r L)
    (hlog : (lambda s f r).log = []) (Γ : List (List Token)) :
    ∀ p ∈ f.params, Word.Distinct ⟨.variable, p, (f.params ++ Stmt.variables f.body) :: Γ⟩ := by
  obtain ⟨params, body⟩ := f
  have hbody := walk_closeScope.log hlog
  have hopen := (walk_stmts s body _ hp.2).1.log hbody
  obtain ⟨hnodup, _⟩ := parameters_distinct params
    (tracks_openScope ht (.function (.mk params body))) hopen
  obtain ⟨_, hfresh⟩ := declaredNames_distinct s body hp.2
    (tracks_function ht (.mk params body)) hbody
  intro p hmem
  refine ⟨fun _ _ => List.mem_append_left _ hmem, fun _ t ht heq => ⟨rfl, ?_⟩⟩
  rcases List.mem_append.1 ht with hparam | hvariable
  · exact List.inj_on_of_nodup_map hnodup hparam hmem heq
  · obtain ⟨st, hst, hv⟩ := List.mem_filterMap.1 hvariable
    have hdeclared := List.mem_filterMap.2 ⟨st, hst, declared_of_variable hv⟩
    exact absurd (List.mem_map_of_mem hmem : p.lexeme ∈ params.map Token.lexeme)
      (heq ▸ hfresh _ (List.mem_map_of_mem hdeclared))

mutual

theorem expr_distinct (s : Surroundings) : ∀ (e : Expr) (Γ : List (List Token)) {r : Resolution}
    {L : Layers}, e.Proper → Tracks r L → (expr s e r).log = [] → ∀ w ∈ e.words Γ, w.Distinct
  | .literal _, _, _, _, _, _, _ => List.forall_mem_nil _
  | .grouping inner, Γ, _, _, hp, ht, hlog => expr_distinct s inner Γ hp ht hlog
  | .unary _ right, Γ, _, _, hp, ht, hlog =>
    List.forall_mem_cons.2 ⟨distinct_other _ Γ, expr_distinct s right Γ hp ht hlog⟩
  | .binaryError _ right, Γ, _, _, hp, ht, hlog =>
    List.forall_mem_cons.2 ⟨distinct_other _ Γ, expr_distinct s right Γ hp ht hlog⟩
  | .binary left _ right, Γ, r, _, hp, ht, hlog => by
    have hlog' := (walk_expr s right _ hp.2).1.log hlog
    have hleft := expr_distinct s left Γ hp.1 ht hlog'
    have hright := expr_distinct s right Γ hp.2 ((walk_expr s left r hp.1).2 _ ht) hlog
    exact List.forall_mem_append.2 ⟨hleft, List.forall_mem_cons.2 ⟨distinct_other _ Γ, hright⟩⟩
  | .conditional condition thenBranch elseBranch, Γ, r, L, hp, ht, hlog => by
    have hlogt := (walk_expr s elseBranch _ hp.2.2).1.log hlog
    have hlogc := (walk_expr s thenBranch _ hp.2.1).1.log hlogt
    have htc := (walk_expr s condition r hp.1).2 L ht
    have htt := (walk_expr s thenBranch _ hp.2.1).2 L htc
    simp only [Expr.words, List.forall_mem_append]
    exact ⟨expr_distinct s condition Γ hp.1 ht hlogc, expr_distinct s thenBranch Γ hp.2.1 htc hlogt,
      expr_distinct s elseBranch Γ hp.2.2 htt hlog⟩
  | .variable ref, Γ, _, _, _, _, _ | .this ref, Γ, _, _, _, _, _ =>
    List.forall_mem_singleton.2 (distinct_reference ref Γ)
  | .assign target value, Γ, r, _, hp, ht, hlog => by
    have hvalue := expr_distinct s value Γ hp.2 ht ((walk_record target false).log hlog)
    exact List.forall_mem_cons.2 ⟨distinct_reference target Γ, hvalue⟩
  | .call callee _ arguments, Γ, r, _, hp, ht, hlog => by
    have hlog' := (walk_exprs s arguments _ hp.2).1.log hlog
    have hcallee := expr_distinct s callee Γ hp.1 ht hlog'
    have harguments := exprs_distinct s arguments Γ hp.2 ((walk_expr s callee r hp.1).2 _ ht) hlog
    simp only [Expr.words, List.forall_mem_append, List.forall_mem_singleton]
    exact ⟨hcallee, harguments, distinct_other _ Γ⟩
  | .get object _, Γ, _, _, hp, ht, hlog =>
    List.forall_mem_append.2
      ⟨expr_distinct s object Γ hp ht hlog, List.forall_mem_singleton.2 (distinct_other _ Γ)⟩
  | .set object _ value, Γ, r, _, hp, ht, hlog => by
    have hlog' := (walk_expr s object _ hp.1).1.log hlog
    have hvalue := expr_distinct s value Γ hp.2 ht hlog'
    have hobject := expr_distinct s object Γ hp.1 ((walk_expr s value r hp.2).2 _ ht) hlog
    exact List.forall_mem_append.2 ⟨hobject, List.forall_mem_cons.2 ⟨distinct_other _ Γ, hvalue⟩⟩
  | .super ref _, Γ, _, _, _, _, _ =>
    List.forall_mem_cons.2 ⟨distinct_reference ref Γ, List.forall_mem_singleton.2 (distinct_other _ Γ)⟩
  | .lambda function, Γ, _, _, hp, ht, hlog => lambda_distinct _ function Γ hp ht hlog

theorem exprs_distinct (s : Surroundings) : ∀ (es : List Expr) (Γ : List (List Token))
    {r : Resolution} {L : Layers}, Expr.ProperAll es → Tracks r L → (exprs s es r).log = [] →
    ∀ w ∈ Expr.wordsAll Γ es, w.Distinct
  | [], _, _, _, _, _, _ => List.forall_mem_nil _
  | e :: rest, Γ, r, _, hp, ht, hlog => by
    have hfirst := expr_distinct s e Γ hp.1 ht ((walk_exprs s rest _ hp.2).1.log hlog)
    have hrest := exprs_distinct s rest Γ hp.2 ((walk_expr s e r hp.1).2 _ ht) hlog
    exact List.forall_mem_append.2 ⟨hfirst, hrest⟩

theorem optionalExpr_distinct (s : Surroundings) : ∀ (e? : Option Expr) (Γ : List (List Token))
    {r : Resolution} {L : Layers}, Expr.Proper? e? → Tracks r L → (optionalExpr s e? r).log = [] →
    ∀ w ∈ Expr.words? Γ e?, w.Distinct
  | none, _, _, _, _, _, _ => List.forall_mem_nil _
  | some e, Γ, _, _, hp, ht, hlog => expr_distinct s e Γ hp ht hlog

theorem stmt_distinct (s : Surroundings) : ∀ (st : Stmt) (Γ : List (List Token)) {r : Resolution}
    {L : Layers}, st.Proper → Tracks r L → (stmt s st r).log = [] → st.Distinct Γ →
    ∀ w ∈ st.words Γ, w.Distinct
  | .expression e, Γ, _, _, hp, ht, hlog, _ => expr_distinct s e Γ hp ht hlog
  | .print e, Γ, _, _, hp, ht, hlog, _ => expr_distinct s e Γ hp ht hlog
  | .var name initializer, Γ, _, _, hp, ht, hlog, hdistinct => by
    have hinit := optionalExpr_distinct s initializer Γ hp.2 (tracks_declare ht name)
      ((walk_define name).log hlog)
    exact List.forall_mem_cons.2 ⟨⟨fun _ => hdistinct.own name rfl, fun _ t ht heq =>
      ⟨rfl, (Option.some.inj (hdistinct.only name rfl t ht heq)).symm⟩⟩, hinit⟩
  | .block body, Γ, _, _, hp, ht, hlog, _ => by
    have hbody := tracks_openScope ht (.block body)
    have hlog' := walk_closeScope.log hlog
    exact stmts_distinct s body (Stmt.variables body :: Γ) hp hbody hlog'
      (body_distinct s hp hbody hlog' (List.forall_mem_nil _) Γ)
  | .ite condition thenBranch elseBranch, Γ, r, L, hp, ht, hlog, _ => by
    obtain ⟨hpc, ⟨hdeclared, hpt⟩, hpe⟩ := hp
    have hlogt := (walk_optionalStmt s elseBranch _ hpe).1.log hlog
    have hlogc := (walk_stmt s thenBranch _ hpt).1.log hlogt
    have htc := (walk_expr s condition r hpc).2 L ht
    have htt := tracks_undeclared hdeclared (walk_stmt s thenBranch _ hpt).2 L htc
    simp only [Stmt.words, List.forall_mem_append]
    exact ⟨expr_distinct s condition Γ hpc ht hlogc,
      stmt_distinct s thenBranch Γ hpt htc hlogt (distinct_of_undeclared hdeclared Γ),
      optionalStmt_distinct s elseBranch Γ hpe htt hlog⟩
  | .loop condition body increment, Γ, r, L, hp, ht, hlog, _ => by
    obtain ⟨hpc, ⟨hdeclared, hpb⟩, hpi⟩ := hp
    have hlogb := (walk_optionalExpr s increment _ hpi).1.log hlog
    have hlogc := (walk_stmt s body _ hpb).1.log hlogb
    have htc := (walk_expr s condition r hpc).2 L ht
    have htb := tracks_undeclared hdeclared (walk_stmt s body _ hpb).2 L htc
    simp only [Stmt.words, List.forall_mem_append]
    exact ⟨expr_distinct s condition Γ hpc ht hlogc, optionalExpr_distinct s increment Γ hpi htb hlog,
      stmt_distinct s body Γ hpb htc hlogb (distinct_of_undeclared hdeclared Γ)⟩
  | .break _, Γ, _, _, _, _, _, _ | .continue _, Γ, _, _, _, _, _, _
  | .breakError _, Γ, _, _, _, _, _, _ | .continueError _, Γ, _, _, _, _, _, _ =>
    List.forall_mem_singleton.2 (distinct_other _ Γ)
  | .function (.mk name function), Γ, _, _, hp, ht, hlog, hdistinct => by
    have hfunction := lambda_distinct _ function Γ hp.2
      (tracks_define (tracks_declare ht name) name) hlog
    exact List.forall_mem_cons.2 ⟨distinct_named rfl rfl hdistinct, hfunction⟩
  | .return keyword value, Γ, _, _, hp, ht, hlog, _ => by
    have hvalue := optionalExpr_distinct s value Γ hp (tracks_returnFaults ht keyword _ _) hlog
    exact List.forall_mem_cons.2 ⟨distinct_other _ Γ, hvalue⟩
  | .class name superclass own statics, Γ, r, L, hp, ht, hlog, hdistinct => by
    obtain ⟨_, _, hpo, hpt⟩ := hp
    obtain ⟨_, hlogo, hlogs⟩ := log_class s hpo hpt hlog
    have hopen := tracks_openSuper (tracks_define (tracks_declare ht name) name)
      superclass own statics
    have hthis := tracks_bindImplicit "this" name _ (tracks_openScope hopen (.receiver own))
    have hclosed := fun s => tracks_closeScope ((walk_methods s own _ hpo).2 _ hthis)
    simp only [Stmt.words, List.forall_mem_append, List.forall_mem_cons]
    refine ⟨distinct_named rfl rfl hdistinct, ?_, methods_distinct _ own _ hpo hthis hlogo,
      staticMethods_distinct _ statics _ hpt (hclosed _) hlogs⟩
    cases superclass with
    | none => exact List.forall_mem_nil _
    | some ref => exact List.forall_mem_singleton.2 (distinct_reference ref Γ)

theorem optionalStmt_distinct (s : Surroundings) : ∀ (st? : Option Stmt) (Γ : List (List Token))
    {r : Resolution} {L : Layers}, Stmt.Proper? st? → Tracks r L →
    (optionalStmt s st? r).log = [] → ∀ w ∈ Stmt.words? Γ st?, w.Distinct
  | none, _, _, _, _, _, _ => List.forall_mem_nil _
  | some st, Γ, _, _, hp, ht, hlog =>
    stmt_distinct s st Γ hp.2 ht hlog (distinct_of_undeclared hp.1 Γ)

theorem stmts_distinct (s : Surroundings) : ∀ (body : List Stmt) (Γ : List (List Token))
    {r : Resolution} {L : Layers}, Stmt.ProperAll body → Tracks r L → (stmts s body r).log = [] →
    (∀ st ∈ body, st.Distinct Γ) → ∀ w ∈ Stmt.wordsAll Γ body, w.Distinct
  | [], _, _, _, _, _, _, _ => List.forall_mem_nil _
  | st :: rest, Γ, r, _, hp, ht, hlog, hdistinct => by
    rw [List.forall_mem_cons] at hdistinct
    have hlog' := (walk_stmts s rest _ hp.2).1.log hlog
    have hfirst := stmt_distinct s st Γ hp.1 ht hlog' hdistinct.1
    have hrest := stmts_distinct s rest Γ hp.2 ((walk_stmt s st r hp.1).2 _ ht) hlog hdistinct.2
    exact List.forall_mem_append.2 ⟨hfirst, hrest⟩

theorem lambda_distinct (s : Surroundings) : ∀ (f : Lambda) (Γ : List (List Token)) {r : Resolution}
    {L : Layers}, f.Proper → Tracks r L → (lambda s f r).log = [] → ∀ w ∈ f.words Γ, w.Distinct
  | .mk params body, Γ, _, _, hp, ht, hlog => by
    have hbody := tracks_function ht (.mk params body)
    have hlog' := walk_closeScope.log hlog
    have hparams : ∀ p ∈ params, p.lexeme ∈ (Lambda.mk params body).layer.names := fun p hmem =>
      List.mem_map_of_mem hmem
    have hstmts := stmts_distinct s body ((params ++ Stmt.variables body) :: Γ) hp.2 hbody hlog'
      (body_distinct s hp.2 hbody hlog' hparams Γ)
    refine List.forall_mem_append.2 ⟨?_, hstmts⟩
    rw [List.forall_mem_map]
    exact parameter_distinct s hp ht hlog Γ

theorem methods_distinct (s : Surroundings) : ∀ (decls : List FunctionDecl) (Γ : List (List Token))
    {r : Resolution} {L : Layers}, FunctionDecl.ProperAll decls → Tracks r L →
    (methods s decls r).log = [] → ∀ w ∈ FunctionDecl.wordsAll Γ decls, w.Distinct
  | [], _, _, _, _, _, _ => List.forall_mem_nil _
  | .mk name function :: rest, Γ, r, _, hp, ht, hlog => by
    have hlog' := (walk_methods s rest _ hp.2).1.log hlog
    have hfirst := lambda_distinct _ function Γ hp.1 ht hlog'
    have hrest := methods_distinct s rest Γ hp.2 ((walk_lambda _ function r hp.1).2 _ ht) hlog
    exact List.forall_mem_cons.2 ⟨distinct_other _ Γ, List.forall_mem_append.2 ⟨hfirst, hrest⟩⟩

theorem staticMethods_distinct (s : Surroundings) : ∀ (decls : List FunctionDecl)
    (Γ : List (List Token)) {r : Resolution} {L : Layers}, FunctionDecl.ProperAll decls →
    Tracks r L → (staticMethods s decls r).log = [] →
    ∀ w ∈ FunctionDecl.wordsAll Γ decls, w.Distinct
  | [], _, _, _, _, _, _ => List.forall_mem_nil _
  | .mk name function :: rest, Γ, r, _, hp, ht, hlog => by
    have hlog' := (walk_staticMethods s rest _ hp.2).1.log hlog
    have hfirst := lambda_distinct _ function Γ hp.1 ht hlog'
    have hrest := staticMethods_distinct s rest Γ hp.2 ((walk_lambda _ function r hp.1).2 _ ht) hlog
    exact List.forall_mem_cons.2 ⟨distinct_other _ Γ, List.forall_mem_append.2 ⟨hfirst, hrest⟩⟩

end

end Resolution

/-- In a program of which nothing is reported, what a scope declares is distinct. -/
theorem resolve_distinct {p : Program} (hp : p.Proper) (hlog : (resolve p).log = []) :
    ∀ w ∈ p.words, w.Distinct := by
  have htracks : Tracks .start [] := rfl
  cases p with
  | statements body =>
    refine Resolution.stmts_distinct .topLevel body [] hp htracks hlog fun _ _ => ⟨?_, ?_⟩
    · exact fun _ _ h => absurd rfl h
    · exact fun _ _ => List.forall_mem_nil _
  | expression e => exact Resolution.expr_distinct .topLevel e [] hp htracks hlog

end Lox
