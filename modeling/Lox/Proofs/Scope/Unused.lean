import Lox.Proofs.Scope.Reporting

/-!
Which local names are reported as unused, and which as declared again, for every tree.
-/

namespace Lox

open ScopeItem

namespace Resolution

variable {r : Resolution}

theorem does_readVariable (ref : Reference) : Does [.use .read ref] r (readVariable ref r) := by
  unfold readVariable
  simp only
  split
  · exact (does_report ref.name rfl rfl).after (does_record .read ref)
  · exact does_record .read ref

theorem does_readKeyword {role : Role} (hrole : role.marks = true) (ref : Reference)
    (fault? : Option ScopeFault) (hfault : ∀ fault ∈ fault?,
      (Diagnostic.atToken ref.name (.scoping fault)).isNeverUsed = false ∧
        (Diagnostic.atToken ref.name (.scoping fault)).isRedeclared = false) :
    Does (if fault? = none then [.use role ref] else []) r (readKeyword ref fault? r) := by
  cases fault? with
  | none =>
    have hrecord := does_record (r := r) role ref
    rwa [hrole] at hrecord
  | some fault => exact does_report ref.name (hfault fault rfl).1 (hfault fault rfl).2

theorem does_returnFaults (keyword : Token) (hasValue : Bool) (body : BodyKind) :
    Does [] r (r.returnFaults keyword hasValue body) := by
  unfold returnFaults
  split
  · exact does_report keyword rfl rfl
  · split
    · exact does_report keyword rfl rfl
    · exact .refl

theorem does_parameters (params : List Token) :
    Does (params.map .parameter) r (params.foldl (fun r p => r.declareParameter p) r) := by
  induction params generalizing r with
  | nil => exact .refl
  | cons p rest ih => exact (does_declareParameter p).cons ih

theorem pending_openScope : r.openScope.pending = PendingNames.openScope none :: r.pending := rfl

theorem pending_bindImplicit (lexeme : String) (name : Token) :
    (r.openScope.bindImplicit lexeme name).pending = PendingNames.openScope (some lexeme) :: r.pending := by
  refine congrArg (· :: r.pending) (funext fun x => (pending_insert _ _ _ _).trans ?_)
  unfold PendingNames.openScope
  by_cases hx : lexeme = x
  · rw [if_pos hx, if_pos (congrArg some hx)]
    rfl
  · rw [if_neg hx, if_neg fun h => hx (Option.some.inj h)]
    exact congrArg (Option.map _) Std.TreeMap.getElem?_emptyc

/-- The scope of `super` around what stands in a class with a superclass. -/
theorem does_openSuper {name : Token} {ref : Reference} {items : List ScopeItem}
    {walk : Resolution → Resolution} (h : ∀ r, Does items r (walk r)) (hown : own items = []) :
    Does [.use .read ref, .scope (some "super") items] r
      (walk (openSuper name (some ref) r)).closeScope := by
  have hread (r : Resolution) : Does [.use .read ref, .scope (some "super") items] r
      (walk ((readVariable ref r).openScope.bindImplicit "super" name)).closeScope :=
    (does_readVariable ref).cons (does_scope (h _) (pending_bindImplicit "super" name) rfl (.inr hown))
  unfold openSuper
  simp only
  split
  · exact (does_report ref.name rfl rfl).after (hread _)
  · exact hread r

mutual

theorem does_expr (s : Surroundings) : ∀ (e : Expr) (r : Resolution),
    Does (e.items s.cls) r (expr s e r)
  | .literal _, _ => .refl
  | .grouping inner, r => does_expr s inner r
  | .unary _ right, r => does_expr s right r
  | .binaryError _ right, r => does_expr s right r
  | .get object _, r => does_expr s object r
  | .binary left _ right, r => by
    have hleft := does_expr s left r
    exact hleft.append (does_expr s right _)
  | .conditional condition thenBranch elseBranch, r => by
    have hcondition := does_expr s condition r
    have hthen := does_expr s thenBranch (expr s condition r)
    exact hcondition.append (hthen.append (does_expr s elseBranch _))
  | .variable ref, _ => does_readVariable ref
  | .assign target value, r => by
    have hvalue := does_expr s value r
    exact hvalue.append (does_record .target target)
  | .call callee _ arguments, r => by
    have hcallee := does_expr s callee r
    exact hcallee.append (does_exprs s arguments _)
  | .set object _ value, r => by
    have hvalue := does_expr s value r
    exact hvalue.append (does_expr s object _)
  | .this ref, _ => does_readKeyword rfl ref s.cls.thisFault? fun fault hfault => by
    cases hcls : s.cls <;> rw [hcls] at hfault <;> cases hfault <;> exact ⟨rfl, rfl⟩
  | .super ref _, _ => does_readKeyword rfl ref s.cls.superFault? fun fault hfault => by
    cases hcls : s.cls <;> rw [hcls] at hfault <;> cases hfault <;> exact ⟨rfl, rfl⟩
  | .lambda function, r => does_lambda { s with body := .function } function r

theorem does_exprs (s : Surroundings) : ∀ (es : List Expr) (r : Resolution),
    Does (Expr.itemsAll s.cls es) r (exprs s es r)
  | [], _ => .refl
  | e :: rest, r => by
    have hfirst := does_expr s e r
    exact hfirst.append (does_exprs s rest _)

theorem does_optionalExpr (s : Surroundings) : ∀ (e? : Option Expr) (r : Resolution),
    Does (Expr.items? s.cls e?) r (optionalExpr s e? r)
  | none, _ => .refl
  | some e, r => does_expr s e r

theorem does_stmt (s : Surroundings) : ∀ (st : Stmt) (r : Resolution),
    Does (st.items s.cls) r (stmt s st r)
  | .expression e, r => does_expr s e r
  | .print e, r => does_expr s e r
  | .var name initializer, r => by
    have hdeclared := does_declare (r := r) name
    have hinitialized := hdeclared.cons (does_optionalExpr s initializer _)
    exact hinitialized.before (does_define name)
  | .block body, r => by
    have hbody := does_stmts s body r.openScope
    exact does_scope hbody pending_openScope rfl (.inl rfl)
  | .ite condition thenBranch elseBranch, r => by
    have hcondition := does_expr s condition r
    have hthen := does_stmt s thenBranch (expr s condition r)
    exact hcondition.append (hthen.append (does_optionalStmt s elseBranch _))
  | .loop condition body increment, r => by
    have hcondition := does_expr s condition r
    have hbody := does_stmt s body (expr s condition r)
    exact hcondition.append (hbody.append (does_optionalExpr s increment _))
  | .break _, _ | .continue _, _ | .breakError _, _ | .continueError _, _ => .refl
  | .function (.mk name function), r => by
    have hdefined := (does_declare (r := r) name).before (does_define name)
    exact hdefined.cons (does_lambda { s with body := .function } function _)
  | .return keyword value, r => by
    have hchecked := does_returnFaults (r := r) keyword value.isSome s.body
    exact hchecked.after (does_optionalExpr s value _)
  | .class name superclass own statics, r => by
    have hdefined := (does_declare (r := r) name).before (does_define name)
    let cls := if superclass.isSome then ClassKind.subclass else .rootClass
    let walk (r : Resolution) := staticMethods { s with cls := .staticMethod } statics
      (methods { s with cls } own (r.openScope.bindImplicit "this" name)).closeScope
    have hclass (r : Resolution) : Does
        (.scope (some "this") (FunctionDecl.itemsAll cls own) ::
          FunctionDecl.itemsAll .staticMethod statics) r (walk r) := by
      have hmethods := does_methods { s with cls } own (r.openScope.bindImplicit "this" name)
      have hreceiver := does_scope hmethods (pending_bindImplicit "this" name) rfl
        (.inr (own_methods cls own))
      exact hreceiver.cons (does_staticMethods { s with cls := .staticMethod } statics _)
    cases superclass with
    | none => exact hdefined.cons (hclass _)
    | some ref =>
      exact hdefined.cons (does_openSuper hclass (own_methods .staticMethod statics))

theorem does_optionalStmt (s : Surroundings) : ∀ (st? : Option Stmt) (r : Resolution),
    Does (Stmt.items? s.cls st?) r (optionalStmt s st? r)
  | none, _ => .refl
  | some st, r => does_stmt s st r

theorem does_stmts (s : Surroundings) : ∀ (body : List Stmt) (r : Resolution),
    Does (Stmt.itemsAll s.cls body) r (stmts s body r)
  | [], _ => .refl
  | st :: rest, r => by
    have hfirst := does_stmt s st r
    exact hfirst.append (does_stmts s rest _)

theorem does_lambda (s : Surroundings) : ∀ (f : Lambda) (r : Resolution),
    Does (f.items s.cls) r (lambda s f r)
  | .mk params body, r => by
    have hparams := does_parameters (r := r.openScope) params
    have hbody := hparams.append (does_stmts s body _)
    exact does_scope hbody pending_openScope rfl (.inl rfl)

theorem does_methods (s : Surroundings) : ∀ (decls : List FunctionDecl) (r : Resolution),
    Does (FunctionDecl.itemsAll s.cls decls) r (methods s decls r)
  | [], _ => .refl
  | .mk name function :: rest, r => by
    have hfirst := does_lambda { s with body := if name.lexeme = "init" then .initializer else .method }
      function r
    exact hfirst.append (does_methods s rest _)

theorem does_staticMethods (s : Surroundings) : ∀ (decls : List FunctionDecl) (r : Resolution),
    Does (FunctionDecl.itemsAll s.cls decls) r (staticMethods s decls r)
  | [], _ => .refl
  | .mk _ function :: rest, r => by
    have hfirst := does_lambda { s with body := .function } function r
    exact hfirst.append (does_staticMethods s rest _)

end

/-- No scope is open around a program, so that nothing is said of its own names. -/
theorem does_program : ∀ p : Program, Does p.items .start (resolve p)
  | .statements body => does_stmts .topLevel body .start
  | .expression e => does_expr .topLevel e .start

end Resolution

theorem neverUsed_resolve (p : Program) : (resolve p).log.reverse.filter Diagnostic.isNeverUsed =
    (scopesAll p.items).flatMap unusedReports := by
  rw [List.filter_reverse, (Resolution.does_program p).neverUsed, List.reverse_append,
    List.reverse_reverse]
  rfl

theorem redeclared_resolve (p : Program) : ((resolve p).log.filter Diagnostic.isRedeclared).Perm
    (((scopesAll p.items).flatMap repeatedOwn).map .redeclared) := by
  have hperm := (Resolution.does_program p).redeclared
  rwa [show Resolution.start.log.filter Diagnostic.isRedeclared = [] from rfl, List.append_nil] at hperm

end Lox
