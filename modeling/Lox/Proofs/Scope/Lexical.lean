import Lox.Proofs.Scope.Walk
import Mathlib.Data.List.Nodup

/-!
Lexical scoping of every tree, whether or not a text has it. A name belongs to the innermost scope
around it in which it has been declared before, and the resolver records how far out that scope is.
-/

namespace Lox

/-- A node whose name is looked up, with the scopes around it. -/
structure Site where
  ref : Reference
  layers : Layers

namespace Site

def id (u : Site) : NodeId := u.ref.id

/-- The number of scopes between the node and the innermost one that has its name. -/
def distance? (u : Site) : Option Nat := u.layers.find? u.ref.name.lexeme

end Site

mutual

/-- The names that a statement declares in the scope around it. A branch and a loop body open no scope
of their own. -/
def Stmt.declares : Stmt → List String
  | .var name _ => [name.lexeme]
  | .function (.mk name _) => [name.lexeme]
  | .class name _ _ _ => [name.lexeme]
  | .ite _ thenBranch elseBranch => thenBranch.declares ++ Stmt.declares? elseBranch
  | .loop _ body _ => body.declares
  | .expression _ | .print _ | .block _ | .return _ _ => []
  | .break _ | .continue _ | .breakError _ | .continueError _ => []

def Stmt.declares? : Option Stmt → List String
  | none => []
  | some s => s.declares

end

def Stmt.declaresAll (body : List Stmt) : List String := body.flatMap Stmt.declares

/-- The names that are declared in a scope by its end. -/
def StaticScope.declares : StaticScope → List String
  | .block body => Stmt.declaresAll body
  | .function f => f.params.map Token.lexeme ++ Stmt.declaresAll f.body
  | .receiver _ => ["this"]
  | .super _ _ _ => ["super"]

namespace Layers

def declareAll (Γ : Layers) (names : List String) : Layers := names.foldl (fun Γ x => Γ.declare x) Γ

/-- Each scope has none but the names that are declared in its own text. -/
def Own (Γ : Layers) : Prop := ∀ l ∈ Γ, ∀ x ∈ l.names, x ∈ l.scope.declares

end Layers

mutual

/-- The nodes of an expression that look a name up, in the order of the walk, within a class of the
kind. In a class where they mean nothing `this` and `super` look nothing up. -/
def Expr.sites (cls : ClassKind) (Γ : Layers) : Expr → List Site
  | .literal _ => []
  | .grouping inner => inner.sites cls Γ
  | .unary _ right => right.sites cls Γ
  | .binary left _ right => left.sites cls Γ ++ right.sites cls Γ
  | .binaryError _ right => right.sites cls Γ
  | .conditional condition thenBranch elseBranch =>
    condition.sites cls Γ ++ (thenBranch.sites cls Γ ++ elseBranch.sites cls Γ)
  | .variable ref => [⟨ref, Γ⟩]
  | .assign target value => value.sites cls Γ ++ [⟨target, Γ⟩]
  | .call callee _ arguments => callee.sites cls Γ ++ Expr.sitesAll cls Γ arguments
  | .get object _ => object.sites cls Γ
  | .set object _ value => value.sites cls Γ ++ object.sites cls Γ
  | .this ref => if cls.thisFault? = none then [⟨ref, Γ⟩] else []
  | .super ref _ => if cls.superFault? = none then [⟨ref, Γ⟩] else []
  | .lambda function => function.sites cls Γ

def Expr.sitesAll (cls : ClassKind) (Γ : Layers) : List Expr → List Site
  | [] => []
  | e :: rest => e.sites cls Γ ++ Expr.sitesAll cls Γ rest

def Expr.sites? (cls : ClassKind) (Γ : Layers) : Option Expr → List Site
  | none => []
  | some e => e.sites cls Γ

/-- A declared name has its scope in its own initializer, function or class, and in the superclass. -/
def Stmt.sites (cls : ClassKind) (Γ : Layers) : Stmt → List Site
  | .expression e => e.sites cls Γ
  | .print e => e.sites cls Γ
  | .var name initializer => Expr.sites? cls (Γ.declare name.lexeme) initializer
  | .block body => Stmt.sitesAll cls (⟨.block body, []⟩ :: Γ) body
  | .ite condition thenBranch elseBranch =>
    condition.sites cls Γ ++
      (thenBranch.sites cls Γ ++ Stmt.sites? cls (Γ.declareAll thenBranch.declares) elseBranch)
  | .loop condition body increment =>
    condition.sites cls Γ ++
      (body.sites cls Γ ++ Expr.sites? cls (Γ.declareAll body.declares) increment)
  | .break _ => []
  | .continue _ => []
  | .breakError _ => []
  | .continueError _ => []
  | .function (.mk name function) => function.sites cls (Γ.declare name.lexeme)
  | .return _ value => Expr.sites? cls Γ value
  | .class name superclass own statics =>
    let inner := Γ.ofClass name superclass own statics
    let receiver := if superclass.isSome then ClassKind.subclass else .rootClass
    (superclass.map (⟨·, Γ.declare name.lexeme⟩)).toList ++
      (FunctionDecl.sitesAll receiver (inner.ofReceiver own) own ++
        FunctionDecl.sitesAll .staticMethod inner statics)

def Stmt.sites? (cls : ClassKind) (Γ : Layers) : Option Stmt → List Site
  | none => []
  | some s => s.sites cls Γ

def Stmt.sitesAll (cls : ClassKind) (Γ : Layers) : List Stmt → List Site
  | [] => []
  | s :: rest => s.sites cls Γ ++ Stmt.sitesAll cls (Γ.declareAll s.declares) rest

def FunctionDecl.sitesAll (cls : ClassKind) (Γ : Layers) : List FunctionDecl → List Site
  | [] => []
  | .mk _ function :: rest => function.sites cls Γ ++ FunctionDecl.sitesAll cls Γ rest

def Lambda.sites (cls : ClassKind) (Γ : Layers) : Lambda → List Site
  | .mk params body => Stmt.sitesAll cls ((Lambda.mk params body).layer :: Γ) body

end

def Program.sites : Program → List Site
  | .statements body => Stmt.sitesAll .noClass [] body
  | .expression e => e.sites .noClass []

/-- The distance of the last node with the number that has one. -/
def Site.lastDistance? (id : NodeId) (us : List Site) : Option Nat :=
  ((us.filter (·.id = id)).filterMap Site.distance?).getLast?

section Distances

variable {us us' : List Site} {id : NodeId}

theorem lastDistance?_append : Site.lastDistance? id (us ++ us') =
    (Site.lastDistance? id us').or (Site.lastDistance? id us) := by
  unfold Site.lastDistance?
  rw [List.filter_append, List.filterMap_append, List.getLast?_append]

theorem lastDistance?_of_notMem (h : ∀ u ∈ us, u.id ≠ id) : Site.lastDistance? id us = none := by
  have hfilter : us.filter (·.id = id) = [] := by
    rw [List.filter_eq_nil_iff]
    exact fun u hu => by simpa using h u hu
  unfold Site.lastDistance?
  rw [hfilter]
  rfl

theorem lastDistance?_singleton (u : Site) : Site.lastDistance? id [u] =
    if u.id = id then u.distance? else none := by
  unfold Site.lastDistance?
  by_cases hid : u.id = id
  · rw [if_pos hid, List.filter_cons_of_pos (by simpa using hid), List.filter_nil]
    cases hd : u.distance? <;> simp [hd]
  · rw [if_neg hid, List.filter_cons_of_neg (by simpa using hid)]
    rfl

/-- Where every node has a number of its own, the last one with it is the only one. -/
theorem lastDistance?_of_nodup {u : Site} (h : (us.map Site.id).Nodup) (hu : u ∈ us) :
    Site.lastDistance? u.id us = u.distance? := by
  obtain ⟨before, after, rfl⟩ := List.append_of_mem hu
  rw [List.map_append, List.map_cons, List.nodup_middle, List.nodup_cons, List.mem_append, not_or] at h
  obtain ⟨⟨hbefore, hafter⟩, _⟩ := h
  have hnone {us : List Site} (h : u.id ∉ us.map Site.id) : Site.lastDistance? u.id us = none :=
    lastDistance?_of_notMem fun u' hu' heq => h (List.mem_map.2 ⟨u', hu', heq⟩)
  rw [List.append_cons, lastDistance?_append, lastDistance?_append, hnone hafter, hnone hbefore,
    lastDistance?_singleton, if_pos rfl]
  cases u.distance? <;> rfl

end Distances

namespace Layers

variable {Γ : Layers} {l : Layer}

theorem declareAll_append (xs ys : List String) :
    Γ.declareAll (xs ++ ys) = (Γ.declareAll xs).declareAll ys :=
  List.foldl_append

/-- At top level there is no scope to declare a name in. -/
theorem declareAll_nil (xs : List String) : declareAll [] xs = [] := by
  induction xs with
  | nil => rfl
  | cons _ _ ih => exact ih

/-- Declarations go into the innermost scope. -/
theorem declareAll_cons (xs : List String) :
    declareAll (l :: Γ) xs = ⟨l.scope, xs.reverse ++ l.names⟩ :: Γ := by
  induction xs generalizing l with
  | nil => rfl
  | cons x xs ih =>
    show declareAll (⟨l.scope, x :: l.names⟩ :: Γ) xs = _
    rw [ih, List.reverse_cons, List.append_assoc, List.singleton_append]

end Layers

/-- A walk over some nodes ends with these scopes open, and with the hops of the nodes. -/
structure Records (r : Resolution) (us : List Site) (Γ : Layers) (r' : Resolution) : Prop where
  tracks : Tracks r' Γ
  hops : ∀ id, r'.hops[id]? = (Site.lastDistance? id us).or r.hops[id]?

namespace Records

variable {r r' r'' : Resolution} {us us' : List Site} {Γ Γ' : Layers}

theorem stay (h : Tracks r Γ) : Records r [] Γ r := ⟨h, fun _ => rfl⟩

/-- Only the scopes change. -/
theorem scopes (h : Tracks r' Γ) (hw : Walk r r' []) : Records r [] Γ r' :=
  ⟨h, fun id => hw.hops id List.not_mem_nil⟩

theorem trans (h : Records r us Γ r') (h' : Tracks r' Γ → Records r' us' Γ' r'') :
    Records r (us ++ us') Γ' r'' := by
  have hnext := h' h.tracks
  refine ⟨hnext.tracks, fun id => ?_⟩
  rw [hnext.hops, h.hops, lastDistance?_append, Option.or_assoc]

theorem before (h : Records r us Γ r') (h' : Tracks r' Γ → Records r' [] Γ' r'') :
    Records r us Γ' r'' := by
  have htrans := h.trans h'
  rwa [List.append_nil] at htrans

end Records

namespace Resolution

variable {r : Resolution} {Γ : Layers}

theorem records_record (h : Tracks r Γ) (ref : Reference) (isRead : Bool) :
    Records r [⟨ref, Γ⟩] Γ (r.record ref isRead) := by
  refine ⟨tracks_record h ref isRead, fun id => ?_⟩
  have hdistance : Site.distance? ⟨ref, Γ⟩ = r.scopes.findIdx? (·.contains ref.name.lexeme) :=
    (findIdx?_scopes h ref.name.lexeme).symm
  rw [hops_record, lastDistance?_singleton, hdistance]
  by_cases hid : id = ref.id
  · subst hid
    rw [if_pos (show Site.id ⟨ref, Γ⟩ = ref.id from rfl)]
    cases r.scopes.findIdx? (·.contains ref.name.lexeme) <;> simp
  · rw [if_neg fun h => hid h.1, if_neg fun h : Site.id ⟨ref, Γ⟩ = id => hid h.symm, Option.none_or]

theorem records_readVariable (h : Tracks r Γ) (ref : Reference) :
    Records r [⟨ref, Γ⟩] Γ (readVariable ref r) := by
  unfold readVariable
  simp only
  split
  · have hreport (fault : ScopeFault) : Records r [] Γ (r.report ref.name fault) :=
      .scopes h (walk_report ref.name fault)
    exact (hreport _).trans fun h => records_record h ref true
  · exact records_record h ref true

theorem records_readKeyword (h : Tracks r Γ) (ref : Reference) (fault? : Option ScopeFault) :
    Records r (if fault? = none then [⟨ref, Γ⟩] else []) Γ (readKeyword ref fault? r) := by
  cases fault? with
  | none => exact records_record h ref true
  | some fault => exact .scopes h (walk_report ref.name fault)

theorem records_defined (h : Tracks r Γ) (name : Token) :
    Records r [] (Γ.declare name.lexeme) ((r.declare name).define name) :=
  .scopes (tracks_define (tracks_declare h name) name) ((walk_declare name).after (walk_define name))

theorem records_openSuper {name : Token} (h : Tracks r (Γ.declare name.lexeme))
    (superclass : Option Reference) (own statics : List FunctionDecl) :
    Records r (superclass.map fun ref => ⟨ref, Γ.declare name.lexeme⟩).toList
      (Γ.ofClass name superclass own statics) (openSuper name superclass r) := by
  cases superclass with
  | none => exact .stay h
  | some ref =>
    have hread (r' : Resolution) (h : Tracks r' (Γ.declare name.lexeme)) :
        Records r' [⟨ref, Γ.declare name.lexeme⟩] (Γ.ofClass name (some ref) own statics)
          ((readVariable ref r').openScope.bindImplicit "super" name) :=
      (records_readVariable h ref).before fun h =>
        .scopes (tracks_bindImplicit "super" name _ (tracks_openScope h _))
          (walk_openScope.after (walk_bindImplicit "super" name))
    show Records r [_] _ (openSuper name (some ref) r)
    unfold openSuper
    simp only
    split
    · have hreport (fault : ScopeFault) : Records r [] (Γ.declare name.lexeme) (r.report ref.name fault) :=
        .scopes h (walk_report ref.name fault)
      exact (hreport _).trans (hread _)
    · exact hread r h

mutual

theorem records_expr (s : Surroundings) : ∀ (e : Expr) (r : Resolution) (Γ : Layers), Tracks r Γ →
    Records r (e.sites s.cls Γ) Γ (expr s e r)
  | .literal _, _, _, h => .stay h
  | .grouping inner, r, Γ, h => records_expr s inner r Γ h
  | .unary _ right, r, Γ, h => records_expr s right r Γ h
  | .binaryError _ right, r, Γ, h => records_expr s right r Γ h
  | .get object _, r, Γ, h => records_expr s object r Γ h
  | .binary left _ right, r, Γ, h => by
    have hleft := records_expr s left r Γ h
    exact hleft.trans (records_expr s right (expr s left r) Γ)
  | .conditional condition thenBranch elseBranch, r, Γ, h => by
    have hcondition := records_expr s condition r Γ h
    have hthen := records_expr s thenBranch (expr s condition r) Γ hcondition.tracks
    exact hcondition.trans fun _ => hthen.trans (records_expr s elseBranch _ Γ)
  | .variable ref, _, _, h => records_readVariable h ref
  | .assign target value, r, Γ, h => by
    have hvalue := records_expr s value r Γ h
    exact hvalue.trans fun h => records_record h target false
  | .call callee _ arguments, r, Γ, h => by
    have hcallee := records_expr s callee r Γ h
    exact hcallee.trans (records_exprs s arguments (expr s callee r) Γ)
  | .set object _ value, r, Γ, h => by
    have hvalue := records_expr s value r Γ h
    exact hvalue.trans (records_expr s object (expr s value r) Γ)
  | .this ref, _, _, h => records_readKeyword h ref s.cls.thisFault?
  | .super ref _, _, _, h => records_readKeyword h ref s.cls.superFault?
  | .lambda function, r, Γ, h => records_lambda { s with body := .function } function r Γ h

theorem records_exprs (s : Surroundings) : ∀ (es : List Expr) (r : Resolution) (Γ : Layers),
    Tracks r Γ → Records r (Expr.sitesAll s.cls Γ es) Γ (exprs s es r)
  | [], _, _, h => .stay h
  | e :: rest, r, Γ, h => by
    have hfirst := records_expr s e r Γ h
    exact hfirst.trans (records_exprs s rest (expr s e r) Γ)

theorem records_optionalExpr (s : Surroundings) : ∀ (e? : Option Expr) (r : Resolution) (Γ : Layers),
    Tracks r Γ → Records r (Expr.sites? s.cls Γ e?) Γ (optionalExpr s e? r)
  | none, _, _, h => .stay h
  | some e, r, Γ, h => records_expr s e r Γ h

theorem records_stmt (s : Surroundings) : ∀ (st : Stmt) (r : Resolution) (Γ : Layers), Tracks r Γ →
    Records r (st.sites s.cls Γ) (Γ.declareAll st.declares) (stmt s st r)
  | .expression e, r, Γ, h => records_expr s e r Γ h
  | .print e, r, Γ, h => records_expr s e r Γ h
  | .var name initializer, r, Γ, h => by
    have hdeclared : Records r [] (Γ.declare name.lexeme) (r.declare name) :=
      .scopes (tracks_declare h name) (walk_declare name)
    have hinitialized := hdeclared.trans (records_optionalExpr s initializer _ _)
    exact hinitialized.before fun h => .scopes (tracks_define h name) (walk_define name)
  | .block body, r, Γ, h => by
    have hopened : Records r [] (⟨.block body, []⟩ :: Γ) r.openScope :=
      .scopes (tracks_openScope h _) walk_openScope
    have hbody := hopened.trans (records_stmts s body _ _)
    rw [Layers.declareAll_cons] at hbody
    exact hbody.before fun h => .scopes (tracks_closeScope h) walk_closeScope
  | .ite condition thenBranch elseBranch, r, Γ, h => by
    have hcondition := records_expr s condition r Γ h
    have hthen := records_stmt s thenBranch (expr s condition r) Γ hcondition.tracks
    rw [Stmt.declares, Layers.declareAll_append]
    exact hcondition.trans fun _ => hthen.trans (records_optionalStmt s elseBranch _ _)
  | .loop condition body increment, r, Γ, h => by
    have hcondition := records_expr s condition r Γ h
    have hbody := records_stmt s body (expr s condition r) Γ hcondition.tracks
    exact hcondition.trans fun _ => hbody.trans (records_optionalExpr s increment _ _)
  | .break _, _, _, h | .continue _, _, _, h | .breakError _, _, _, h | .continueError _, _, _, h =>
    .stay h
  | .function (.mk name function), _, _, h => by
    have hdefined := records_defined h name
    exact hdefined.trans (records_lambda { s with body := .function } function _ _)
  | .return keyword value, r, Γ, h => by
    have hchecked : Records r [] Γ (r.returnFaults keyword value.isSome s.body) :=
      .scopes (tracks_returnFaults h keyword _ _) (walk_returnFaults keyword _ _)
    exact hchecked.trans (records_optionalExpr s value _ _)
  | .class name superclass own statics, _, _, h => by
    have hsuper := (records_defined h name).trans fun h => records_openSuper h superclass own statics
    have hthis := hsuper.before fun h =>
      .scopes (tracks_bindImplicit "this" name _ (tracks_openScope h (.receiver own)))
        (walk_openScope.after (walk_bindImplicit "this" name))
    have hown := hthis.trans (records_methods
      { s with cls := if superclass.isSome then ClassKind.subclass else .rootClass } own _ _)
    have hclosed := hown.before fun h => .scopes (tracks_closeScope h) walk_closeScope
    have hstatics := hclosed.trans (records_staticMethods { s with cls := .staticMethod } statics _ _)
    rw [List.nil_append, List.append_assoc] at hstatics
    cases superclass with
    | none => exact hstatics
    | some ref => exact hstatics.before fun h => .scopes (tracks_closeScope h) walk_closeScope

theorem records_optionalStmt (s : Surroundings) : ∀ (st? : Option Stmt) (r : Resolution) (Γ : Layers),
    Tracks r Γ →
    Records r (Stmt.sites? s.cls Γ st?) (Γ.declareAll (Stmt.declares? st?)) (optionalStmt s st? r)
  | none, _, _, h => .stay h
  | some st, r, Γ, h => records_stmt s st r Γ h

theorem records_stmts (s : Surroundings) : ∀ (body : List Stmt) (r : Resolution) (Γ : Layers),
    Tracks r Γ →
    Records r (Stmt.sitesAll s.cls Γ body) (Γ.declareAll (Stmt.declaresAll body)) (stmts s body r)
  | [], _, _, h => .stay h
  | st :: rest, r, Γ, h => by
    have hfirst := records_stmt s st r Γ h
    rw [Stmt.declaresAll, List.flatMap_cons, Layers.declareAll_append]
    exact hfirst.trans (records_stmts s rest _ _)

theorem records_lambda (s : Surroundings) : ∀ (f : Lambda) (r : Resolution) (Γ : Layers),
    Tracks r Γ → Records r (f.sites s.cls Γ) Γ (lambda s f r)
  | .mk params body, r, Γ, h => by
    have hentered : Records r [] ((Lambda.mk params body).layer :: Γ)
        (params.foldl (fun r p => r.declareParameter p) r.openScope) :=
      .scopes (tracks_function h (.mk params body)) (walk_openScope.after (walk_parameters params))
    have hbody := hentered.trans (records_stmts s body _ _)
    rw [Layers.declareAll_cons] at hbody
    exact hbody.before fun h => .scopes (tracks_closeScope h) walk_closeScope

theorem records_methods (s : Surroundings) : ∀ (decls : List FunctionDecl) (r : Resolution)
    (Γ : Layers), Tracks r Γ → Records r (FunctionDecl.sitesAll s.cls Γ decls) Γ (methods s decls r)
  | [], _, _, h => .stay h
  | .mk name function :: rest, r, Γ, h => by
    have hfirst := records_lambda
      { s with body := if name.lexeme = "init" then BodyKind.initializer else .method } function r Γ h
    exact hfirst.trans (records_methods s rest _ Γ)

theorem records_staticMethods (s : Surroundings) : ∀ (decls : List FunctionDecl) (r : Resolution)
    (Γ : Layers), Tracks r Γ →
    Records r (FunctionDecl.sitesAll s.cls Γ decls) Γ (staticMethods s decls r)
  | [], _, _, h => .stay h
  | .mk _ function :: rest, r, Γ, h => by
    have hfirst := records_lambda { s with body := .function } function r Γ h
    exact hfirst.trans (records_staticMethods s rest _ Γ)

end

end Resolution

namespace Layers

/-- The scopes have names of their own, and the innermost one has these names, too. -/
structure Awaits (Γ : Layers) (names : List String) : Prop where
  own : Γ.Own
  innermost : ∀ l ∈ Γ.head?, ∀ x ∈ names, x ∈ l.scope.declares

variable {Γ : Layers} {l : Layer} {x : String} {xs ys : List String}

theorem Own.enter (h : Γ.Own) (hl : ∀ x ∈ l.names, x ∈ l.scope.declares) : Own (l :: Γ) :=
  List.forall_mem_cons.2 ⟨hl, h⟩

namespace Awaits

theorem first (h : Γ.Awaits (xs ++ ys)) : Γ.Awaits xs :=
  ⟨h.own, fun l hl _ hx => h.innermost l hl _ (List.mem_append_left ys hx)⟩

theorem declareAll (h : Γ.Awaits (xs ++ ys)) : (Γ.declareAll xs).Awaits ys := by
  cases Γ with
  | nil =>
    rw [declareAll_nil]
    exact ⟨h.own, fun _ hl => nomatch hl⟩
  | cons l Γ =>
    rw [declareAll_cons]
    obtain ⟨hl, hΓ⟩ := List.forall_mem_cons.1 h.own
    have hnames := h.innermost l rfl
    refine ⟨Own.enter hΓ fun x hx => ?_, fun l' hl' x hx => ?_⟩
    · rcases List.mem_append.1 hx with hx | hx
      · exact hnames x (List.mem_append_left ys (List.mem_reverse.1 hx))
      · exact hl x hx
    · obtain rfl := Option.some.inj hl'
      exact hnames x (List.mem_append_right xs hx)

theorem all (h : Γ.Awaits xs) : (Γ.declareAll xs).Own := by
  rw [← List.append_nil xs] at h
  exact h.declareAll.own

theorem declare (h : Γ.Awaits [x]) : (Γ.declare x).Own := h.all

end Awaits

end Layers

section Own

theorem own_keyword {Γ : Layers} (ref : Reference) (h : Γ.Own) (fault? : Option ScopeFault) :
    ∀ u ∈ if fault? = none then [(⟨ref, Γ⟩ : Site)] else [], u.layers.Own := by
  split
  · exact List.forall_mem_singleton.2 h
  · exact List.forall_mem_nil _

mutual

theorem Expr.own_sites (cls : ClassKind) : ∀ (e : Expr) (Γ : Layers), Γ.Own → ∀ u ∈ e.sites cls Γ, u.layers.Own
  | .literal _, _, _ => List.forall_mem_nil _
  | .grouping inner, Γ, h => Expr.own_sites cls inner Γ h
  | .unary _ right, Γ, h => Expr.own_sites cls right Γ h
  | .binaryError _ right, Γ, h => Expr.own_sites cls right Γ h
  | .get object _, Γ, h => Expr.own_sites cls object Γ h
  | .binary left _ right, Γ, h =>
    List.forall_mem_append.2 ⟨Expr.own_sites cls left Γ h, Expr.own_sites cls right Γ h⟩
  | .conditional condition thenBranch elseBranch, Γ, h =>
    List.forall_mem_append.2 ⟨Expr.own_sites cls condition Γ h,
      List.forall_mem_append.2 ⟨Expr.own_sites cls thenBranch Γ h, Expr.own_sites cls elseBranch Γ h⟩⟩
  | .variable _, _, h => List.forall_mem_singleton.2 h
  | .assign _ value, Γ, h =>
    List.forall_mem_append.2 ⟨Expr.own_sites cls value Γ h, List.forall_mem_singleton.2 h⟩
  | .call callee _ arguments, Γ, h =>
    List.forall_mem_append.2 ⟨Expr.own_sites cls callee Γ h, Expr.own_sitesAll cls arguments Γ h⟩
  | .set object _ value, Γ, h =>
    List.forall_mem_append.2 ⟨Expr.own_sites cls value Γ h, Expr.own_sites cls object Γ h⟩
  | .this ref, _, h => own_keyword ref h cls.thisFault?
  | .super ref _, _, h => own_keyword ref h cls.superFault?
  | .lambda function, Γ, h => Lambda.own_sites cls function Γ h

theorem Expr.own_sitesAll (cls : ClassKind) : ∀ (es : List Expr) (Γ : Layers), Γ.Own →
    ∀ u ∈ Expr.sitesAll cls Γ es, u.layers.Own
  | [], _, _ => List.forall_mem_nil _
  | e :: rest, Γ, h =>
    List.forall_mem_append.2 ⟨Expr.own_sites cls e Γ h, Expr.own_sitesAll cls rest Γ h⟩

theorem Expr.own_sites? (cls : ClassKind) : ∀ (e? : Option Expr) (Γ : Layers), Γ.Own →
    ∀ u ∈ Expr.sites? cls Γ e?, u.layers.Own
  | none, _, _ => List.forall_mem_nil _
  | some e, Γ, h => Expr.own_sites cls e Γ h

theorem Stmt.own_sites (cls : ClassKind) : ∀ (st : Stmt) (Γ : Layers), Γ.Awaits st.declares →
    ∀ u ∈ st.sites cls Γ, u.layers.Own
  | .expression e, Γ, h => Expr.own_sites cls e Γ h.own
  | .print e, Γ, h => Expr.own_sites cls e Γ h.own
  | .var _ initializer, _, h => Expr.own_sites? cls initializer _ h.declare
  | .block body, Γ, h =>
    Stmt.own_sitesAll cls body _ ⟨h.own.enter (List.forall_mem_nil _), fun _ hl _ hx => Option.some.inj hl ▸ hx⟩
  | .ite condition thenBranch elseBranch, Γ, h =>
    List.forall_mem_append.2 ⟨Expr.own_sites cls condition Γ h.own,
      List.forall_mem_append.2 ⟨Stmt.own_sites cls thenBranch Γ h.first,
        Stmt.own_sites? cls elseBranch _ h.declareAll⟩⟩
  | .loop condition body increment, Γ, h =>
    List.forall_mem_append.2 ⟨Expr.own_sites cls condition Γ h.own,
      List.forall_mem_append.2 ⟨Stmt.own_sites cls body Γ h,
        Expr.own_sites? cls increment _ h.all⟩⟩
  | .break _, _, _ | .continue _, _, _ | .breakError _, _, _ | .continueError _, _, _ => List.forall_mem_nil _
  | .function (.mk _ function), _, h => Lambda.own_sites cls function _ h.declare
  | .return _ value, Γ, h => Expr.own_sites? cls value Γ h.own
  | .class name superclass own statics, Γ, h => by
    have hinner : (Γ.ofClass name superclass own statics).Own := by
      cases superclass with
      | none => exact h.declare
      | some ref => exact h.declare.enter fun _ hx => hx
    refine List.forall_mem_append.2 ⟨?_, List.forall_mem_append.2
      ⟨FunctionDecl.own_sitesAll _ own _ (hinner.enter fun _ hx => hx),
        FunctionDecl.own_sitesAll _ statics _ hinner⟩⟩
    cases superclass with
    | none => exact List.forall_mem_nil _
    | some ref => exact List.forall_mem_singleton.2 h.declare

theorem Stmt.own_sites? (cls : ClassKind) : ∀ (st? : Option Stmt) (Γ : Layers), Γ.Awaits (Stmt.declares? st?) →
    ∀ u ∈ Stmt.sites? cls Γ st?, u.layers.Own
  | none, _, _ => List.forall_mem_nil _
  | some st, Γ, h => Stmt.own_sites cls st Γ h

theorem Stmt.own_sitesAll (cls : ClassKind) : ∀ (body : List Stmt) (Γ : Layers), Γ.Awaits (Stmt.declaresAll body) →
    ∀ u ∈ Stmt.sitesAll cls Γ body, u.layers.Own
  | [], _, _ => List.forall_mem_nil _
  | st :: rest, Γ, h => by
    rw [Stmt.declaresAll, List.flatMap_cons] at h
    exact List.forall_mem_append.2 ⟨Stmt.own_sites cls st Γ h.first, Stmt.own_sitesAll cls rest _ h.declareAll⟩

theorem FunctionDecl.own_sitesAll (cls : ClassKind) : ∀ (decls : List FunctionDecl) (Γ : Layers), Γ.Own →
    ∀ u ∈ FunctionDecl.sitesAll cls Γ decls, u.layers.Own
  | [], _, _ => List.forall_mem_nil _
  | .mk _ function :: rest, Γ, h =>
    List.forall_mem_append.2 ⟨Lambda.own_sites cls function Γ h, FunctionDecl.own_sitesAll cls rest Γ h⟩

theorem Lambda.own_sites (cls : ClassKind) : ∀ (f : Lambda) (Γ : Layers), Γ.Own → ∀ u ∈ f.sites cls Γ, u.layers.Own
  | .mk _ body, _, h =>
    Stmt.own_sitesAll cls body _ ⟨h.enter fun _ hx => List.mem_append_left _ hx, fun _ hl _ hx =>
      Option.some.inj hl ▸ List.mem_append_right _ hx⟩

end

end Own

namespace Resolution

/-- The names of the open scopes with some more in the innermost one. -/
def addNames (names : List String) : List (String → Bool) → List (String → Bool)
  | [] => []
  | f :: rest => (fun x => names.contains x || f x) :: rest

/-- Some scopes with the names of the open ones. -/
def layers (r : Resolution) : Layers := r.scopes.map fun s => ⟨.block [], s.keys⟩

theorem tracks_layers (r : Resolution) : Tracks r r.layers := by
  unfold Tracks names Layers.view layers
  rw [List.map_map]
  congr 1
  funext s x
  exact Std.TreeMap.contains_keys.symm

theorem view_declareAll (Γ : Layers) (xs : List String) :
    (Γ.declareAll xs).view = addNames xs Γ.view := by
  cases Γ with
  | nil =>
    rw [Layers.declareAll_nil]
    rfl
  | cons l Γ =>
    rw [Layers.declareAll_cons]
    show (fun x => (xs.reverse ++ l.names).contains x) :: Layers.view Γ = _
    simp only [List.contains_append, List.contains_reverse]
    rfl

section Names

variable (s : Surroundings) {r r' : Resolution}

/-- What a walk leaves open it leaves open for any scopes that have the names. -/
theorem names_of_records {us : List Site} {xs : List String}
    (h : Records r us (r.layers.declareAll xs) r') : r'.names = addNames xs r.names := by
  have hbefore : r.names = r.layers.view := tracks_layers r
  rw [hbefore, ← view_declareAll]
  exact h.tracks

theorem addNames_nil (names : List (String → Bool)) : addNames [] names = names := by
  cases names <;> rfl

theorem names_expr (e : Expr) (r : Resolution) : (expr s e r).names = r.names := by
  rw [← addNames_nil r.names]
  exact names_of_records (records_expr s e r _ (tracks_layers r))

theorem names_stmt (st : Stmt) (r : Resolution) :
    (stmt s st r).names = addNames st.declares r.names :=
  names_of_records (records_stmt s st r _ (tracks_layers r))

theorem names_stmts (body : List Stmt) (r : Resolution) :
    (stmts s body r).names = addNames (Stmt.declaresAll body) r.names :=
  names_of_records (records_stmts s body r _ (tracks_layers r))

theorem names_lambda (f : Lambda) (r : Resolution) : (lambda s f r).names = r.names := by
  rw [← addNames_nil r.names]
  exact names_of_records (records_lambda s f r _ (tracks_layers r))

end Names

end Resolution

theorem Program.own_sites : ∀ p : Program, ∀ u ∈ p.sites, u.layers.Own
  | .statements body => Stmt.own_sitesAll .noClass body [] ⟨List.forall_mem_nil _, fun _ hl => nomatch hl⟩
  | .expression e => Expr.own_sites .noClass e [] (List.forall_mem_nil _)

open Resolution in
theorem hops_resolve (p : Program) (id : NodeId) :
    (resolve p).hops[id]? = Site.lastDistance? id p.sites := by
  have hstart : Tracks .start [] := rfl
  have hempty : Resolution.start.hops[id]? = none := rfl
  have hrecords : ∃ Γ, Records .start p.sites Γ (resolve p) := by
    cases p with
    | statements body => exact ⟨_, records_stmts .topLevel body .start [] hstart⟩
    | expression e => exact ⟨_, records_expr .topLevel e .start [] hstart⟩
  obtain ⟨_, h⟩ := hrecords
  rw [h.hops, hempty, Option.or_none]

open Resolution in
/-- The hops are the distances of lexical scoping. A node that looks a name up has the number of scopes
between it and the innermost one around it in which the name has been declared before, or none where
there is no such scope, and no other number has hops. What is declared in a scope is what its own text
declares there, so that nothing from the top level is in one. A walk over any node, from wherever it
begins, leaves the scopes and names that it found, with the names that the node itself declares. -/
theorem resolve_lexical (p : Program) :
    (∀ id, (resolve p).hops[id]? = Site.lastDistance? id p.sites) ∧
      ((p.sites.map Site.id).Nodup → ∀ u ∈ p.sites, (resolve p).hops[u.id]? = u.distance?) ∧
      (∀ id, id ∉ p.sites.map Site.id → (resolve p).hops[id]? = none) ∧
      (∀ u ∈ p.sites, u.layers.Own) ∧
      ∀ s r,
        (∀ e, (expr s e r).names = r.names) ∧
        (∀ st, (stmt s st r).names = addNames st.declares r.names) ∧
        (∀ body, (stmts s body r).names = addNames (Stmt.declaresAll body) r.names) ∧
        ∀ f, (lambda s f r).names = r.names := by
  refine ⟨hops_resolve p, fun hnodup u hu => ?_, fun id hid => ?_, p.own_sites, fun s r =>
    ⟨fun e => names_expr s e r, fun st => names_stmt s st r, fun body => names_stmts s body r,
      fun f => names_lambda s f r⟩⟩
  · rw [hops_resolve, lastDistance?_of_nodup hnodup hu]
  · rw [hops_resolve]
    exact lastDistance?_of_notMem fun u hu heq => hid (List.mem_map.2 ⟨u, hu, heq⟩)

/-- In a block a variable with a function as its initializer that reads it, and a class that inherits
from itself, with a method and a static method. -/
def selfReferences : Program :=
  let name (text : String) : Token := ⟨.identifier, text, none, 1⟩
  let this : Token := ⟨.this, "this", none, 1⟩
  let super : Token := ⟨.super, "super", none, 1⟩
  .statements
    [.block
      [.var (name "a") (some (.lambda (.mk [name "b"]
          [.expression (.assign ⟨0, name "b"⟩ (.variable ⟨1, name "a"⟩)),
            .print (.variable ⟨2, name "c"⟩)]))),
        .class (name "c") (some ⟨3, name "c"⟩)
          [.mk (name "m") (.mk [] [.print (.super ⟨4, super⟩ (name "m")), .print (.this ⟨5, this⟩)])]
          [.mk (name "s") (.mk [] [.print (.variable ⟨6, name "c"⟩), .print (.this ⟨7, this⟩)])]]]

theorem resolve_lexical_selfReferences :
    selfReferences.sites.map (fun u => (u.id, (resolve selfReferences).hops[u.id]?)) =
        [(1, some 1), (0, some 0), (2, none), (3, some 0), (4, some 2), (5, some 1), (6, some 2)] ∧
      (resolve selfReferences).hops[7]? = none := by
  have hids : selfReferences.sites.map Site.id = [1, 0, 2, 3, 4, 5, 6] := rfl
  obtain ⟨_, hdistances, hothers, _⟩ := resolve_lexical selfReferences
  refine ⟨?_, hothers 7 (by rw [hids]; decide)⟩
  rw [List.map_congr_left fun u hu =>
    congrArg (u.id, ·) (hdistances (by rw [hids]; decide) u hu)]
  decide

end Lox
