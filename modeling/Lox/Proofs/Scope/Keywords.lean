import Lox.Proofs.Scope.Lexical
import Lox.Proofs.Scope.Resolving
import Lox.Proofs.Syntax.LoopPlacement
import Lox.Proofs.Token.Spelling

/-!
Where `return`, `this` and `super` may stand. The bodies around them decide it, whatever else is in the
tree: the resolver reports each one that is out of place and no other, and finds what the others mean.
-/

namespace Lox

/-- Whether the fault is that of a keyword where it may not stand. -/
def ScopeFault.isPlacement : ScopeFault → Bool
  | returnOutsideFunction | returnFromInitializer => true
  | thisOutsideClass | thisInStaticMethod => true
  | superOutsideClass | superWithoutSuperclass | superInStaticMethod => true
  | redeclared _ | readInOwnInitializer _ | neverUsed _ | inheritsFromItself => false

def Diagnostic.isPlacement (d : Diagnostic) : Bool :=
  match d.problem with
  | .scoping fault => fault.isPlacement
  | .lexical _ | .syntactic _ => false

/-- Whether the body is that of a method of instances that prepares a new one. -/
def Enclosure.isInitializer : Enclosure → Bool
  | loop | function => false
  | method name isStatic _ => name.lexeme == "init" && !isStatic

namespace Enclosures

/-- Why `return` may not stand here. -/
def returnFault? (hasValue : Bool) (around : Enclosures) : Option ScopeFault :=
  match around.find? Enclosure.isFunction with
  | none => some .returnOutsideFunction
  | some body => if hasValue && body.isInitializer then some .returnFromInitializer else none

/-- Why `this` may not stand here. Only the innermost method matters, however deep in functions. -/
def thisFault? (around : Enclosures) : Option ScopeFault :=
  match around.find? Enclosure.isMethod with
  | some (.method _ isStatic _) => if isStatic then some .thisInStaticMethod else none
  | some .loop | some .function | none => some .thisOutsideClass

def superFault? (around : Enclosures) : Option ScopeFault :=
  match around.find? Enclosure.isMethod with
  | some (.method _ isStatic inherits) =>
    if isStatic then some .superInStaticMethod
    else if inherits then none
    else some .superWithoutSuperclass
  | some .loop | some .function | none => some .superOutsideClass

/-- What the resolver knows of the bodies around a place. -/
def surroundings : Enclosures → Surroundings
  | [] => .topLevel
  | .loop :: around => surroundings around
  | .function :: around => { surroundings around with body := .function }
  | .method name false inherits :: _ =>
    { body := if name.lexeme = "init" then .initializer else .method
      cls := if inherits then .subclass else .rootClass }
  | .method _ true _ :: _ => ⟨.function, .staticMethod⟩

end Enclosures

namespace Mark

/-- Why the keyword may not stand where it does. -/
def placementFault? (m : Mark) : Option ScopeFault :=
  match m.kind with
  | .return hasValue => m.around.returnFault? hasValue
  | .this _ => m.around.thisFault?
  | .super _ => m.around.superFault?
  | .break | .continue | .breakError | .continueError | .binaryError => none

def placementDiagnostic? (m : Mark) : Option Diagnostic :=
  m.placementFault?.map fun fault => .atToken m.token (.scoping fault)

end Mark

/-- Why `return` may not stand in a body of the kind. -/
def BodyKind.returnFault? (hasValue : Bool) : BodyKind → Option ScopeFault
  | topLevel => some .returnOutsideFunction
  | initializer => if hasValue then some .returnFromInitializer else none
  | function | method => none

namespace Enclosures

theorem returnFault?_cons {hasValue : Bool} {body : Enclosure} (h : body.isFunction)
    (around : Enclosures) : returnFault? hasValue (body :: around) =
      if hasValue && body.isInitializer then some .returnFromInitializer else none := by
  unfold returnFault?
  rw [List.find?_cons_of_pos h]

theorem surroundings_return (hasValue : Bool) (around : Enclosures) :
    (surroundings around).body.returnFault? hasValue = around.returnFault? hasValue := by
  induction around with
  | nil => rfl
  | cons enclosure around ih =>
    match enclosure with
    | .loop => exact ih
    | .function => rw [returnFault?_cons rfl, Enclosure.isInitializer, Bool.and_false]; rfl
    | .method name true inherits =>
      rw [returnFault?_cons rfl, Enclosure.isInitializer, Bool.not_true, Bool.and_false, Bool.and_false]
      rfl
    | .method name false inherits =>
      rw [returnFault?_cons rfl, Enclosure.isInitializer, Bool.not_false, Bool.and_true]
      unfold surroundings
      by_cases hinit : name.lexeme = "init"
      · simp [hinit, BodyKind.returnFault?]
      · simp [hinit, BodyKind.returnFault?]

/-- Functions and loops between a place and the innermost method around it do not matter to its class. -/
theorem surroundings_cls (around : Enclosures) : (surroundings around).cls =
    match around.find? Enclosure.isMethod with
    | some (.method _ true _) => .staticMethod
    | some (.method _ false inherits) => if inherits then .subclass else .rootClass
    | some .loop | some .function | none => .noClass := by
  induction around with
  | nil => rfl
  | cons enclosure around ih =>
    match enclosure with
    | .loop | .function => exact ih
    | .method _ true _ | .method _ false _ => rfl

theorem surroundings_this (around : Enclosures) :
    (surroundings around).cls.thisFault? = around.thisFault? := by
  rw [surroundings_cls, thisFault?]
  match around.find? Enclosure.isMethod with
  | none | some .loop | some .function | some (.method _ true _) => rfl
  | some (.method _ false inherits) => cases inherits <;> rfl

theorem surroundings_super (around : Enclosures) :
    (surroundings around).cls.superFault? = around.superFault? := by
  rw [surroundings_cls, superFault?]
  match around.find? Enclosure.isMethod with
  | none | some .loop | some .function | some (.method _ true _) => rfl
  | some (.method _ false inherits) => cases inherits <;> rfl

end Enclosures

/-- A walk that goes on from one resolution to another reports these keywords, beside other faults. -/
def Reports (r : Resolution) (ds : List Diagnostic) (r' : Resolution) : Prop :=
  r'.log.filter Diagnostic.isPlacement = ds.reverse ++ r.log.filter Diagnostic.isPlacement

namespace Reports

variable {r r' r'' : Resolution} {ds ds' : List Diagnostic} {ms ms' : List Mark}

theorem refl : Reports r [] r := rfl

theorem trans (h : Reports r ds r') (h' : Reports r' ds' r'') : Reports r (ds ++ ds') r'' := by
  unfold Reports at h h' ⊢
  rw [h', h, List.reverse_append, List.append_assoc]

/-- What reports no keyword may come first or last. -/
theorem after (h : Reports r [] r') (h' : Reports r' ds r'') : Reports r ds r'' := h.trans h'

theorem before (h : Reports r ds r') (h' : Reports r' [] r'') : Reports r ds r'' := by
  have htrans := h.trans h'
  rwa [List.append_nil] at htrans

/-- The faults of some nodes and of those behind them. -/
theorem append (h : Reports r (ms.filterMap Mark.placementDiagnostic?) r')
    (h' : Reports r' (ms'.filterMap Mark.placementDiagnostic?) r'') :
    Reports r ((ms ++ ms').filterMap Mark.placementDiagnostic?) r'' := by
  rw [List.filterMap_append]
  exact h.trans h'

end Reports

theorem filterMap_mark (m : Mark) :
    [m].filterMap Mark.placementDiagnostic? = m.placementDiagnostic?.toList := by
  rw [List.filterMap_cons]
  cases m.placementDiagnostic? <;> rfl

namespace Resolution

variable {r : Resolution} {around : Enclosures}

section Steps

theorem reports_other (t : Token) {fault : ScopeFault} (h : fault.isPlacement = false) :
    Reports r [] (r.report t fault) := by
  have hother : (Diagnostic.atToken t (.scoping fault)).isPlacement = false := h
  exact List.filter_cons_of_neg (Bool.eq_false_iff.1 hother)

theorem reports_openScope : Reports r [] r.openScope := .refl

theorem reports_closeScope : Reports r [] r.closeScope := by
  unfold closeScope
  cases r.scopes with
  | nil => exact .refl
  | cons s rest =>
    simp only
    generalize s.unused = unused
    have hscopes : Reports r [] { r with scopes := rest } := .refl
    generalize { r with scopes := rest } = r' at hscopes
    induction unused generalizing r' with
    | nil => exact hscopes
    | cons t unused ih => exact ih _ (hscopes.before (reports_other t rfl))

theorem reports_declare (name : Token) : Reports r [] (r.declare name) := by
  unfold declare
  cases r.scopes with
  | nil => exact .refl
  | cons s rest =>
    simp only
    split
    · exact reports_other name rfl
    · exact .refl

theorem reports_modifyInnermost (name : String) (f : Binding → Binding) :
    Reports r [] (modifyInnermost name f r) := by
  unfold modifyInnermost
  split <;> exact .refl

theorem reports_defined (name : Token) : Reports r [] ((r.declare name).define name) :=
  (reports_declare name).after (reports_modifyInnermost _ _)

theorem reports_parameters (params : List Token) :
    Reports r [] (params.foldl (fun r p => r.declareParameter p) r) := by
  induction params generalizing r with
  | nil => exact .refl
  | cons p rest ih =>
    have hfirst : Reports r [] (r.declareParameter p) :=
      (reports_defined p).after (reports_modifyInnermost _ _)
    exact hfirst.after ih

theorem reports_bindImplicit (lexeme : String) (className : Token) :
    Reports r [] (r.bindImplicit lexeme className) := by
  unfold bindImplicit
  split <;> exact .refl

theorem reports_record (ref : Reference) (isRead : Bool) : Reports r [] (r.record ref isRead) := by
  unfold record
  split <;> exact .refl

theorem reports_readVariable (ref : Reference) : Reports r [] (readVariable ref r) := by
  unfold readVariable
  simp only
  split
  · exact (reports_other ref.name rfl).after (reports_record ref true)
  · exact reports_record ref true

theorem reports_openSuper (className : Token) (superclass : Option Reference) :
    Reports r [] (openSuper className superclass r) := by
  unfold openSuper
  cases superclass with
  | none => exact .refl
  | some ref =>
    have hread (r' : Resolution) :
        Reports r' [] ((readVariable ref r').openScope.bindImplicit "super" className) :=
      (reports_readVariable ref).after (reports_openScope.after (reports_bindImplicit "super" className))
    simp only
    split
    · exact (reports_other ref.name rfl).after (hread _)
    · exact hread r

theorem reports_readKeyword (ref : Reference) {fault? : Option ScopeFault}
    (h : ∀ fault ∈ fault?, fault.isPlacement) :
    Reports r (fault?.map fun fault => .atToken ref.name (.scoping fault)).toList
      (readKeyword ref fault? r) := by
  cases fault? with
  | none => exact reports_record ref true
  | some fault => exact List.filter_cons_of_pos (h fault rfl)

theorem reports_this (ref : Reference) :
    Reports r ((Expr.this ref).marks around |>.filterMap Mark.placementDiagnostic?)
      (readKeyword ref around.surroundings.cls.thisFault? r) := by
  have hfaults : ∀ fault ∈ around.surroundings.cls.thisFault?, fault.isPlacement := by
    cases around.surroundings.cls <;> simp [ClassKind.thisFault?, ScopeFault.isPlacement]
  have hread := reports_readKeyword (r := r) ref hfaults
  rw [Expr.marks, filterMap_mark, Mark.placementDiagnostic?, Mark.placementFault?]
  rwa [Enclosures.surroundings_this] at hread ⊢

theorem reports_super (ref : Reference) (method : Token) :
    Reports r ((Expr.super ref method).marks around |>.filterMap Mark.placementDiagnostic?)
      (readKeyword ref around.surroundings.cls.superFault? r) := by
  have hfaults : ∀ fault ∈ around.surroundings.cls.superFault?, fault.isPlacement := by
    cases around.surroundings.cls <;> simp [ClassKind.superFault?, ScopeFault.isPlacement]
  have hread := reports_readKeyword (r := r) ref hfaults
  rw [Expr.marks, filterMap_mark, Mark.placementDiagnostic?, Mark.placementFault?]
  rwa [Enclosures.surroundings_super] at hread ⊢

theorem reports_returnFaults (around : Enclosures) (keyword : Token) (hasValue : Bool) :
    Reports r ([Mark.mk (.return hasValue) keyword around].filterMap Mark.placementDiagnostic?)
      (r.returnFaults keyword hasValue around.surroundings.body) := by
  rw [filterMap_mark, Mark.placementDiagnostic?, Mark.placementFault?]
  simp only
  rw [← Enclosures.surroundings_return]
  cases around.surroundings.body <;> cases hasValue <;> rfl

end Steps

section Walks

mutual

theorem reports_expr (around : Enclosures) : ∀ (e : Expr) (r : Resolution),
    Reports r ((e.marks around).filterMap Mark.placementDiagnostic?) (expr around.surroundings e r)
  | .literal _, _ => .refl
  | .grouping inner, r => reports_expr around inner r
  | .unary _ right, r => reports_expr around right r
  | .binaryError _ right, r => reports_expr around right r
  | .binary left _ right, r => by
    have hleft := reports_expr around left r
    have hright := reports_expr around right (expr around.surroundings left r)
    exact hleft.append hright
  | .conditional condition thenBranch elseBranch, r => by
    have hcondition := reports_expr around condition r
    have hthen := reports_expr around thenBranch (expr around.surroundings condition r)
    exact hcondition.append (hthen.append (reports_expr around elseBranch _))
  | .variable ref, _ => reports_readVariable ref
  | .assign target value, r => by
    have hvalue := reports_expr around value r
    exact hvalue.before (reports_record target false)
  | .call callee _ arguments, r => by
    have hcallee := reports_expr around callee r
    have harguments := reports_exprs around arguments (expr around.surroundings callee r)
    exact hcallee.append harguments
  | .get object _, r => reports_expr around object r
  | .set object _ value, r => by
    have hvalue := reports_expr around value r
    have hobject := reports_expr around object (expr around.surroundings value r)
    exact hvalue.append hobject
  | .this ref, _ => reports_this ref
  | .super ref method, _ => reports_super ref method
  | .lambda function, r => reports_lambda (.function :: around) function r

theorem reports_exprs (around : Enclosures) : ∀ (es : List Expr) (r : Resolution),
    Reports r ((Expr.marksAll es around).filterMap Mark.placementDiagnostic?)
      (exprs around.surroundings es r)
  | [], _ => .refl
  | e :: rest, r => by
    have hfirst := reports_expr around e r
    exact hfirst.append (reports_exprs around rest _)

theorem reports_optionalExpr (around : Enclosures) : ∀ (e? : Option Expr) (r : Resolution),
    Reports r ((Expr.marks? e? around).filterMap Mark.placementDiagnostic?)
      (optionalExpr around.surroundings e? r)
  | none, _ => .refl
  | some e, r => reports_expr around e r

theorem reports_stmt (around : Enclosures) : ∀ (st : Stmt) (r : Resolution),
    Reports r ((st.marks around).filterMap Mark.placementDiagnostic?) (stmt around.surroundings st r)
  | .expression e, r => reports_expr around e r
  | .print e, r => reports_expr around e r
  | .var name initializer, r => by
    have hinitializer := reports_optionalExpr around initializer (r.declare name)
    have hvalue := (reports_declare name).after hinitializer
    exact hvalue.before (reports_modifyInnermost _ _)
  | .block body, r => by
    have hbody := reports_openScope.after (reports_stmts around body r.openScope)
    exact hbody.before reports_closeScope
  | .ite condition thenBranch elseBranch, r => by
    have hcondition := reports_expr around condition r
    have hthen := reports_stmt around thenBranch (expr around.surroundings condition r)
    exact hcondition.append (hthen.append (reports_optionalStmt around elseBranch _))
  | .loop condition body increment, r => by
    have hcondition := reports_expr around condition r
    have hbody := reports_stmt (.loop :: around) body (expr around.surroundings condition r)
    exact hcondition.append (hbody.append (reports_optionalExpr around increment _))
  | .break _, _ | .continue _, _ | .breakError _, _ | .continueError _, _ => .refl
  | .function (.mk name function), r => by
    have hfunction := reports_lambda (.function :: around) function ((r.declare name).define name)
    exact (reports_defined name).after hfunction
  | .return keyword value, r => by
    have hkeyword := reports_returnFaults (r := r) around keyword value.isSome
    exact hkeyword.append (reports_optionalExpr around value _)
  | .class name superclass own statics, r => by
    have hsuper := (reports_defined (r := r) name).after (reports_openSuper name superclass)
    have hthis := hsuper.after (reports_openScope.after (reports_bindImplicit "this" name))
    have hown := hthis.after (reports_methods around superclass.isSome own around.surroundings.body _)
    have hmembers := (hown.before reports_closeScope).append
      (reports_staticMethods around superclass.isSome statics around.surroundings.body _)
    cases superclass with
    | none => exact hmembers
    | some ref => exact hmembers.before reports_closeScope

theorem reports_optionalStmt (around : Enclosures) : ∀ (st? : Option Stmt) (r : Resolution),
    Reports r ((Stmt.marks? st? around).filterMap Mark.placementDiagnostic?)
      (optionalStmt around.surroundings st? r)
  | none, _ => .refl
  | some st, r => reports_stmt around st r

theorem reports_stmts (around : Enclosures) : ∀ (body : List Stmt) (r : Resolution),
    Reports r ((Stmt.marksAll body around).filterMap Mark.placementDiagnostic?)
      (stmts around.surroundings body r)
  | [], _ => .refl
  | st :: rest, r => by
    have hfirst := reports_stmt around st r
    exact hfirst.append (reports_stmts around rest _)

/-- Behind the body the surroundings are those from before, as no step of the walk changes them. -/
theorem reports_lambda (around : Enclosures) : ∀ (f : Lambda) (r : Resolution),
    Reports r ((f.marks around).filterMap Mark.placementDiagnostic?) (lambda around.surroundings f r)
  | .mk params body, r => by
    have hparams := (reports_openScope (r := r)).after (reports_parameters params)
    have hbody := hparams.after (reports_stmts around body _)
    exact hbody.before reports_closeScope

theorem reports_methods (around : Enclosures) (inherits : Bool) : ∀ (decls : List FunctionDecl)
    (body : BodyKind) (r : Resolution),
    Reports r ((FunctionDecl.marksAll false inherits decls around).filterMap Mark.placementDiagnostic?)
      (methods ⟨body, if inherits then .subclass else .rootClass⟩ decls r)
  | [], _, _ => .refl
  | .mk name function :: rest, body, r => by
    have hfirst := reports_lambda (.method name false inherits :: around) function r
    exact hfirst.append (reports_methods around inherits rest body _)

theorem reports_staticMethods (around : Enclosures) (inherits : Bool) : ∀ (decls : List FunctionDecl)
    (body : BodyKind) (r : Resolution),
    Reports r ((FunctionDecl.marksAll true inherits decls around).filterMap Mark.placementDiagnostic?)
      (staticMethods ⟨body, .staticMethod⟩ decls r)
  | [], _, _ => .refl
  | .mk name function :: rest, body, r => by
    have hfirst := reports_lambda (.method name true inherits :: around) function r
    exact hfirst.append (reports_staticMethods around inherits rest body _)

end

end Walks

end Resolution

/-- The reports of misplaced keywords are those of the nodes that are out of place, one for each. -/
theorem resolve_placement (p : Program) :
    (resolve p).log.reverse.filter Diagnostic.isPlacement =
      p.marks.filterMap Mark.placementDiagnostic? := by
  have hreports : Reports .start (p.marks.filterMap Mark.placementDiagnostic?) (resolve p) := by
    cases p with
    | statements body => exact Resolution.reports_stmts [] body .start
    | expression e => exact Resolution.reports_expr [] e .start
  have hstart : Resolution.start.log.filter Diagnostic.isPlacement = [] := rfl
  rw [List.filter_reverse, hreports, hstart, List.append_nil, List.reverse_reverse]

-- A class in a static method has a receiver of its own, for a function in its method, too.
example :
    let name (text : String) : Token := ⟨.identifier, text, none, 1⟩
    let this (line : Nat) : Token := ⟨.this, "this", none, line⟩
    let inner := Stmt.class (name "B") (some ⟨0, name "A"⟩)
      [.mk (name "n") (.mk [] [.expression (.lambda (.mk [] [.expression (.this ⟨1, this 2⟩)]))])] []
    let outer := Stmt.class (name "A") none []
      [.mk (name "m") (.mk [] [inner, .expression (.this ⟨2, this 3⟩)])]
    (Program.statements [outer]).marks.filterMap Mark.placementDiagnostic? =
      [.atToken (this 3) (.scoping .thisInStaticMethod)] := by
  decide

namespace Layers

variable {Γ : Layers} {x : String}

theorem isSome_push (l : Layer) (h : (find? Γ x).isSome) : (find? (l :: Γ) x).isSome := by
  rw [find?_cons]
  split
  · rfl
  · rwa [Option.isSome_map]

/-- A name that is found is found behind any declaration, though it may be another one. -/
theorem isSome_declare (name : String) (h : (find? Γ x).isSome) : (find? (Γ.declare name) x).isSome := by
  cases Γ with
  | nil => exact h
  | cons l rest =>
    show (find? (⟨l.scope, name :: l.names⟩ :: rest) x).isSome
    by_cases hx : l.names.contains x
    · have hnames : (name :: l.names).contains x := by rw [List.contains_cons, hx, Bool.or_true]
      rw [find?_cons, if_pos hnames]
      rfl
    · rw [find?_cons, if_neg hx, Option.isSome_map] at h
      exact isSome_push _ h

end Layers

/-- The scopes have what a class of the kind gives a meaning to. -/
structure ClassKind.Binds (c : ClassKind) (Γ : Layers) : Prop where
  this : c.thisFault? = none → (Γ.find? "this").isSome
  super : c.superFault? = none → (Γ.find? "super").isSome

namespace ClassKind.Binds

variable {c : ClassKind} {Γ : Layers}

theorem push (l : Layer) (h : c.Binds Γ) : c.Binds (l :: Γ) :=
  ⟨fun hc => Layers.isSome_push l (h.this hc), fun hc => Layers.isSome_push l (h.super hc)⟩

theorem declare (name : String) (h : c.Binds Γ) : c.Binds (Γ.declare name) :=
  ⟨fun hc => Layers.isSome_declare name (h.this hc), fun hc => Layers.isSome_declare name (h.super hc)⟩

theorem declareAll (names : List String) (h : c.Binds Γ) : c.Binds (Γ.declareAll names) := by
  induction names generalizing Γ with
  | nil => exact h
  | cons name names ih => exact ih (h.declare name)

theorem noClass : Binds .noClass Γ := ⟨nofun, nofun⟩

theorem staticMethod : Binds .staticMethod Γ := ⟨nofun, nofun⟩

/-- A class opens the scopes that its methods need. -/
theorem ofReceiver (name : Token) (superclass : Option Reference) (own statics : List FunctionDecl) :
    Binds (if superclass.isSome then .subclass else .rootClass)
      ((Γ.ofClass name superclass own statics).ofReceiver own) := by
  constructor
  · intro _
    rw [Layers.ofReceiver, Layers.find?_cons]
    rfl
  · cases superclass with
    | none =>
      intro hfault
      cases hfault
    | some ref =>
      intro _
      apply Layers.isSome_push
      rw [Layers.ofClass, Layers.find?_cons]
      rfl

end ClassKind.Binds

/-- The keywords among some nodes that are in place are looked up and found. -/
def Found (ms : List Mark) (us : List Site) : Prop :=
  ∀ m ∈ ms, m.Written Token.Spelled → m.placementFault? = none →
    ∀ id, m.kind = .this id ∨ m.kind = .super id → ∃ u ∈ us, u.id = id ∧ u.distance?.isSome

namespace Found

variable {ms ms' : List Mark} {us us' : List Site}

theorem nil : Found [] us := fun _ hm => nomatch hm

theorem mono (h : Found ms us) (hus : us ⊆ us') : Found ms us' := by
  intro m hm hw hfault id hid
  obtain ⟨u, hu, hfound⟩ := h m hm hw hfault id hid
  exact ⟨u, hus hu, hfound⟩

theorem append (h : Found ms us) (h' : Found ms' us') : Found (ms ++ ms') (us ++ us') := by
  intro m hm
  rcases List.mem_append.1 hm with hm | hm
  · exact h.mono (List.subset_append_left us us') m hm
  · exact h'.mono (List.subset_append_right us us') m hm

end Found

section Keywords

variable {around : Enclosures} {Γ : Layers}

theorem found_this (h : around.surroundings.cls.Binds Γ) (ref : Reference) :
    Found ((Expr.this ref).marks around) ((Expr.this ref).sites around.surroundings.cls Γ) := by
  intro m hm hw hfault id hid
  obtain rfl := List.mem_singleton.1 hm
  obtain rfl : ref.id = id := by simpa using hid
  have hplaced : around.surroundings.cls.thisFault? = none := around.surroundings_this.trans hfault
  refine ⟨⟨ref, Γ⟩, ?_, rfl, ?_⟩
  · rw [Expr.sites, if_pos hplaced]
    exact List.mem_singleton_self _
  · rw [Site.distance?, hw.2.this hw.1]
    exact h.this hplaced

theorem found_super (h : around.surroundings.cls.Binds Γ) (ref : Reference) (method : Token) :
    Found ((Expr.super ref method).marks around)
      ((Expr.super ref method).sites around.surroundings.cls Γ) := by
  intro m hm hw hfault id hid
  obtain rfl := List.mem_singleton.1 hm
  obtain rfl : ref.id = id := by simpa using hid
  have hplaced : around.surroundings.cls.superFault? = none := around.surroundings_super.trans hfault
  refine ⟨⟨ref, Γ⟩, ?_, rfl, ?_⟩
  · rw [Expr.sites, if_pos hplaced]
    exact List.mem_singleton_self _
  · rw [Site.distance?, hw.2.super hw.1]
    exact h.super hplaced

/-- The other nodes look nothing up. -/
theorem found_other {ms : List Mark} {us : List Site} {m : Mark} (hthis : ∀ id, m.kind ≠ .this id)
    (hsuper : ∀ id, m.kind ≠ .super id) (h : Found ms us) : Found (m :: ms) us := by
  intro m' hm hw hfault id hid
  rcases List.mem_cons.1 hm with rfl | hm
  · exact (hid.elim (hthis id) (hsuper id)).elim
  · exact h m' hm hw hfault id hid

mutual

theorem found_expr (around : Enclosures) : ∀ (e : Expr) (Γ : Layers),
    around.surroundings.cls.Binds Γ → Found (e.marks around) (e.sites around.surroundings.cls Γ)
  | .literal _, _, _ => .nil
  | .grouping inner, Γ, h => found_expr around inner Γ h
  | .unary _ right, Γ, h => found_expr around right Γ h
  | .binaryError _ right, Γ, h => found_other nofun nofun (found_expr around right Γ h)
  | .binary left _ right, Γ, h => by
    have hleft := found_expr around left Γ h
    have hright := found_expr around right Γ h
    exact hleft.append hright
  | .conditional condition thenBranch elseBranch, Γ, h => by
    have hcondition := found_expr around condition Γ h
    have hthen := found_expr around thenBranch Γ h
    have helse := found_expr around elseBranch Γ h
    exact hcondition.append (hthen.append helse)
  | .variable _, _, _ => .nil
  | .assign _ value, Γ, h => by
    have hvalue := found_expr around value Γ h
    exact hvalue.mono (List.subset_append_left _ _)
  | .call callee _ arguments, Γ, h => by
    have hcallee := found_expr around callee Γ h
    have harguments := found_exprs around arguments Γ h
    exact hcallee.append harguments
  | .get object _, Γ, h => found_expr around object Γ h
  | .set object _ value, Γ, h => by
    have hvalue := found_expr around value Γ h
    have hobject := found_expr around object Γ h
    exact hvalue.append hobject
  | .this ref, _, h => found_this h ref
  | .super ref method, _, h => found_super h ref method
  | .lambda function, Γ, h => found_lambda (.function :: around) function Γ h

theorem found_exprs (around : Enclosures) : ∀ (es : List Expr) (Γ : Layers),
    around.surroundings.cls.Binds Γ →
    Found (Expr.marksAll es around) (Expr.sitesAll around.surroundings.cls Γ es)
  | [], _, _ => .nil
  | e :: rest, Γ, h => by
    have hfirst := found_expr around e Γ h
    have hrest := found_exprs around rest Γ h
    exact hfirst.append hrest

theorem found_optionalExpr (around : Enclosures) : ∀ (e? : Option Expr) (Γ : Layers),
    around.surroundings.cls.Binds Γ →
    Found (Expr.marks? e? around) (Expr.sites? around.surroundings.cls Γ e?)
  | none, _, _ => .nil
  | some e, Γ, h => found_expr around e Γ h

theorem found_stmt (around : Enclosures) : ∀ (st : Stmt) (Γ : Layers),
    around.surroundings.cls.Binds Γ → Found (st.marks around) (st.sites around.surroundings.cls Γ)
  | .expression e, Γ, h => found_expr around e Γ h
  | .print e, Γ, h => found_expr around e Γ h
  | .var name initializer, _, h => found_optionalExpr around initializer _ (h.declare name.lexeme)
  | .block body, _, h => found_stmts around body _ (h.push _)
  | .ite condition thenBranch elseBranch, Γ, h => by
    have hcondition := found_expr around condition Γ h
    have hthen := found_stmt around thenBranch Γ h
    have helse := found_optionalStmt around elseBranch _ (h.declareAll thenBranch.declares)
    exact hcondition.append (hthen.append helse)
  | .loop condition body increment, Γ, h => by
    have hcondition := found_expr around condition Γ h
    have hbody := found_stmt (.loop :: around) body Γ h
    have hincrement := found_optionalExpr around increment _ (h.declareAll body.declares)
    exact hcondition.append (hbody.append hincrement)
  | .break _, _, _ => found_other nofun nofun .nil
  | .continue _, _, _ => found_other nofun nofun .nil
  | .breakError _, _, _ => found_other nofun nofun .nil
  | .continueError _, _, _ => found_other nofun nofun .nil
  | .function (.mk name function), _, h =>
    found_lambda (.function :: around) function _ (h.declare name.lexeme)
  | .return _ value, Γ, h => found_other nofun nofun (found_optionalExpr around value Γ h)
  | .class name superclass own statics, Γ, _ => by
    let inner := Γ.ofClass name superclass own statics
    have hown := found_own around superclass.isSome own (inner.ofReceiver own)
      (.ofReceiver name superclass own statics)
    have hstatics := found_statics around superclass.isSome statics inner
    exact (hown.append hstatics).mono (List.subset_append_right _ _)

theorem found_optionalStmt (around : Enclosures) : ∀ (st? : Option Stmt) (Γ : Layers),
    around.surroundings.cls.Binds Γ →
    Found (Stmt.marks? st? around) (Stmt.sites? around.surroundings.cls Γ st?)
  | none, _, _ => .nil
  | some st, Γ, h => found_stmt around st Γ h

theorem found_stmts (around : Enclosures) : ∀ (body : List Stmt) (Γ : Layers),
    around.surroundings.cls.Binds Γ →
    Found (Stmt.marksAll body around) (Stmt.sitesAll around.surroundings.cls Γ body)
  | [], _, _ => .nil
  | st :: rest, Γ, h => by
    have hfirst := found_stmt around st Γ h
    have hrest := found_stmts around rest _ (h.declareAll st.declares)
    exact hfirst.append hrest

theorem found_lambda (around : Enclosures) : ∀ (f : Lambda) (Γ : Layers),
    around.surroundings.cls.Binds Γ → Found (f.marks around) (f.sites around.surroundings.cls Γ)
  | .mk _ body, _, h => found_stmts around body _ (h.push _)

theorem found_own (around : Enclosures) (inherits : Bool) : ∀ (decls : List FunctionDecl)
    (Γ : Layers), ClassKind.Binds (if inherits then .subclass else .rootClass) Γ →
    Found (FunctionDecl.marksAll false inherits decls around)
      (FunctionDecl.sitesAll (if inherits then .subclass else .rootClass) Γ decls)
  | [], _, _ => .nil
  | .mk name function :: rest, Γ, h => by
    have hfirst := found_lambda (.method name false inherits :: around) function Γ h
    have hrest := found_own around inherits rest Γ h
    exact hfirst.append hrest

theorem found_statics (around : Enclosures) (inherits : Bool) : ∀ (decls : List FunctionDecl)
    (Γ : Layers), Found (FunctionDecl.marksAll true inherits decls around)
      (FunctionDecl.sitesAll .staticMethod Γ decls)
  | [], _ => .nil
  | .mk name function :: rest, Γ => by
    have hfirst := found_lambda (.method name true inherits :: around) function Γ .staticMethod
    have hrest := found_statics around inherits rest Γ
    exact hfirst.append hrest

end

end Keywords

theorem Program.found : ∀ p : Program, Found p.marks p.sites
  | .statements body => found_stmts [] body [] .noClass
  | .expression e => found_expr [] e [] .noClass

/-- A number has hops where one of its nodes is found. -/
theorem hops_isSome {p : Program} {u : Site} (hu : u ∈ p.sites) (hd : u.distance?.isSome) :
    (resolve p).hops[u.id]?.isSome := by
  rw [hops_resolve, Site.lastDistance?, List.getLast?_isSome]
  obtain ⟨distance, hdistance⟩ := Option.isSome_iff_exists.1 hd
  apply List.ne_nil_of_mem
  exact List.mem_filterMap.2 ⟨u, List.mem_filter.2 ⟨hu, by simp⟩, hdistance⟩

/-- In whatever tree a text has, faulty or not, each `return`, `this` and `super` that is out of place is
reported once, as the bodies around it say, and no other is. A `this` or `super` that is in place has
its hops. -/
theorem keyword_placement (source : String) (allowExpression : Bool) (nextId : NodeId) :
    let p := (parse (tokensOf (scan source)) allowExpression nextId).program
    (resolve p).log.reverse.filter Diagnostic.isPlacement =
        p.marks.filterMap Mark.placementDiagnostic? ∧
      ∀ m ∈ p.marks, ∀ id, m.kind = .this id ∨ m.kind = .super id → m.placementFault? = none →
        (resolve p).hops[id]?.isSome := by
  intro p
  refine ⟨resolve_placement p, fun m hm id hid hfault => ?_⟩
  have hwritten := ((parse_noted (scan_spelled source) allowExpression nextId).1 m hm).2
  obtain ⟨u, hu, rfl, hd⟩ := p.found m hm hwritten hfault id hid
  exact hops_isSome hu hd

end Lox
