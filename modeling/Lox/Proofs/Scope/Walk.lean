import Lox.Proofs.Syntax.Propriety
import Lox.Scope.Resolve

/-!
What the resolver leaves as it was. It opens and closes scopes in pairs, never takes a diagnostic back
and changes only the hops of the occurrences that it walks over.
-/

namespace Lox

theorem values_eq_toList (s : Scope) : s.values = s.toList.map Prod.snd := by
  have hfold : s.values = s.foldr (fun _ b values => b :: values) [] := rfl
  rw [hfold, Std.TreeMap.foldr_eq_foldr_toList]
  induction s.toList with
  | nil => rfl
  | cons entry rest ih => rw [List.foldr_cons, ih, List.map_cons]

/-- The names of each open scope. -/
def Resolution.names (r : Resolution) : List (String → Bool) := r.scopes.map fun s x => s.contains x

def Layers.view (Γ : Layers) : List (String → Bool) := Γ.map fun l x => l.names.contains x

/-- The open scopes are these. -/
def Tracks (r : Resolution) (Γ : Layers) : Prop := r.names = Γ.view

/-- What a walk over occurrences with some numbers does to a resolution. -/
structure Walk (r r' : Resolution) (ids : List NodeId) : Prop where
  log : r'.log = [] → r.log = []
  hops : ∀ id, id ∉ ids → r'.hops[id]? = r.hops[id]?

namespace Walk

variable {r r' r'' : Resolution} {ids ids' : List NodeId}

theorem refl (r : Resolution) : Walk r r [] := ⟨id, fun _ _ => rfl⟩

theorem trans (h : Walk r r' ids) (h' : Walk r' r'' ids') : Walk r r'' (ids ++ ids') := by
  constructor
  · intro hlog
    exact h.log (h'.log hlog)
  · intro id hid
    rw [List.mem_append, not_or] at hid
    rw [h'.hops id hid.2, h.hops id hid.1]

/-- A walk over nothing may come first or last. -/
theorem after (h : Walk r r' []) (h' : Walk r' r'' ids) : Walk r r'' ids := h.trans h'

theorem before (h : Walk r r' ids) (h' : Walk r' r'' []) : Walk r r'' ids := by
  have htrans := h.trans h'
  rwa [List.append_nil] at htrans

end Walk

namespace Resolution

variable {r : Resolution} {Γ : Layers} {l : Layer}

/-- A diagnostic is never taken back. -/
theorem log_report (t : Token) (fault : ScopeFault) : (r.report t fault).log ≠ [] :=
  List.cons_ne_nil _ _

theorem walk_report (t : Token) (fault : ScopeFault) : Walk r (r.report t fault) [] :=
  ⟨fun h => absurd h (log_report t fault), fun _ _ => rfl⟩

theorem walk_openScope : Walk r r.openScope [] := ⟨id, fun _ _ => rfl⟩

theorem tracks_openScope (h : Tracks r Γ) (scope : StaticScope) :
    Tracks r.openScope (⟨scope, []⟩ :: Γ) := by
  unfold Tracks names Layers.view at h ⊢
  unfold openScope
  rw [List.map_cons, List.map_cons, h]
  congr 1

theorem closeScope_eq : r.closeScope.scopes = r.scopes.tail ∧ r.closeScope.hops = r.hops ∧
    (r.closeScope.log = [] → r.log = []) := by
  unfold closeScope
  cases hs : r.scopes with
  | nil => exact ⟨by rw [hs]; rfl, rfl, id⟩
  | cons s rest =>
    simp only
    generalize s.unused = unused
    have hfold : ∀ (ts : List Token) (r : Resolution),
        (ts.foldl (fun r t => r.report t (.neverUsed t.lexeme)) r).scopes = r.scopes ∧
        (ts.foldl (fun r t => r.report t (.neverUsed t.lexeme)) r).hops = r.hops ∧
        ((ts.foldl (fun r t => r.report t (.neverUsed t.lexeme)) r).log = [] → r.log = []) := by
      intro ts
      induction ts with
      | nil => exact fun r => ⟨rfl, rfl, id⟩
      | cons t ts ih =>
        intro r
        obtain ⟨hscopes, hhops, hlog⟩ := ih (r.report t (.neverUsed t.lexeme))
        exact ⟨hscopes, hhops, fun h => absurd (hlog h) (log_report _ _)⟩
    exact hfold unused _

theorem walk_closeScope : Walk r r.closeScope [] := by
  obtain ⟨_, hhops, hlog⟩ := closeScope_eq (r := r)
  exact ⟨hlog, fun id _ => by rw [hhops]⟩

theorem tracks_closeScope (h : Tracks r (l :: Γ)) : Tracks r.closeScope Γ := by
  unfold Tracks names Layers.view at h ⊢
  rw [closeScope_eq.1, List.map_tail, h]
  rfl

theorem walk_declare (name : Token) : Walk r (r.declare name) [] := by
  unfold declare
  cases r.scopes with
  | nil => exact .refl r
  | cons s rest =>
    simp only
    split
    · exact ⟨fun h => absurd h (log_report _ _), fun _ _ => rfl⟩
    · exact ⟨id, fun _ _ => rfl⟩

theorem view_declare (x : String) (Γ : Layers) : (Γ.declare x).view =
    match Γ.view with
    | [] => []
    | f :: rest => (fun y => x == y || f y) :: rest := by
  cases Γ with
  | nil => rfl
  | cons l rest =>
    show (fun y => (x :: l.names).contains y) :: _ = _
    congr 1
    funext y
    rw [List.contains_cons, Bool.beq_comm]

theorem compare_eq_beq (x y : String) : (compare x y == .eq) = (x == y) := by
  rw [Bool.eq_iff_iff]
  simp

theorem names_declare (name : Token) : (r.declare name).names =
    match r.names with
    | [] => []
    | f :: rest => (fun y => name.lexeme == y || f y) :: rest := by
  unfold declare names
  cases hs : r.scopes with
  | nil => simp [hs]
  | cons s rest =>
    have hinsert : (fun y => (s.insert name.lexeme ⟨false, false, name⟩).contains y) =
        fun y => name.lexeme == y || s.contains y := by
      funext y
      rw [Std.TreeMap.contains_insert, compare_eq_beq]
    simp only [List.map_cons]
    split
    · exact congrArg (· :: _) hinsert
    · exact congrArg (· :: _) hinsert

theorem tracks_declare (h : Tracks r Γ) (name : Token) :
    Tracks (r.declare name) (Γ.declare name.lexeme) := by
  unfold Tracks at h ⊢
  rw [view_declare, ← h]
  exact names_declare name

theorem modifyInnermost_eq (name : String) (f : Binding → Binding) :
    (modifyInnermost name f r).names = r.names ∧ Walk r (modifyInnermost name f r) [] := by
  unfold modifyInnermost names
  cases hs : r.scopes with
  | nil => exact ⟨by simp [hs], .refl r⟩
  | cons s rest =>
    refine ⟨?_, id, fun _ _ => rfl⟩
    rw [List.map_cons, List.map_cons]
    congr 1
    funext x
    exact Std.TreeMap.contains_modify

theorem walk_define (name : Token) : Walk r (define name r) [] := (modifyInnermost_eq _ _).2

theorem tracks_define (h : Tracks r Γ) (name : Token) : Tracks (define name r) Γ :=
  (modifyInnermost_eq _ _).1.trans h

theorem walk_bindImplicit (lexeme : String) (name : Token) :
    Walk r (r.bindImplicit lexeme name) [] := by
  unfold bindImplicit
  cases r.scopes with
  | nil => exact .refl r
  | cons s rest => exact ⟨id, fun _ _ => rfl⟩

theorem tracks_bindImplicit (lexeme : String) (name : Token) (scope : StaticScope)
    (h : Tracks r (⟨scope, []⟩ :: Γ)) :
    Tracks (r.bindImplicit lexeme name) (⟨scope, [lexeme]⟩ :: Γ) := by
  unfold Tracks names Layers.view at h ⊢
  unfold bindImplicit
  cases hs : r.scopes with
  | nil => simp [hs] at h
  | cons s rest =>
    rw [hs, List.map_cons, List.map_cons] at h
    obtain ⟨hhead, htail⟩ := List.cons.inj h
    simp only [List.map_cons]
    rw [htail]
    congr 1
    funext x
    have hx := congrFun hhead x
    simp only [List.contains_nil] at hx
    rw [Std.TreeMap.contains_insert, hx, Bool.or_false, compare_eq_beq, Bool.beq_comm,
      List.contains_cons, List.contains_nil, Bool.or_false]

theorem findIdx?_scopes (h : Tracks r Γ) (x : String) :
    r.scopes.findIdx? (·.contains x) = Γ.find? x := by
  unfold Tracks names Layers.view at h
  have hleft : (r.scopes.map fun s x => s.contains x).findIdx? (fun f => f x) =
      r.scopes.findIdx? (·.contains x) := by
    rw [List.findIdx?_map]
    rfl
  have hright : (Γ.map fun l x => l.names.contains x).findIdx? (fun f => f x) = Γ.find? x := by
    rw [List.findIdx?_map]
    rfl
  rw [← hleft, h, hright]

/-- What recording does to the hops. -/
theorem hops_record (ref : Reference) (isRead : Bool) (id : NodeId) :
    (r.record ref isRead).hops[id]? =
      if id = ref.id ∧ (r.scopes.findIdx? (·.contains ref.name.lexeme)).isSome
      then r.scopes.findIdx? (·.contains ref.name.lexeme) else r.hops[id]? := by
  unfold record
  cases hd : r.scopes.findIdx? (·.contains ref.name.lexeme) with
  | none => simp
  | some depth =>
    simp only [Option.isSome_some, and_true]
    rw [Std.TreeMap.getElem?_insert]
    by_cases hid : id = ref.id
    · simp [hid]
    · have hcmp : ¬ compare ref.id id = .eq := by simpa using fun h => hid h.symm
      rw [if_neg hcmp, if_neg hid]

theorem walk_record (ref : Reference) (isRead : Bool) : Walk r (r.record ref isRead) [ref.id] := by
  constructor
  · intro hlog
    unfold record at hlog
    split at hlog <;> exact hlog
  · intro id hid
    rw [hops_record, if_neg]
    exact fun h => hid (List.mem_singleton.2 h.1)

theorem tracks_record (h : Tracks r Γ) (ref : Reference) (isRead : Bool) :
    Tracks (r.record ref isRead) Γ := by
  refine Eq.trans ?_ h
  unfold record names
  split
  · rfl
  · simp only
    generalize r.scopes = scopes
    next depth hd =>
    clear hd
    induction scopes generalizing depth with
    | nil => rw [List.modify_nil]
    | cons s rest ih =>
      cases depth with
      | zero =>
        rw [List.modify_zero_cons, List.map_cons, List.map_cons]
        congr 1
        funext x
        exact Std.TreeMap.contains_modify
      | succ depth =>
        rw [List.modify_succ_cons, List.map_cons, List.map_cons, ih]

theorem walk_readVariable (ref : Reference) : Walk r (readVariable ref r) [ref.id] := by
  unfold readVariable
  simp only
  split
  · exact (walk_report _ _).after (walk_record _ _)
  · exact walk_record _ _

theorem tracks_readVariable (h : Tracks r Γ) (ref : Reference) : Tracks (readVariable ref r) Γ := by
  unfold readVariable
  simp only
  split
  · have hreport (fault : ScopeFault) : Tracks (r.report ref.name fault) Γ := h
    exact tracks_record (hreport _) _ _
  · exact tracks_record h _ _

theorem walk_readKeyword (ref : Reference) (fault? : Option ScopeFault) :
    Walk r (readKeyword ref fault? r) [ref.id] := by
  unfold readKeyword
  split
  · exact ⟨fun h => absurd h (log_report _ _), fun _ _ => rfl⟩
  · exact walk_record _ _

theorem tracks_readKeyword (h : Tracks r Γ) (ref : Reference) (fault? : Option ScopeFault) :
    Tracks (readKeyword ref fault? r) Γ := by
  unfold readKeyword
  split
  · exact h
  · exact tracks_record h _ _

theorem walk_returnFaults (keyword : Token) (hasValue : Bool) (body : BodyKind) :
    Walk r (returnFaults keyword hasValue body r) [] := by
  unfold returnFaults
  split
  · exact walk_report _ _
  split
  · exact walk_report _ _
  · exact .refl r

theorem tracks_returnFaults (h : Tracks r Γ) (keyword : Token) (hasValue : Bool) (body : BodyKind) :
    Tracks (returnFaults keyword hasValue body r) Γ := by
  unfold returnFaults
  split
  · exact h
  split
  · exact h
  · exact h

theorem walk_declareParameter (p : Token) : Walk r (r.declareParameter p) [] := by
  unfold declareParameter
  exact (walk_declare p).after ((walk_define p).after (modifyInnermost_eq _ _).2)

theorem walk_parameters (params : List Token) :
    Walk r (params.foldl (fun r p => r.declareParameter p) r) [] := by
  induction params generalizing r with
  | nil => exact .refl r
  | cons p rest ih => exact (walk_declareParameter p).after ih

theorem tracks_parameters (params : List Token) {f : String → Bool}
    {rest : List (String → Bool)} (h : r.names = f :: rest) :
    (params.foldl (fun r p => r.declareParameter p) r).names =
      (fun y => (params.map Token.lexeme).contains y || f y) :: rest := by
  induction params generalizing r f with
  | nil => simpa using h
  | cons p params ih =>
    have hdeclare : (r.declareParameter p).names = (fun y => p.lexeme == y || f y) :: rest := by
      unfold declareParameter
      rw [(modifyInnermost_eq _ _).1]
      unfold define
      rw [(modifyInnermost_eq _ _).1, names_declare, h]
    rw [List.foldl_cons, ih hdeclare]
    congr 1
    funext y
    rw [List.map_cons, List.contains_cons, Bool.beq_comm]
    cases (y == p.lexeme) <;> simp

/-- The innermost scope of a function, before its body. -/
theorem tracks_function (h : Tracks r Γ) (f : Lambda) :
    Tracks (f.params.foldl (fun r p => r.declareParameter p) r.openScope) (f.layer :: Γ) := by
  have hopen := tracks_openScope h (.function f)
  unfold Tracks at hopen ⊢
  rw [tracks_parameters f.params hopen]
  show (fun y => _) :: Γ.view = _
  unfold Layers.view Lambda.layer
  rw [List.map_cons]
  congr 1
  funext y
  simp only [List.contains_nil, Bool.or_false]

theorem walk_openSuper (name : Token) (superclass : Option Reference) :
    Walk r (openSuper name superclass r) (superclass.map Reference.id).toList := by
  unfold openSuper
  cases superclass with
  | none => exact .refl r
  | some ref =>
    simp only
    refine Walk.before ?_ (walk_openScope.after (walk_bindImplicit _ _))
    split
    · exact (walk_report _ _).after (walk_readVariable _)
    · exact walk_readVariable _

theorem tracks_openSuper (h : Tracks r (Γ.declare name.lexeme)) (superclass : Option Reference)
    (own statics : List FunctionDecl) :
    Tracks (openSuper name superclass r) (Γ.ofClass name superclass own statics) := by
  unfold openSuper Layers.ofClass
  cases superclass with
  | none => exact h
  | some ref =>
    simp only
    refine tracks_bindImplicit _ _ _ (tracks_openScope (tracks_readVariable ?_ _) _)
    split
    · exact h
    · exact h

/-- A statement declares nothing but in the innermost scope. -/
theorem after_cons (st : Stmt) (l : Layer) (Γ : Layers) :
    ∃ l', Layers.after st (l :: Γ) = l' :: Γ := by
  cases hd : st.declared? with
  | none => exact ⟨l, Layers.after_undeclared hd _⟩
  | some name => exact ⟨_, Layers.after_declared hd _⟩

/-- What follows a branch or the body of a loop is in the same scopes. -/
theorem tracks_undeclared {r r' : Resolution} {st : Stmt} (hd : st.declared? = none)
    (h : ∀ Γ, Tracks r Γ → Tracks r' (Γ.after st)) (Γ : Layers) (ht : Tracks r Γ) : Tracks r' Γ := by
  have hafter := h Γ ht
  rwa [Layers.after_undeclared hd] at hafter

mutual

theorem walk_expr (s : Surroundings) : ∀ (e : Expr) (r : Resolution), e.Proper →
    Walk r (expr s e r) e.ids ∧ ∀ Γ, Tracks r Γ → Tracks (expr s e r) Γ
  | .literal _, r, _ => ⟨.refl r, fun _ h => h⟩
  | .grouping inner, r, h => walk_expr s inner r h
  | .unary _ right, r, h => walk_expr s right r h
  | .binaryError _ right, r, h => walk_expr s right r h
  | .binary left _ right, r, h => by
    obtain ⟨hl, htl⟩ := walk_expr s left r h.1
    obtain ⟨hr, htr⟩ := walk_expr s right (expr s left r) h.2
    exact ⟨hl.trans hr, fun Γ ht => htr Γ (htl Γ ht)⟩
  | .conditional condition thenBranch elseBranch, r, h => by
    obtain ⟨hc, htc⟩ := walk_expr s condition r h.1
    obtain ⟨ht, htt⟩ := walk_expr s thenBranch (expr s condition r) h.2.1
    obtain ⟨he, hte⟩ := walk_expr s elseBranch (expr s thenBranch (expr s condition r)) h.2.2
    exact ⟨hc.trans (ht.trans he), fun Γ ht => hte Γ (htt Γ (htc Γ ht))⟩
  | .variable ref, r, _ => ⟨walk_readVariable ref, fun _ h => tracks_readVariable h ref⟩
  | .assign target value, r, h => by
    obtain ⟨hv, htv⟩ := walk_expr s value r h.2
    exact ⟨hv.trans (walk_record target false), fun Γ ht => tracks_record (htv Γ ht) target false⟩
  | .call callee _ arguments, r, h => by
    obtain ⟨hc, htc⟩ := walk_expr s callee r h.1
    obtain ⟨ha, hta⟩ := walk_exprs s arguments (expr s callee r) h.2
    exact ⟨hc.trans ha, fun Γ ht => hta Γ (htc Γ ht)⟩
  | .get object _, r, h => walk_expr s object r h
  | .set object _ value, r, h => by
    obtain ⟨hv, htv⟩ := walk_expr s value r h.2
    obtain ⟨ho, hto⟩ := walk_expr s object (expr s value r) h.1
    exact ⟨hv.trans ho, fun Γ ht => hto Γ (htv Γ ht)⟩
  | .this ref, r, _ => ⟨walk_readKeyword ref _, fun _ h => tracks_readKeyword h ref _⟩
  | .super ref _, r, _ => ⟨walk_readKeyword ref _, fun _ h => tracks_readKeyword h ref _⟩
  | .lambda function, r, h => walk_lambda _ function r h

theorem walk_exprs (s : Surroundings) : ∀ (es : List Expr) (r : Resolution), Expr.ProperAll es →
    Walk r (exprs s es r) (Expr.idsAll es) ∧ ∀ Γ, Tracks r Γ → Tracks (exprs s es r) Γ
  | [], r, _ => ⟨.refl r, fun _ h => h⟩
  | e :: rest, r, h => by
    obtain ⟨he, hte⟩ := walk_expr s e r h.1
    obtain ⟨hs, hts⟩ := walk_exprs s rest (expr s e r) h.2
    exact ⟨he.trans hs, fun Γ ht => hts Γ (hte Γ ht)⟩

theorem walk_optionalExpr (s : Surroundings) : ∀ (e? : Option Expr) (r : Resolution),
    Expr.Proper? e? →
    Walk r (optionalExpr s e? r) (Expr.ids? e?) ∧ ∀ Γ, Tracks r Γ → Tracks (optionalExpr s e? r) Γ
  | none, r, _ => ⟨.refl r, fun _ h => h⟩
  | some e, r, h => walk_expr s e r h

theorem walk_stmt (s : Surroundings) : ∀ (st : Stmt) (r : Resolution), st.Proper →
    Walk r (stmt s st r) st.ids ∧ ∀ Γ, Tracks r Γ → Tracks (stmt s st r) (Γ.after st)
  | .expression e, r, h => walk_expr s e r h
  | .print e, r, h => walk_expr s e r h
  | .var name initializer, r, h => by
    obtain ⟨hi, hti⟩ := walk_optionalExpr s initializer (r.declare name) h.2
    constructor
    · exact (walk_declare name).after (hi.before (walk_define name))
    · exact fun Γ ht => tracks_define (hti _ (tracks_declare ht name)) name
  | .block body, r, h => by
    obtain ⟨hb, htb⟩ := walk_stmts s body r.openScope h
    constructor
    · exact walk_openScope.after (hb.before walk_closeScope)
    · intro Γ ht
      obtain ⟨l, hl⟩ := htb _ Γ (tracks_openScope ht (.block body))
      exact tracks_closeScope hl
  | .ite condition thenBranch elseBranch, r, h => by
    obtain ⟨hc, ⟨hdeclared, ht⟩, he⟩ := h
    obtain ⟨hwc, htc⟩ := walk_expr s condition r hc
    obtain ⟨hwt, htt⟩ := walk_stmt s thenBranch (expr s condition r) ht
    obtain ⟨hwe, hte⟩ := walk_optionalStmt s elseBranch (stmt s thenBranch (expr s condition r)) he
    exact ⟨hwc.trans (hwt.trans hwe), fun Γ ht =>
      hte Γ (tracks_undeclared hdeclared htt Γ (htc Γ ht))⟩
  | .loop condition body increment, r, h => by
    obtain ⟨hc, ⟨hdeclared, hb⟩, hi⟩ := h
    obtain ⟨hwc, htc⟩ := walk_expr s condition r hc
    obtain ⟨hwb, htb⟩ := walk_stmt s body (expr s condition r) hb
    obtain ⟨hwi, hti⟩ := walk_optionalExpr s increment (stmt s body (expr s condition r)) hi
    exact ⟨hwc.trans (hwb.trans hwi), fun Γ ht =>
      hti Γ (tracks_undeclared hdeclared htb Γ (htc Γ ht))⟩
  | .break _, r, _ | .continue _, r, _ | .breakError _, r, _ | .continueError _, r, _ =>
    ⟨.refl r, fun _ h => h⟩
  | .function (.mk name function), r, h => by
    obtain ⟨hf, htf⟩ := walk_lambda { s with body := .function } function
      ((r.declare name).define name) h.2
    constructor
    · exact (walk_declare name).after ((walk_define name).after hf)
    · exact fun Γ ht => htf _ (tracks_define (tracks_declare ht name) name)
  | .return keyword value, r, h => by
    obtain ⟨hv, htv⟩ := walk_optionalExpr s value (r.returnFaults keyword value.isSome s.body) h
    constructor
    · exact (walk_returnFaults keyword _ _).after hv
    · exact fun Γ ht => htv _ (tracks_returnFaults ht keyword _ _)
  | .class name superclass own statics, r, h => by
    have hdefined := (walk_declare (r := r) name).after (walk_define name)
    have hsuper := hdefined.after (walk_openSuper (r := (r.declare name).define name) name superclass)
    obtain ⟨hown, htown⟩ := walk_methods
      { s with cls := if superclass.isSome then ClassKind.subclass else .rootClass } own
      ((openSuper name superclass ((r.declare name).define name)).openScope.bindImplicit "this" name)
      h.2.2.1
    have hreceiver := walk_openScope.after ((walk_bindImplicit "this" name).after hown)
    obtain ⟨hstatics, htstatics⟩ := walk_staticMethods { s with cls := .staticMethod } statics _ h.2.2.2
    have hmembers := (hreceiver.before walk_closeScope).trans hstatics
    constructor
    · cases superclass with
      | none => exact hsuper.trans hmembers
      | some ref => exact (hsuper.trans hmembers).before walk_closeScope
    · intro Γ ht
      have hopen := tracks_openSuper (tracks_define (tracks_declare ht name) name)
        superclass own statics
      have hthis := tracks_bindImplicit "this" name _ (tracks_openScope hopen (.receiver own))
      have hinner := htstatics _ (tracks_closeScope (htown _ hthis))
      cases superclass with
      | none => exact hinner
      | some ref => exact tracks_closeScope hinner

theorem walk_optionalStmt (s : Surroundings) : ∀ (st? : Option Stmt) (r : Resolution),
    Stmt.Proper? st? →
    Walk r (optionalStmt s st? r) (Stmt.ids? st?) ∧ ∀ Γ, Tracks r Γ → Tracks (optionalStmt s st? r) Γ
  | none, r, _ => ⟨.refl r, fun _ h => h⟩
  | some st, r, h => by
    obtain ⟨hw, ht⟩ := walk_stmt s st r h.2
    exact ⟨hw, tracks_undeclared h.1 ht⟩

/-- Statements add names to the innermost scope. -/
theorem walk_stmts (s : Surroundings) : ∀ (body : List Stmt) (r : Resolution), Stmt.ProperAll body →
    Walk r (stmts s body r) (Stmt.idsAll body) ∧
      ∀ l Γ, Tracks r (l :: Γ) → ∃ l', Tracks (stmts s body r) (l' :: Γ)
  | [], r, _ => ⟨.refl r, fun l _ h => ⟨l, h⟩⟩
  | st :: rest, r, h => by
    obtain ⟨hst, htst⟩ := walk_stmt s st r h.1
    obtain ⟨hs, hts⟩ := walk_stmts s rest (stmt s st r) h.2
    refine ⟨hst.trans hs, fun l Γ ht => ?_⟩
    obtain ⟨l', hl'⟩ := after_cons st l Γ
    have hfirst := htst _ ht
    rw [hl'] at hfirst
    exact hts l' Γ hfirst

theorem walk_lambda (s : Surroundings) : ∀ (f : Lambda) (r : Resolution), f.Proper →
    Walk r (lambda s f r) f.ids ∧ ∀ Γ, Tracks r Γ → Tracks (lambda s f r) Γ
  | .mk params body, r, h => by
    obtain ⟨hb, htb⟩ := walk_stmts s body
      (params.foldl (fun r p => r.declareParameter p) r.openScope) h.2
    constructor
    · exact walk_openScope.after ((walk_parameters params).after (hb.before walk_closeScope))
    · intro Γ ht
      obtain ⟨l, hl⟩ := htb _ Γ (tracks_function ht (.mk params body))
      exact tracks_closeScope hl

theorem walk_methods (s : Surroundings) : ∀ (decls : List FunctionDecl) (r : Resolution),
    FunctionDecl.ProperAll decls →
    Walk r (methods s decls r) (FunctionDecl.idsAll decls) ∧
      ∀ Γ, Tracks r Γ → Tracks (methods s decls r) Γ
  | [], r, _ => ⟨.refl r, fun _ h => h⟩
  | .mk name function :: rest, r, h => by
    obtain ⟨hf, htf⟩ := walk_lambda
      { s with body := if name.lexeme = "init" then BodyKind.initializer else .method } function r h.1
    obtain ⟨hs, hts⟩ := walk_methods s rest _ h.2
    exact ⟨hf.trans hs, fun Γ ht => hts Γ (htf Γ ht)⟩

theorem walk_staticMethods (s : Surroundings) : ∀ (decls : List FunctionDecl) (r : Resolution),
    FunctionDecl.ProperAll decls →
    Walk r (staticMethods s decls r) (FunctionDecl.idsAll decls) ∧
      ∀ Γ, Tracks r Γ → Tracks (staticMethods s decls r) Γ
  | [], r, _ => ⟨.refl r, fun _ h => h⟩
  | .mk _ function :: rest, r, h => by
    obtain ⟨hf, htf⟩ := walk_lambda { s with body := .function } function r h.1
    obtain ⟨hs, hts⟩ := walk_staticMethods s rest _ h.2
    exact ⟨hf.trans hs, fun Γ ht => hts Γ (htf Γ ht)⟩

end

end Resolution

end Lox
