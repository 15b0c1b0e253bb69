import Lox.Proofs.Loops.Inlining
import Lox.Proofs.Loops.Padding
import Lox.Proofs.Scope.Walk
import Lox.Proofs.Syntax.Making

/-!
The resolver reports the same of a program and of one that has increments in loop bodies. Nothing is
declared in the scope of such a body, and no initializer is open around it.
-/

namespace Lox

namespace Resolution

/-- The names of each open scope, and whether they may be read. -/
def flags (r : Resolution) : List (String → Option Bool) :=
  r.scopes.map fun s x => s[x]?.map Binding.defined

/-- No initializer of the innermost scope is open. -/
def Settled (r : Resolution) : Prop := ∀ f ∈ r.flags.head?, ∀ x, f x ≠ some false

/-- The outer scopes are as before, and if no initializer of the innermost one was open, none is. -/
structure Settles (r r' : Resolution) : Prop where
  outer : r'.flags.tail = r.flags.tail
  settled : r.Settled → r'.Settled

namespace Settles

variable {r r' r'' : Resolution}

theorem of_eq (h : r'.flags = r.flags) : r.Settles r' :=
  ⟨congrArg List.tail h, fun hs => by rwa [Settled, h]⟩

theorem trans (h : r.Settles r') (h' : r'.Settles r'') : r.Settles r'' :=
  ⟨h'.outer.trans h.outer, fun hs => h'.settled (h.settled hs)⟩

end Settles

variable {r r' : Resolution}

section Flags

theorem flags_openScope : r.openScope.flags = (fun _ => none) :: r.flags := by
  have hempty : (fun x : String => ((∅ : Scope)[x]?).map Binding.defined) = fun _ => none := by
    funext x
    rw [Std.TreeMap.getElem?_emptyc]
    rfl
  show (fun x : String => ((∅ : Scope)[x]?).map Binding.defined) :: r.flags = _
  rw [hempty]

theorem flags_closeScope : r.closeScope.flags = r.flags.tail := by
  unfold flags
  rw [closeScope_eq.1, List.map_tail]

theorem flags_modify (s : Scope) (name : String) {f : Binding → Binding} {d : Bool → Bool}
    (hf : ∀ b, (f b).defined = d b.defined) :
    (fun x : String => ((s.modify name f)[x]?).map Binding.defined) = fun x =>
      if name = x then (s[x]?.map Binding.defined).map d else s[x]?.map Binding.defined := by
  funext x
  rw [Std.TreeMap.getElem?_modify]
  by_cases hx : name = x
  · subst hx
    rw [if_pos Std.ReflCmp.compare_self, if_pos rfl, Option.map_map, Option.map_map]
    exact congrArg (Option.map · _) (funext hf)
  · rw [if_neg (by simpa using hx), if_neg hx]

/-- A change of one name in the innermost scope. -/
theorem flags_modifyInnermost (name : String) {f : Binding → Binding} {d : Bool → Bool}
    (hf : ∀ b, (f b).defined = d b.defined) : (modifyInnermost name f r).flags =
    match r.flags with
    | [] => []
    | g :: rest => (fun x => if name = x then (g x).map d else g x) :: rest := by
  unfold modifyInnermost flags
  cases hs : r.scopes with
  | nil => simp [hs]
  | cons s rest => exact congrArg (· :: _) (flags_modify s name hf)

theorem flags_record (ref : Reference) (isRead : Bool) : (r.record ref isRead).flags = r.flags := by
  unfold record flags
  split
  · rfl
  next depth hd =>
    clear hd
    simp only
    generalize r.scopes = scopes
    induction scopes generalizing depth with
    | nil => rw [List.modify_nil]
    | cons s rest ih =>
      cases depth with
      | zero =>
        rw [List.modify_zero_cons, List.map_cons, List.map_cons]
        have hmark := @flags_modify s ref.name.lexeme
          (fun b => { b with used := b.used || isRead }) id fun _ => rfl
        rw [hmark]
        simp only [Option.map_id, id, ite_self]
      | succ depth => rw [List.modify_succ_cons, List.map_cons, List.map_cons, ih]

theorem flags_readVariable (ref : Reference) : (readVariable ref r).flags = r.flags := by
  unfold readVariable
  rw [flags_record]
  split <;> rfl

theorem flags_readKeyword (ref : Reference) (fault? : Option ScopeFault) :
    (readKeyword ref fault? r).flags = r.flags := by
  cases fault? with
  | none => exact flags_record ref true
  | some fault => rfl

theorem flags_returnFaults (keyword : Token) (hasValue : Bool) (body : BodyKind) :
    (returnFaults keyword hasValue body r).flags = r.flags := by
  unfold returnFaults
  split
  · rfl
  · split <;> rfl

theorem flags_declare (name : Token) : (r.declare name).flags =
    match r.flags with
    | [] => []
    | f :: rest => (fun x => if name.lexeme = x then some false else f x) :: rest := by
  unfold declare flags
  cases hs : r.scopes with
  | nil => simp [hs]
  | cons s rest =>
    have hinsert : (fun x : String => ((s.insert name.lexeme ⟨false, false, name⟩)[x]?).map
        Binding.defined) = fun x => if name.lexeme = x then some false else
          s[x]?.map Binding.defined := by
      funext x
      rw [Std.TreeMap.getElem?_insert]
      by_cases hx : name.lexeme = x
      · rw [if_pos (by simpa using hx), if_pos hx]
        rfl
      · rw [if_neg (by simpa using hx), if_neg hx]
    simp only
    split
    · exact congrArg (· :: _) hinsert
    · exact congrArg (· :: _) hinsert

end Flags

/-- A name that is defined where it has been declared is the only one whose initializer was open. -/
theorem settles_define (name : Token) (h : r'.flags = (r.declare name).flags) :
    r.Settles (define name r') := by
  have hflags := @flags_modifyInnermost r' name.lexeme ({ · with defined := true }) (fun _ => true)
    fun _ => rfl
  rw [h, flags_declare] at hflags
  cases hr : r.flags with
  | nil =>
    rw [hr] at hflags
    exact .of_eq (hflags.trans hr.symm)
  | cons f rest =>
    rw [hr] at hflags
    have hdefined : (define name r').flags = _ := hflags
    refine ⟨by rw [hdefined, hr, List.tail_cons, List.tail_cons], fun hs => ?_⟩
    unfold Settled
    rw [hdefined]
    intro g hg x
    obtain rfl := Option.some.inj hg
    have hx := hs f (by rw [hr]; rfl) x
    by_cases heq : name.lexeme = x <;> simp [heq, hx]

theorem settles_declareParameter (p : Token) : r.Settles (r.declareParameter p) := by
  have hdefined := settles_define (r := r) p rfl
  refine hdefined.trans (.of_eq ?_)
  unfold declareParameter
  have hused := @flags_modifyInnermost (define p (declare p r)) p.lexeme
    ({ · with used := true }) id fun _ => rfl
  rw [hused]
  cases (define p (declare p r)).flags with
  | nil => rfl
  | cons f rest => simp only [Option.map_id, id, ite_self]

theorem settles_parameters (params : List Token) :
    r.Settles (params.foldl (fun r p => r.declareParameter p) r) := by
  induction params generalizing r with
  | nil => exact .of_eq rfl
  | cons p rest ih => exact (settles_declareParameter p).trans ih

/-- What no text declares has no initializer. -/
theorem settles_bindImplicit (lexeme : String) (className : Token) :
    r.Settles (r.bindImplicit lexeme className) := by
  unfold bindImplicit
  cases hs : r.scopes with
  | nil => exact .of_eq rfl
  | cons s rest =>
    refine ⟨by simp [flags, hs], fun hsettled => ?_⟩
    intro g hg x
    obtain rfl := Option.some.inj hg
    have hx := hsettled (fun x => s[x]?.map Binding.defined) (by simp [flags, hs]) x
    show ((s.insert lexeme _)[x]?).map Binding.defined ≠ some false
    rw [Std.TreeMap.getElem?_insert]
    split
    · simp
    · exact hx

theorem settled_openScope : r.openScope.Settled := by
  unfold Settled
  rw [flags_openScope]
  intro f hf x
  obtain rfl := Option.some.inj hf
  simp

/-- What happens in a scope of its own leaves the scopes around it. -/
theorem flags_scope (h : r.openScope.Settles r') : r'.closeScope.flags = r.flags := by
  rw [flags_closeScope, h.outer, flags_openScope]
  rfl

theorem inOwnInitializer_settled (h : r.Settled) (name : Token) :
    r.inOwnInitializer name = false := by
  unfold Settled flags at h
  unfold inOwnInitializer
  cases hs : r.scopes with
  | nil => rfl
  | cons s rest =>
    have hname := h (fun x => s[x]?.map Binding.defined) (by rw [hs]; rfl) name.lexeme
    simp only [List.head?_cons, Option.bind_some]
    cases hb : s[name.lexeme]? with
    | none => rfl
    | some b =>
      rw [hb] at hname
      have hdefined : b.defined = true := by simpa using hname
      simp [hdefined]

end Resolution

/-- Two resolutions at one place of a program, of which the second one has these scopes added. Nothing
has been declared in them. -/
structure Resolution.Beside (K : List Bool) (r r' : Resolution) : Prop where
  scopes : Padded Eq (· = ∅) K r.scopes r'.scopes
  log : r'.log = r.log

namespace Resolution.Beside

variable {K : List Bool} {r r' : Resolution}

theorem report (h : r.Beside K r') (t : Token) (fault : ScopeFault) :
    (r.report t fault).Beside K (r'.report t fault) :=
  ⟨h.scopes, congrArg (Diagnostic.atToken t (.scoping fault) :: ·) h.log⟩

theorem openScope (h : r.Beside K r') : r.openScope.Beside (false :: K) r'.openScope :=
  ⟨.same rfl h.scopes, h.log⟩

/-- A scope that only the second program has. -/
theorem openAdded (h : r.Beside K r') : r.Beside (true :: K) r'.openScope :=
  ⟨.added rfl h.scopes, h.log⟩

theorem reportAll (ts : List Token) (h : r.Beside K r') :
    (ts.foldl (fun r t => r.report t (.neverUsed t.lexeme)) r).Beside K
      (ts.foldl (fun r t => r.report t (.neverUsed t.lexeme)) r') := by
  induction ts generalizing r r' with
  | nil => exact h
  | cons t rest ih => exact ih (h.report t _)

theorem closeScope (h : r.Beside (false :: K) r') : r.closeScope.Beside K r'.closeScope := by
  have hscopes := h.scopes
  unfold Resolution.closeScope
  generalize hr : r.scopes = ss at hscopes
  generalize hr' : r'.scopes = ss' at hscopes
  cases hscopes with
  | same heq hrest =>
    subst heq
    exact reportAll _ ⟨hrest, h.log⟩

/-- Nothing is unused in a scope in which nothing is declared. -/
theorem closeAdded (h : r.Beside (true :: K) r') : r.Beside K r'.closeScope := by
  have hscopes := h.scopes
  unfold Resolution.closeScope
  generalize hr' : r'.scopes = ss' at hscopes
  cases hscopes with
  | added heq hrest =>
    subst heq
    have hunused : (∅ : Scope).unused = [] := by
      have hempty : (∅ : Scope).toList = [] := rfl
      unfold Scope.unused
      rw [values_eq_toList, hempty, List.map_nil, List.filter_nil, List.map_nil, List.mergeSort_nil]
    simp only [hunused, List.foldl_nil]
    exact ⟨hrest, h.log⟩

theorem record (h : r.Beside K r') (ref : Reference) (isRead : Bool) :
    (r.record ref isRead).Beside K (r'.record ref isRead) := by
  have hfind : r'.scopes.findIdx? (·.contains ref.name.lexeme) =
      (r.scopes.findIdx? (·.contains ref.name.lexeme)).map (placeIn K) := by
    refine h.scopes.findIdx? (fun s s' hs => by rw [hs]) fun s hs => ?_
    rw [hs]
    exact Std.TreeMap.contains_emptyc
  unfold Resolution.record
  rw [hfind]
  cases r.scopes.findIdx? (·.contains ref.name.lexeme) with
  | none => exact h
  | some depth => exact ⟨h.scopes.modify (fun s s' hs => by rw [hs]) depth, h.log⟩

/-- In an added scope no initializer is open, and if none is in the scope outside of it, a read there is
reported in neither program. -/
theorem readVariable (h : r.Beside K r') (hs : K.head? = some true → r.Settled) (ref : Reference) :
    (r.readVariable ref).Beside K (r'.readVariable ref) := by
  have hown : r'.inOwnInitializer ref.name = r.inOwnInitializer ref.name := by
    by_cases hK : K.head? = some true
    · rw [Resolution.inOwnInitializer_settled (hs hK)]
      have hscopes := h.scopes
      unfold Resolution.inOwnInitializer
      generalize r.scopes = ss at hscopes
      generalize r'.scopes = ss' at hscopes ⊢
      cases hscopes with
      | nil => rfl
      | same => cases hK
      | added heq _ =>
        subst heq
        rfl
    · unfold Resolution.inOwnInitializer
      rcases h.scopes.head hK with ⟨_, hr, hr'⟩ | ⟨_, _, _, _, _, _, hr, hr', heq, _⟩
      · rw [hr, hr']
      · rw [hr, hr', heq]
        rfl
  unfold Resolution.readVariable
  simp only [hown]
  by_cases hinit : r.inOwnInitializer ref.name = true
  · rw [if_pos hinit, if_pos hinit]
    exact (h.report ref.name _).record ref true
  · rw [if_neg hinit, if_neg hinit]
    exact h.record ref true

theorem readKeyword (h : r.Beside K r') (ref : Reference) (fault? : Option ScopeFault) :
    (r.readKeyword ref fault?).Beside K (r'.readKeyword ref fault?) := by
  cases fault? with
  | none => exact h.record ref true
  | some fault => exact h.report ref.name fault

theorem returnFaults (h : r.Beside K r') (keyword : Token) (hasValue : Bool) (body : BodyKind) :
    (r.returnFaults keyword hasValue body).Beside K (r'.returnFaults keyword hasValue body) := by
  unfold Resolution.returnFaults
  by_cases htop : body = .topLevel
  · rw [if_pos htop, if_pos htop]
    exact h.report keyword _
  · rw [if_neg htop, if_neg htop]
    by_cases hinit : body = .initializer ∧ hasValue = true
    · rw [if_pos hinit, if_pos hinit]
      exact h.report keyword _
    · rw [if_neg hinit, if_neg hinit]
      exact h

section Declarations

variable (hK : K.head? ≠ some true)
include hK

/-- Where something is declared the innermost scope is the same. -/
theorem innermost (h : r.Beside K r') : r.scopes = [] ∧ r'.scopes = [] ∨
    ∃ s ss ss', r.scopes = s :: ss ∧ r'.scopes = s :: ss' ∧
      ∀ t : Scope, Resolution.Beside K { r with scopes := t :: ss } { r' with scopes := t :: ss' } := by
  rcases h.scopes.head hK with ⟨_, hr, hr'⟩ | ⟨K', s, ss, s', ss', rfl, hr, hr', heq, hrest⟩
  · exact .inl ⟨hr, hr'⟩
  · subst heq
    exact .inr ⟨s, ss, ss', hr, hr', fun t => ⟨.same rfl hrest, h.log⟩⟩

theorem modifyInnermost (h : r.Beside K r') (name : String) (f : Binding → Binding) :
    (r.modifyInnermost name f).Beside K (r'.modifyInnermost name f) := by
  unfold Resolution.modifyInnermost
  rcases h.innermost hK with ⟨hr, hr'⟩ | ⟨s, ss, ss', hr, hr', hwith⟩
  · rw [hr, hr']
    exact h
  · rw [hr, hr']
    exact hwith _

theorem declare (h : r.Beside K r') (name : Token) : (r.declare name).Beside K (r'.declare name) := by
  unfold Resolution.declare
  rcases h.innermost hK with ⟨hr, hr'⟩ | ⟨s, ss, ss', hr, hr', hwith⟩
  · rw [hr, hr']
    exact h
  · rw [hr, hr']
    simp only
    split
    · exact (hwith _).report name _
    · exact hwith _

theorem define (h : r.Beside K r') (name : Token) : (r.define name).Beside K (r'.define name) :=
  h.modifyInnermost hK _ _

theorem bindImplicit (h : r.Beside K r') (lexeme : String) (className : Token) :
    (r.bindImplicit lexeme className).Beside K (r'.bindImplicit lexeme className) := by
  unfold Resolution.bindImplicit
  rcases h.innermost hK with ⟨hr, hr'⟩ | ⟨s, ss, ss', hr, hr', hwith⟩
  · rw [hr, hr']
    exact h
  · rw [hr, hr']
    exact hwith _

theorem parameters (params : List Token) (h : r.Beside K r') :
    (params.foldl (fun r p => r.declareParameter p) r).Beside K
      (params.foldl (fun r p => r.declareParameter p) r') := by
  induction params generalizing r r' with
  | nil => exact h
  | cons p rest ih => exact ih (((h.declare hK p).define hK p).modifyInnermost hK _ _)

/-- The scope of `super` is around a class in both programs. -/
theorem openSuper (h : r.Beside K r') (className : Token) (superclass : Option Reference) :
    (r.openSuper className superclass).Beside (superMarks superclass K)
      (r'.openSuper className superclass) := by
  cases superclass with
  | none => exact h
  | some ref =>
    have hreported : Resolution.Beside K
        (if ref.name.lexeme = className.lexeme then r.report ref.name .inheritsFromItself else r)
        (if ref.name.lexeme = className.lexeme then r'.report ref.name .inheritsFromItself else r') := by
      by_cases hself : ref.name.lexeme = className.lexeme
      · rw [if_pos hself, if_pos hself]
        exact h.report ref.name _
      · rw [if_neg hself, if_neg hself]
        exact h
    have hread := hreported.readVariable (fun htrue => absurd htrue hK) ref
    exact hread.openScope.bindImplicit (by simp) "super" className

end Declarations

end Resolution.Beside

open Resolution

/-- The resolver leaves the scopes around the expression, and reports the same of it with increments in
loop bodies. -/
structure Expr.Unmoved (e : Expr) : Prop where
  flags : ∀ s r, (expr s e r).flags = r.flags
  beside : ∀ {K e'}, e.Inlined Anywhere K e' → ∀ s {r r'}, r.Beside K r' →
    (K.head? = some true → r.Settled) → (expr s e r).Beside K (expr s e' r')

/-- An added scope is only around statements that declare nothing. -/
structure Stmt.Unmoved (st : Stmt) : Prop where
  settles : ∀ s (r : Resolution), r.Settles (stmt s st r)
  beside : ∀ {K st'}, st.Inlined Anywhere K st' → (K.head? = some true → st.declared? = none) →
    ∀ s {r r'}, r.Beside K r' → r.Settled → (stmt s st r).Beside K (stmt s st' r')

structure Lambda.Unmoved (f : Lambda) : Prop where
  flags : ∀ s r, (lambda s f r).flags = r.flags
  beside : ∀ {K f'}, f.Inlined Anywhere K f' → ∀ s {r r'}, r.Beside K r' →
    (lambda s f r).Beside K (lambda s f' r')

section Lists

variable {K : List Bool} {r r' : Resolution} (s : Surroundings)

theorem Expr.Unmoved.settled {e : Expr} (h : e.Unmoved) (hs : K.head? = some true → r.Settled) :
    K.head? = some true → (expr s e r).Settled := fun hK => by
  unfold Settled
  rw [h.flags]
  exact hs hK

theorem flags_exprs {es : List Expr} (h : ∀ e ∈ es, e.Unmoved) : (exprs s es r).flags = r.flags := by
  induction es generalizing r with
  | nil => rfl
  | cons e rest ih =>
    rw [List.forall_mem_cons] at h
    exact (ih h.2).trans (h.1.flags s r)

theorem flags_optionalExpr {e? : Option Expr} (h : ∀ e ∈ e?, e.Unmoved) :
    (optionalExpr s e? r).flags = r.flags := by
  cases e? with
  | none => rfl
  | some e => exact (h e rfl).flags s r

theorem settles_optionalStmt {st? : Option Stmt} (h : ∀ st ∈ st?, st.Unmoved) :
    r.Settles (optionalStmt s st? r) := by
  cases st? with
  | none => exact .of_eq rfl
  | some st => exact (h st rfl).settles s r

theorem settles_stmts {body : List Stmt} (h : ∀ st ∈ body, st.Unmoved) :
    r.Settles (stmts s body r) := by
  induction body generalizing r with
  | nil => exact .of_eq rfl
  | cons st rest ih =>
    rw [List.forall_mem_cons] at h
    exact (h.1.settles s r).trans (ih h.2)

theorem flags_methods {decls : List FunctionDecl} (h : ∀ decl ∈ decls, decl.function.Unmoved) :
    (methods s decls r).flags = r.flags := by
  induction decls generalizing r with
  | nil => rfl
  | cons decl rest ih =>
    obtain ⟨name, f⟩ := decl
    rw [List.forall_mem_cons] at h
    exact (ih h.2).trans (h.1.flags _ r)

theorem flags_staticMethods {decls : List FunctionDecl} (h : ∀ decl ∈ decls, decl.function.Unmoved) :
    (staticMethods s decls r).flags = r.flags := by
  induction decls generalizing r with
  | nil => rfl
  | cons decl rest ih =>
    obtain ⟨name, f⟩ := decl
    rw [List.forall_mem_cons] at h
    exact (ih h.2).trans (h.1.flags _ r)

theorem beside_exprs {es es' : List Expr} (h : ∀ e ∈ es, e.Unmoved)
    (hes : Expr.InlinedAll Anywhere K es es') (hr : r.Beside K r')
    (hs : K.head? = some true → r.Settled) : (exprs s es r).Beside K (exprs s es' r') := by
  induction es generalizing es' r r' with
  | nil =>
    cases hes
    exact hr
  | cons e rest ih =>
    rw [List.forall_mem_cons] at h
    cases hes with
    | cons he hrest =>
      unfold exprs
      exact ih h.2 hrest (h.1.beside he s hr hs) (h.1.settled s hs)

theorem beside_optionalExpr {e? e?' : Option Expr} (h : ∀ e ∈ e?, e.Unmoved)
    (he : Expr.Inlined? Anywhere K e? e?') (hr : r.Beside K r')
    (hs : K.head? = some true → r.Settled) :
    (optionalExpr s e? r).Beside K (optionalExpr s e?' r') := by
  cases he with
  | none => exact hr
  | some he => exact (h _ rfl).beside he s hr hs

theorem beside_optionalStmt {st? st?' : Option Stmt}
    (h : ∀ st ∈ st?, st.declared? = none ∧ st.Unmoved) (hst : Stmt.Inlined? Anywhere K st? st?')
    (hr : r.Beside K r') (hs : r.Settled) :
    (optionalStmt s st? r).Beside K (optionalStmt s st?' r') := by
  cases hst with
  | none => exact hr
  | some hst => exact (h _ rfl).2.beside hst (fun _ => (h _ rfl).1) s hr hs

theorem beside_stmts {body body' : List Stmt} (h : ∀ st ∈ body, st.Unmoved)
    (hbody : Stmt.InlinedAll Anywhere K body body') (hK : K.head? ≠ some true)
    (hr : r.Beside K r') (hs : r.Settled) : (stmts s body r).Beside K (stmts s body' r') := by
  induction body generalizing body' r r' with
  | nil =>
    cases hbody
    exact hr
  | cons st rest ih =>
    rw [List.forall_mem_cons] at h
    cases hbody with
    | cons hst hrest =>
      have hfirst := h.1.beside hst (fun htrue => absurd htrue hK) s hr hs
      unfold stmts
      exact ih h.2 hrest hfirst ((h.1.settles s r).settled hs)

theorem beside_methods {decls decls' : List FunctionDecl}
    (h : ∀ decl ∈ decls, decl.function.Unmoved)
    (hdecls : FunctionDecl.InlinedAll Anywhere K decls decls') (hr : r.Beside K r') :
    (methods s decls r).Beside K (methods s decls' r') := by
  induction decls generalizing decls' r r' with
  | nil =>
    cases hdecls
    exact hr
  | cons decl rest ih =>
    rw [List.forall_mem_cons] at h
    cases hdecls with
    | cons name hf hrest =>
      unfold methods
      exact ih h.2 hrest (h.1.beside hf _ hr)

theorem beside_staticMethods {decls decls' : List FunctionDecl}
    (h : ∀ decl ∈ decls, decl.function.Unmoved)
    (hdecls : FunctionDecl.InlinedAll Anywhere K decls decls') (hr : r.Beside K r') :
    (staticMethods s decls r).Beside K (staticMethods s decls' r') := by
  induction decls generalizing decls' r r' with
  | nil =>
    cases hdecls
    exact hr
  | cons decl rest ih =>
    rw [List.forall_mem_cons] at h
    cases hdecls with
    | cons name hf hrest =>
      unfold staticMethods
      exact ih h.2 hrest (h.1.beside hf _ hr)

/-- The scope of the receiver is left behind the methods. -/
theorem flags_receiver {own : List FunctionDecl} (h : ∀ decl ∈ own, decl.function.Unmoved)
    (name : Token) :
    (methods s own (r.openScope.bindImplicit "this" name)).closeScope.flags = r.flags :=
  flags_scope ((settles_bindImplicit "this" name).trans (.of_eq (flags_methods s h)))

theorem settles_openSuper (name : Token) (ref : Reference) : ∃ r' : Resolution,
    r'.flags = r.flags ∧ r'.openScope.Settles (openSuper name (some ref) r) := by
  refine ⟨readVariable ref _, (flags_readVariable ref).trans ?_, settles_bindImplicit "super" name⟩
  split <;> rfl

/-- The scopes of a class are left behind it. -/
theorem flags_class (name : Token) (superclass : Option Reference) {own statics : List FunctionDecl}
    (hown : ∀ decl ∈ own, decl.function.Unmoved)
    (hstatics : ∀ decl ∈ statics, decl.function.Unmoved) (s' : Surroundings) :
    (let inner := openSuper name superclass r
     let read := staticMethods s' statics
       (methods s own (inner.openScope.bindImplicit "this" name)).closeScope
     if superclass.isSome then read.closeScope else read).flags = r.flags := by
  have hinner := (flags_staticMethods s' hstatics).trans
    (flags_receiver (r := openSuper name superclass r) s hown name)
  cases superclass with
  | none => exact hinner
  | some ref =>
    obtain ⟨r', hflags, hsettles⟩ := settles_openSuper (r := r) name ref
    exact (flags_scope (hsettles.trans (.of_eq hinner))).trans hflags

theorem beside_class (name : Token) {superclass : Option Reference}
    {own own' statics statics' : List FunctionDecl}
    (hown : ∀ decl ∈ own, decl.function.Unmoved)
    (hstatics : ∀ decl ∈ statics, decl.function.Unmoved)
    (hio : FunctionDecl.InlinedAll Anywhere (false :: superMarks superclass K) own own')
    (his : FunctionDecl.InlinedAll Anywhere (superMarks superclass K) statics statics')
    (hK : K.head? ≠ some true) (hr : r.Beside K r') (s' : Surroundings) :
    Resolution.Beside K
      (let read := staticMethods s' statics
         (methods s own ((openSuper name superclass r).openScope.bindImplicit "this" name)).closeScope
       if superclass.isSome then read.closeScope else read)
      (let read := staticMethods s' statics'
         (methods s own' ((openSuper name superclass r').openScope.bindImplicit "this" name)).closeScope
       if superclass.isSome then read.closeScope else read) := by
  have hreceiver := (hr.openSuper hK name superclass).openScope.bindImplicit (by simp) "this" name
  have hread := beside_staticMethods s' hstatics his (beside_methods s hown hio hreceiver).closeScope
  cases superclass with
  | none => exact hread
  | some ref => exact hread.closeScope

end Lists

/-- A statement without names. -/
theorem Stmt.Unmoved.same {st : Stmt} (h : ∀ s r, stmt s st r = r)
    (hi : ∀ {K st'}, st.Inlined Anywhere K st' → st' = st) : st.Unmoved where
  settles s r := .of_eq (congrArg flags (h s r))
  beside hst _ s r r' hr _ := by
    rw [hi hst, h, h]
    exact hr

/-- What the parser makes has no declaration for a branch or a loop body. -/
def unmoving : TreeProperty where
  expr := Expr.Unmoved
  stmt _ st := st.declared? = none ∧ st.Unmoved
  declaration _ := Stmt.Unmoved
  function := Lambda.Unmoved

theorem unmoved_literal (value : Literal) : (Expr.literal value).Unmoved where
  flags _ _ := rfl
  beside hi _ _ _ hr _ := by
    cases hi
    exact hr

theorem unmoving_composes : unmoving.Composes fun _ => True where
  nil := unmoved_literal _
  boolean _ := unmoved_literal _
  literal _ _ := unmoved_literal _
  grouping h := {
    flags s r := h.flags s r
    beside hi s r r' hr hs := by
      cases hi with
      | grouping hi => exact h.beside hi s hr hs }
  unary _ h := {
    flags s r := h.flags s r
    beside hi s r r' hr hs := by
      cases hi with
      | unary _ hi => exact h.beside hi s hr hs }
  binary hl _ hr := {
    flags s r := (hr.flags s _).trans (hl.flags s r)
    beside hi s r r' hb hs := by
      cases hi with
      | binary hil _ hir => exact hr.beside hir s (hl.beside hil s hb hs) (hl.settled s hs) }
  binaryError _ h := {
    flags s r := h.flags s r
    beside hi s r r' hr hs := by
      cases hi with
      | binaryError _ hi => exact h.beside hi s hr hs }
  conditional hc ht hf := {
    flags s r := (hf.flags s _).trans ((ht.flags s _).trans (hc.flags s r))
    beside hi s r r' hb hs := by
      cases hi with
      | conditional hic hit hif =>
        have hthen := ht.beside hit s (hc.beside hic s hb hs) (hc.settled s hs)
        exact hf.beside hif s hthen (ht.settled s (hc.settled s hs)) }
  «variable» {ref} _ := {
    flags _ _ := flags_readVariable ref
    beside hi s r r' hr hs := by
      cases hi
      exact hr.readVariable hs ref }
  assign id ref _ _ h := {
    flags s r := (flags_record ⟨id, ref.name⟩ false).trans (h.flags s r)
    beside hi s r r' hr hs := by
      cases hi with
      | assign _ _ hi => exact (h.beside hi s hr hs).record ⟨id, ref.name⟩ false }
  call hc _ ha := {
    flags s r := (flags_exprs s ha).trans (hc.flags s r)
    beside hi s r r' hr hs := by
      cases hi with
      | call hic _ hia =>
        exact beside_exprs s ha hia (hc.beside hic s hr hs) (hc.settled s hs) }
  get h _ := {
    flags s r := h.flags s r
    beside hi s r r' hr hs := by
      cases hi with
      | get hi _ => exact h.beside hi s hr hs }
  set hg hv := {
    flags s r := (hg.flags s _).trans (hv.flags s r)
    beside hi s r r' hr hs := by
      cases hi with
      | set hio _ hiv =>
        exact hg.beside (.get hio _) s (hv.beside hiv s hr hs) (hv.settled s hs) }
  this {ref} _ := {
    flags _ _ := flags_readKeyword ref _
    beside hi s r r' hr hs := by
      cases hi
      exact hr.readKeyword ref _ }
  super {ref} _ _ _ := {
    flags _ _ := flags_readKeyword ref _
    beside hi s r r' hr hs := by
      cases hi
      exact hr.readKeyword ref _ }
  lambda h := {
    flags s r := h.flags _ r
    beside hi s r r' hr hs := by
      cases hi with
      | lambda hi => exact h.beside hi _ hr }
  expression _ _ h := ⟨rfl, {
    settles s r := .of_eq (h.flags s r)
    beside hi _ s r r' hr hs := by
      cases hi with
      | expression hi => exact h.beside hi s hr fun _ => hs }⟩
  print _ _ h := ⟨rfl, {
    settles s r := .of_eq (h.flags s r)
    beside hi _ s r r' hr hs := by
      cases hi with
      | print hi => exact h.beside hi s hr fun _ => hs }⟩
  block h := ⟨rfl, {
    settles s r := .of_eq (flags_scope (settles_stmts s h))
    beside hi _ s r r' hr hs := by
      cases hi with
      | block hi =>
        exact (beside_stmts s h hi (by simp) hr.openScope settled_openScope).closeScope }⟩
  ite hc ht hf := ⟨rfl, {
    settles s r := by
      have hthen := (Settles.of_eq (hc.flags s r)).trans (ht.2.settles s _)
      exact hthen.trans (settles_optionalStmt s fun st hst => (hf st hst).2)
    beside hi _ s r r' hr hs := by
      cases hi with
      | ite hic hit hif =>
        have hcondition := hc.beside hic s hr fun _ => hs
        have hsettled := (Settles.of_eq (hc.flags s r)).settled hs
        have hthen := ht.2.beside hit (fun _ => ht.1) s hcondition hsettled
        exact beside_optionalStmt s hf hif hthen ((ht.2.settles s _).settled hsettled) }⟩
  loop _ condition body increment hc hb hi := ⟨rfl, {
    settles s r := by
      have hbody := (Settles.of_eq (hc.flags s r)).trans (hb.2.settles s _)
      exact hbody.trans (.of_eq (flags_optionalExpr s hi))
    beside hin _ s r r' hr hs := by
      cases hin with
      | loop hic hib hii =>
        have hcondition := hc.beside hic s hr fun _ => hs
        have hsettled := (Settles.of_eq (hc.flags s r)).settled hs
        have hbody := hb.2.beside hib (fun _ => hb.1) s hcondition hsettled
        exact beside_optionalExpr s hi hii hbody fun _ => (hb.2.settles s _).settled hsettled
      | @increment _ _ c' _ body' e e' hgoes hic hib hie =>
        -- Body and increment are read within one scope more, which is left behind them.
        have hcondition := hc.beside hic s hr fun _ => hs
        have hsettled := (Settles.of_eq (hc.flags s r)).settled hs
        have hbody := hb.2.beside hib (fun _ => hb.1) s hcondition.openAdded hsettled
        have hincrement := (hi e rfl).beside hie s hbody fun _ => (hb.2.settles s _).settled hsettled
        exact hincrement.closeAdded }⟩
  «break» keyword := ⟨rfl, .same (fun _ _ => rfl) fun hi => by
    cases hi
    rfl⟩
  «continue» keyword := ⟨rfl, .same (fun _ _ => rfl) fun hi => by
    cases hi
    rfl⟩
  breakError keyword := ⟨rfl, .same (fun _ _ => rfl) fun hi => by
    cases hi
    rfl⟩
  continueError keyword := ⟨rfl, .same (fun _ _ => rfl) fun hi => by
    cases hi
    rfl⟩
  «return» _ keyword value h := ⟨rfl, {
    settles s r := .of_eq ((flags_optionalExpr s h).trans (flags_returnFaults keyword _ _))
    beside hi _ s r r' hr hs := by
      cases hi with
      | «return» _ hi =>
        have hsettled := (Settles.of_eq (flags_returnFaults keyword value.isSome s.body)).settled hs
        show Resolution.Beside _ _ (optionalExpr s _ (r'.returnFaults keyword _ s.body))
        rw [hi.isSome]
        exact beside_optionalExpr s h hi (hr.returnFaults keyword _ _) fun _ => hsettled }⟩
  statement h := h.2
  var _ name initializer h := {
    settles s r := settles_define name (flags_optionalExpr s h)
    beside hi hd s r r' hr hs := by
      have hK := mt hd nofun
      cases hi with
      | var _ hi =>
        have hinitializer := beside_optionalExpr s h hi (hr.declare hK name) fun ht => absurd ht hK
        exact hinitializer.define hK name }
  named _ name f h := {
    settles s r := (settles_define name rfl).trans (.of_eq (h.flags _ _))
    beside hi hd s r r' hr hs := by
      have hK := mt hd nofun
      cases hi with
      | function _ hi => exact h.beside hi _ ((hr.declare hK name).define hK name) }
  «class» _ name superclass own statics _ hown hstatics := {
    settles s r := (settles_define name rfl).trans (.of_eq (flags_class _ name superclass hown hstatics _))
    beside hi hd s r r' hr hs := by
      have hK := mt hd nofun
      cases hi with
      | «class» _ _ _ hio his =>
        exact beside_class _ name hown hstatics hio his hK
          ((hr.declare hK name).define hK name) _ }
  body params body h := {
    flags s r := flags_scope ((settles_parameters params).trans (settles_stmts s h))
    beside hi s r r' hr := by
      cases hi with
      | mk _ hi =>
        have hsettled := (settles_parameters params).settled (r := r.openScope) settled_openScope
        have hparams := hr.openScope.parameters (by simp) params
        exact (beside_stmts s h hi (by simp) hparams hsettled).closeScope }

/-- An increment in the body of its loop changes nothing that is reported of the names of a program. -/
theorem log_inlined {tokens : List Token} {allowExpression : Bool} {nextId : NodeId} {p : Program}
    (h : (parse tokens allowExpression nextId).program.Inlines p) :
    (resolve p).log = (resolve (parse tokens allowExpression nextId).program).log := by
  have hparsed := parse_makes unmoving_composes tokens allowExpression nextId fun _ _ => trivial
  have hstart : Resolution.start.Beside [] Resolution.start := ⟨.nil, rfl⟩
  have hsettled : Resolution.start.Settled := nofun
  generalize (parse tokens allowExpression nextId).program = q at h hparsed
  cases h with
  | statements h => exact (beside_stmts _ hparsed h (by simp) hstart hsettled).log
  | expression h => exact (Expr.Unmoved.beside hparsed h _ hstart nofun).log

end Lox
