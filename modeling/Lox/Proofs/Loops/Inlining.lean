import Lox.Proofs.Renaming.Matching
import Lox.Proofs.Syntax.Propriety

/-!
A loop with an increment, and the loop without one whose body is a block of the old body and the
increment. Body and increment then lie in one scope more, which declares nothing.
-/

namespace Lox

mutual

/-- Whether the statement has a `continue` for the loop around it. -/
def Stmt.continues : Stmt → Bool
  | .continue _ => true
  | .block body => Stmt.continuesAny body
  | .ite _ thenBranch elseBranch => thenBranch.continues || Stmt.continues? elseBranch
  | .expression _ | .print _ | .var _ _ | .loop _ _ _ | .break _ | .breakError _ | .continueError _
  | .function _ | .return _ _ | .class _ _ _ _ => false

def Stmt.continues? : Option Stmt → Bool
  | none => false
  | some s => s.continues

def Stmt.continuesAny : List Stmt → Bool
  | [] => false
  | s :: rest => s.continues || Stmt.continuesAny rest

end

mutual

/-- The same expression but for loops that have their increments in their bodies. The marks tell which
of the scopes around it are those of such bodies, innermost first, and `R` is asked of each occurrence
within them. -/
inductive Expr.Inlined (R : List Bool → Role → Reference → Prop) : List Bool → Expr → Expr → Prop where
  | literal {K} (value : Literal) : Expr.Inlined R K (.literal value) (.literal value)
  | grouping {K inner inner'} (h : Expr.Inlined R K inner inner') :
    Expr.Inlined R K (.grouping inner) (.grouping inner')
  | unary {K right right'} (operator : Token) (h : Expr.Inlined R K right right') :
    Expr.Inlined R K (.unary operator right) (.unary operator right')
  | binary {K left left' right right'} (hl : Expr.Inlined R K left left') (operator : Token)
    (hr : Expr.Inlined R K right right') :
    Expr.Inlined R K (.binary left operator right) (.binary left' operator right')
  | binaryError {K right right'} (operator : Token) (h : Expr.Inlined R K right right') :
    Expr.Inlined R K (.binaryError operator right) (.binaryError operator right')
  | conditional {K c c' t t' f f'} (hc : Expr.Inlined R K c c') (ht : Expr.Inlined R K t t')
    (hf : Expr.Inlined R K f f') : Expr.Inlined R K (.conditional c t f) (.conditional c' t' f')
  | variable {K} (ref : Reference) (h : R K .read ref) :
    Expr.Inlined R K (.variable ref) (.variable ref)
  | assign {K value value'} (target : Reference) (h : R K .target target)
    (hv : Expr.Inlined R K value value') :
    Expr.Inlined R K (.assign target value) (.assign target value')
  | call {K callee callee' args args'} (hc : Expr.Inlined R K callee callee') (paren : Token)
    (ha : Expr.InlinedAll R K args args') :
    Expr.Inlined R K (.call callee paren args) (.call callee' paren args')
  | get {K object object'} (h : Expr.Inlined R K object object') (name : Token) :
    Expr.Inlined R K (.get object name) (.get object' name)
  | set {K object object' value value'} (ho : Expr.Inlined R K object object') (name : Token)
    (hv : Expr.Inlined R K value value') :
    Expr.Inlined R K (.set object name value) (.set object' name value')
  | this {K} (ref : Reference) (h : R K .this ref) : Expr.Inlined R K (.this ref) (.this ref)
  | super {K} (ref : Reference) (method : Token) (h : R K .super ref) :
    Expr.Inlined R K (.super ref method) (.super ref method)
  | lambda {K f f'} (h : Lambda.Inlined R K f f') : Expr.Inlined R K (.lambda f) (.lambda f')

inductive Expr.InlinedAll (R : List Bool → Role → Reference → Prop) :
    List Bool → List Expr → List Expr → Prop where
  | nil {K} : Expr.InlinedAll R K [] []
  | cons {K e e' es es'} (h : Expr.Inlined R K e e') (hs : Expr.InlinedAll R K es es') :
    Expr.InlinedAll R K (e :: es) (e' :: es')

inductive Expr.Inlined? (R : List Bool → Role → Reference → Prop) :
    List Bool → Option Expr → Option Expr → Prop where
  | none {K} : Expr.Inlined? R K none none
  | some {K e e'} (h : Expr.Inlined R K e e') : Expr.Inlined? R K (some e) (some e')

inductive Stmt.Inlined (R : List Bool → Role → Reference → Prop) : List Bool → Stmt → Stmt → Prop where
  | expression {K e e'} (h : Expr.Inlined R K e e') :
    Stmt.Inlined R K (.expression e) (.expression e')
  | print {K e e'} (h : Expr.Inlined R K e e') : Stmt.Inlined R K (.print e) (.print e')
  | var {K e e'} (name : Token) (h : Expr.Inlined? R K e e') :
    Stmt.Inlined R K (.var name e) (.var name e')
  | block {K body body'} (h : Stmt.InlinedAll R (false :: K) body body') :
    Stmt.Inlined R K (.block body) (.block body')
  | ite {K c c' t t' f f'} (hc : Expr.Inlined R K c c') (ht : Stmt.Inlined R K t t')
    (hf : Stmt.Inlined? R K f f') : Stmt.Inlined R K (.ite c t f) (.ite c' t' f')
  | loop {K c c' body body' i i'} (hc : Expr.Inlined R K c c') (hb : Stmt.Inlined R K body body')
    (hi : Expr.Inlined? R K i i') : Stmt.Inlined R K (.loop c body i) (.loop c' body' i')
  /-- The increment goes into the body. A `continue` would skip it there. -/
  | increment {K c c' body body' e e'} (hgoes : body.continues = false)
    (hc : Expr.Inlined R K c c') (hb : Stmt.Inlined R (true :: K) body body')
    (he : Expr.Inlined R (true :: K) e e') :
    Stmt.Inlined R K (.loop c body (some e)) (.loop c' (.block [body', .expression e']) none)
  | break {K} (keyword : Token) : Stmt.Inlined R K (.break keyword) (.break keyword)
  | continue {K} (keyword : Token) : Stmt.Inlined R K (.continue keyword) (.continue keyword)
  | breakError {K} (keyword : Token) : Stmt.Inlined R K (.breakError keyword) (.breakError keyword)
  | continueError {K} (keyword : Token) :
    Stmt.Inlined R K (.continueError keyword) (.continueError keyword)
  | function {K f f'} (name : Token) (h : Lambda.Inlined R K f f') :
    Stmt.Inlined R K (.function (.mk name f)) (.function (.mk name f'))
  | return {K e e'} (keyword : Token) (h : Expr.Inlined? R K e e') :
    Stmt.Inlined R K (.return keyword e) (.return keyword e')
  | class {K own own' statics statics'} (name : Token) (superclass : Option Reference)
    (h : ∀ ref ∈ superclass, R K .read ref)
    (hown : FunctionDecl.InlinedAll R (false :: superMarks superclass K) own own')
    (hstatics : FunctionDecl.InlinedAll R (superMarks superclass K) statics statics') :
    Stmt.Inlined R K (.class name superclass own statics) (.class name superclass own' statics')

inductive Stmt.InlinedAll (R : List Bool → Role → Reference → Prop) :
    List Bool → List Stmt → List Stmt → Prop where
  | nil {K} : Stmt.InlinedAll R K [] []
  | cons {K s s' rest rest'} (h : Stmt.Inlined R K s s') (hs : Stmt.InlinedAll R K rest rest') :
    Stmt.InlinedAll R K (s :: rest) (s' :: rest')

inductive Stmt.Inlined? (R : List Bool → Role → Reference → Prop) :
    List Bool → Option Stmt → Option Stmt → Prop where
  | none {K} : Stmt.Inlined? R K none none
  | some {K s s'} (h : Stmt.Inlined R K s s') : Stmt.Inlined? R K (some s) (some s')

inductive FunctionDecl.InlinedAll (R : List Bool → Role → Reference → Prop) :
    List Bool → List FunctionDecl → List FunctionDecl → Prop where
  | nil {K} : FunctionDecl.InlinedAll R K [] []
  | cons {K f f' rest rest'} (name : Token) (hf : Lambda.Inlined R K f f')
    (hs : FunctionDecl.InlinedAll R K rest rest') :
    FunctionDecl.InlinedAll R K (.mk name f :: rest) (.mk name f' :: rest')

inductive Lambda.Inlined (R : List Bool → Role → Reference → Prop) :
    List Bool → Lambda → Lambda → Prop where
  | mk {K body body'} (params : List Token) (hb : Stmt.InlinedAll R (false :: K) body body') :
    Lambda.Inlined R K (.mk params body) (.mk params body')

end

inductive Program.Inlined (R : List Bool → Role → Reference → Prop) : Program → Program → Prop where
  | statements {body body'} (h : Stmt.InlinedAll R [] body body') :
    Program.Inlined R (.statements body) (.statements body')
  | expression {e e'} (h : Expr.Inlined R [] e e') :
    Program.Inlined R (.expression e) (.expression e')

/-- Nothing is asked of the occurrences. -/
def Anywhere (_ : List Bool) (_ : Role) (_ : Reference) : Prop := True

/-- The second program is the first one with the increments of some loops in their bodies. Of these
bodies none has a `continue` for its loop. -/
def Program.Inlines (p p' : Program) : Prop := p.Inlined Anywhere p'

variable {R : List Bool → Role → Reference → Prop}

theorem Stmt.Inlined.declared? {K : List Bool} {s s' : Stmt} (h : s.Inlined R K s') :
    s'.declared? = s.declared? := by
  cases h <;> rfl

theorem Expr.Inlined?.isSome {K : List Bool} {e e' : Option Expr} (h : Expr.Inlined? R K e e') :
    e'.isSome = e.isSome := by
  cases h <;> rfl

section Refl

mutual

theorem Expr.inlined_refl : ∀ (e : Expr) (K : List Bool), e.Inlined Anywhere K e
  | .literal value, _ => .literal value
  | .grouping inner, K => .grouping (Expr.inlined_refl inner K)
  | .unary operator right, K => .unary operator (Expr.inlined_refl right K)
  | .binary left operator right, K =>
    .binary (Expr.inlined_refl left K) operator (Expr.inlined_refl right K)
  | .binaryError operator right, K => .binaryError operator (Expr.inlined_refl right K)
  | .conditional condition thenBranch elseBranch, K =>
    .conditional (Expr.inlined_refl condition K) (Expr.inlined_refl thenBranch K)
      (Expr.inlined_refl elseBranch K)
  | .variable ref, _ => .variable ref trivial
  | .assign target value, K => .assign target trivial (Expr.inlined_refl value K)
  | .call callee paren arguments, K =>
    .call (Expr.inlined_refl callee K) paren (Expr.inlinedAll_refl arguments K)
  | .get object name, K => .get (Expr.inlined_refl object K) name
  | .set object name value, K =>
    .set (Expr.inlined_refl object K) name (Expr.inlined_refl value K)
  | .this ref, _ => .this ref trivial
  | .super ref method, _ => .super ref method trivial
  | .lambda function, K => .lambda (Lambda.inlined_refl function K)

theorem Expr.inlinedAll_refl : ∀ (es : List Expr) (K : List Bool), Expr.InlinedAll Anywhere K es es
  | [], _ => .nil
  | e :: rest, K => .cons (Expr.inlined_refl e K) (Expr.inlinedAll_refl rest K)

theorem Expr.inlined?_refl : ∀ (e? : Option Expr) (K : List Bool), Expr.Inlined? Anywhere K e? e?
  | none, _ => .none
  | some e, K => .some (Expr.inlined_refl e K)

theorem Stmt.inlined_refl : ∀ (s : Stmt) (K : List Bool), s.Inlined Anywhere K s
  | .expression e, K => .expression (Expr.inlined_refl e K)
  | .print e, K => .print (Expr.inlined_refl e K)
  | .var name initializer, K => .var name (Expr.inlined?_refl initializer K)
  | .block body, _ => .block (Stmt.inlinedAll_refl body _)
  | .ite condition thenBranch elseBranch, K =>
    .ite (Expr.inlined_refl condition K) (Stmt.inlined_refl thenBranch K)
      (Stmt.inlined?_refl elseBranch K)
  | .loop condition body increment, K =>
    .loop (Expr.inlined_refl condition K) (Stmt.inlined_refl body K)
      (Expr.inlined?_refl increment K)
  | .break keyword, _ => .break keyword
  | .continue keyword, _ => .continue keyword
  | .breakError keyword, _ => .breakError keyword
  | .continueError keyword, _ => .continueError keyword
  | .function (.mk name function), K => .function name (Lambda.inlined_refl function K)
  | .return keyword value, K => .return keyword (Expr.inlined?_refl value K)
  | .class name superclass own statics, _ =>
    .class name superclass (fun _ _ => trivial) (FunctionDecl.inlinedAll_refl own _)
      (FunctionDecl.inlinedAll_refl statics _)

theorem Stmt.inlined?_refl : ∀ (s? : Option Stmt) (K : List Bool), Stmt.Inlined? Anywhere K s? s?
  | none, _ => .none
  | some s, K => .some (Stmt.inlined_refl s K)

theorem Stmt.inlinedAll_refl : ∀ (body : List Stmt) (K : List Bool), Stmt.InlinedAll Anywhere K body body
  | [], _ => .nil
  | s :: rest, K => .cons (Stmt.inlined_refl s K) (Stmt.inlinedAll_refl rest K)

theorem FunctionDecl.inlinedAll_refl : ∀ (decls : List FunctionDecl) (K : List Bool),
    FunctionDecl.InlinedAll Anywhere K decls decls
  | [], _ => .nil
  | .mk name function :: rest, K =>
    .cons name (Lambda.inlined_refl function K) (FunctionDecl.inlinedAll_refl rest K)

theorem Lambda.inlined_refl : ∀ (f : Lambda) (K : List Bool), f.Inlined Anywhere K f
  | .mk params body, _ => .mk params (Stmt.inlinedAll_refl body _)

end

end Refl

/-- Every program is one in which no increment has been moved. -/
theorem Program.inlines_refl : ∀ p : Program, p.Inlines p
  | .statements body => .statements (Stmt.inlinedAll_refl body [])
  | .expression e => .expression (Expr.inlined_refl e [])

/-- The increment of one loop goes into its body, and all else stays as it is. -/
theorem Stmt.inlined_loop {body : Stmt} (hgoes : body.continues = false) (condition e : Expr)
    (K : List Bool) :
    (Stmt.loop condition body (some e)).Inlined Anywhere K
      (.loop condition (.block [body, .expression e]) none) :=
  .increment hgoes (Expr.inlined_refl condition K) (Stmt.inlined_refl body _) (Expr.inlined_refl e _)

section Mono

variable {R' : List Bool → Role → Reference → Prop}

mutual

theorem Expr.Inlined.mono (hR : ∀ K role ref, R K role ref → R' K role ref) :
    ∀ {K : List Bool} {e e' : Expr}, e.Inlined R K e' → e.Inlined R' K e'
  | _, _, _, .literal value => .literal value
  | _, _, _, .grouping h => .grouping (h.mono hR)
  | _, _, _, .unary operator h => .unary operator (h.mono hR)
  | _, _, _, .binary hl operator hr => .binary (hl.mono hR) operator (hr.mono hR)
  | _, _, _, .binaryError operator h => .binaryError operator (h.mono hR)
  | _, _, _, .conditional hc ht hf => .conditional (hc.mono hR) (ht.mono hR) (hf.mono hR)
  | _, _, _, .variable ref h => .variable ref (hR _ _ _ h)
  | _, _, _, .assign target h hv => .assign target (hR _ _ _ h) (hv.mono hR)
  | _, _, _, .call hc paren ha => .call (hc.mono hR) paren (ha.mono hR)
  | _, _, _, .get h name => .get (h.mono hR) name
  | _, _, _, .set ho name hv => .set (ho.mono hR) name (hv.mono hR)
  | _, _, _, .this ref h => .this ref (hR _ _ _ h)
  | _, _, _, .super ref method h => .super ref method (hR _ _ _ h)
  | _, _, _, .lambda h => .lambda (h.mono hR)

theorem Expr.InlinedAll.mono (hR : ∀ K role ref, R K role ref → R' K role ref) :
    ∀ {K : List Bool} {es es' : List Expr}, Expr.InlinedAll R K es es' → Expr.InlinedAll R' K es es'
  | _, _, _, .nil => .nil
  | _, _, _, .cons h hs => .cons (h.mono hR) (hs.mono hR)

theorem Expr.Inlined?.mono (hR : ∀ K role ref, R K role ref → R' K role ref) :
    ∀ {K : List Bool} {e e' : Option Expr}, Expr.Inlined? R K e e' → Expr.Inlined? R' K e e'
  | _, _, _, .none => .none
  | _, _, _, .some h => .some (h.mono hR)

theorem Stmt.Inlined.mono (hR : ∀ K role ref, R K role ref → R' K role ref) :
    ∀ {K : List Bool} {s s' : Stmt}, s.Inlined R K s' → s.Inlined R' K s'
  | _, _, _, .expression h => .expression (h.mono hR)
  | _, _, _, .print h => .print (h.mono hR)
  | _, _, _, .var name h => .var name (h.mono hR)
  | _, _, _, .block h => .block (h.mono hR)
  | _, _, _, .ite hc ht hf => .ite (hc.mono hR) (ht.mono hR) (hf.mono hR)
  | _, _, _, .loop hc hb hi => .loop (hc.mono hR) (hb.mono hR) (hi.mono hR)
  | _, _, _, .increment hgoes hc hb he => .increment hgoes (hc.mono hR) (hb.mono hR) (he.mono hR)
  | _, _, _, .break keyword => .break keyword
  | _, _, _, .continue keyword => .continue keyword
  | _, _, _, .breakError keyword => .breakError keyword
  | _, _, _, .continueError keyword => .continueError keyword
  | _, _, _, .function name h => .function name (h.mono hR)
  | _, _, _, .return keyword h => .return keyword (h.mono hR)
  | _, _, _, .class name superclass h hown hstatics =>
    .class name superclass (fun ref href => hR _ _ _ (h ref href)) (hown.mono hR) (hstatics.mono hR)

theorem Stmt.Inlined?.mono (hR : ∀ K role ref, R K role ref → R' K role ref) :
    ∀ {K : List Bool} {s s' : Option Stmt}, Stmt.Inlined? R K s s' → Stmt.Inlined? R' K s s'
  | _, _, _, .none => .none
  | _, _, _, .some h => .some (h.mono hR)

theorem Stmt.InlinedAll.mono (hR : ∀ K role ref, R K role ref → R' K role ref) :
    ∀ {K : List Bool} {body body' : List Stmt}, Stmt.InlinedAll R K body body' → Stmt.InlinedAll R' K body body'
  | _, _, _, .nil => .nil
  | _, _, _, .cons h hs => .cons (h.mono hR) (hs.mono hR)

theorem FunctionDecl.InlinedAll.mono (hR : ∀ K role ref, R K role ref → R' K role ref) :
    ∀ {K : List Bool} {decls decls' : List FunctionDecl}, FunctionDecl.InlinedAll R K decls decls' → FunctionDecl.InlinedAll R' K decls decls'
  | _, _, _, .nil => .nil
  | _, _, _, .cons name hf hs => .cons name (hf.mono hR) (hs.mono hR)

theorem Lambda.Inlined.mono (hR : ∀ K role ref, R K role ref → R' K role ref) :
    ∀ {K : List Bool} {f f' : Lambda}, f.Inlined R K f' → f.Inlined R' K f'
  | _, _, _, .mk params hb => .mk params (hb.mono hR)

end

end Mono

/-! Moving an increment keeps the occurrences in their order. -/

mutual

theorem Expr.Inlined.ids : ∀ {K : List Bool} {e e' : Expr}, e.Inlined R K e' → e'.ids = e.ids
  | _, _, _, .literal _ | _, _, _, .variable _ _ | _, _, _, .this _ _ | _, _, _, .super _ _ _ => rfl
  | _, _, _, .grouping h => h.ids
  | _, _, _, .unary _ h => h.ids
  | _, _, _, .binary hl _ hr => congrArg₂ _ hl.ids hr.ids
  | _, _, _, .binaryError _ h => h.ids
  | _, _, _, .conditional hc ht hf => congrArg₂ _ hc.ids (congrArg₂ _ ht.ids hf.ids)
  | _, _, _, .assign _ _ hv => congrArg (· ++ _) hv.ids
  | _, _, _, .call hc _ ha => congrArg₂ _ hc.ids ha.ids
  | _, _, _, .get h _ => h.ids
  | _, _, _, .set ho _ hv => congrArg₂ _ hv.ids ho.ids
  | _, _, _, .lambda h => h.ids

theorem Expr.InlinedAll.ids : ∀ {K : List Bool} {es es' : List Expr},
    Expr.InlinedAll R K es es' → Expr.idsAll es' = Expr.idsAll es
  | _, _, _, .nil => rfl
  | _, _, _, .cons h hs => congrArg₂ _ h.ids hs.ids

theorem Expr.Inlined?.ids : ∀ {K : List Bool} {e e' : Option Expr},
    Expr.Inlined? R K e e' → Expr.ids? e' = Expr.ids? e
  | _, _, _, .none => rfl
  | _, _, _, .some h => h.ids

theorem Stmt.Inlined.ids : ∀ {K : List Bool} {s s' : Stmt}, s.Inlined R K s' → s'.ids = s.ids
  | _, _, _, .expression h => h.ids
  | _, _, _, .print h => h.ids
  | _, _, _, .var _ h => h.ids
  | _, _, _, .block h => h.ids
  | _, _, _, .ite hc ht hf => congrArg₂ _ hc.ids (congrArg₂ _ ht.ids hf.ids)
  | _, _, _, .loop hc hb hi => congrArg₂ _ hc.ids (congrArg₂ _ hb.ids hi.ids)
  | _, _, _, .increment _ hc hb he => by
    simp only [Stmt.ids, Stmt.idsAll, Expr.ids?, List.append_nil, hc.ids, hb.ids, he.ids]
  | _, _, _, .break _ | _, _, _, .continue _ | _, _, _, .breakError _
  | _, _, _, .continueError _ => rfl
  | _, _, _, .function _ h => h.ids
  | _, _, _, .return _ h => h.ids
  | _, _, _, .class _ _ _ hown hstatics =>
    congrArg (_ ++ ·) (congrArg₂ _ hown.ids hstatics.ids)

theorem Stmt.Inlined?.ids : ∀ {K : List Bool} {s s' : Option Stmt},
    Stmt.Inlined? R K s s' → Stmt.ids? s' = Stmt.ids? s
  | _, _, _, .none => rfl
  | _, _, _, .some h => h.ids

theorem Stmt.InlinedAll.ids : ∀ {K : List Bool} {body body' : List Stmt},
    Stmt.InlinedAll R K body body' → Stmt.idsAll body' = Stmt.idsAll body
  | _, _, _, .nil => rfl
  | _, _, _, .cons h hs => congrArg₂ _ h.ids hs.ids

theorem FunctionDecl.InlinedAll.ids : ∀ {K : List Bool} {decls decls' : List FunctionDecl},
    FunctionDecl.InlinedAll R K decls decls' → FunctionDecl.idsAll decls' = FunctionDecl.idsAll decls
  | _, _, _, .nil => rfl
  | _, _, _, .cons _ hf hs => congrArg₂ _ hf.ids hs.ids

theorem Lambda.Inlined.ids : ∀ {K : List Bool} {f f' : Lambda}, f.Inlined R K f' → f'.ids = f.ids
  | _, _, _, .mk _ hb => hb.ids

end

mutual

theorem Expr.Inlined.proper : ∀ {K : List Bool} {e e' : Expr},
    e.Inlined R K e' → e.Proper → e'.Proper
  | _, _, _, .literal _, hp | _, _, _, .variable _ _, hp | _, _, _, .this _ _, hp
  | _, _, _, .super _ _ _, hp => hp
  | _, _, _, .grouping h, hp => h.proper hp
  | _, _, _, .unary _ h, hp => h.proper hp
  | _, _, _, .binary hl _ hr, hp => ⟨hl.proper hp.1, hr.proper hp.2⟩
  | _, _, _, .binaryError _ h, hp => h.proper hp
  | _, _, _, .conditional hc ht hf, hp => ⟨hc.proper hp.1, ht.proper hp.2.1, hf.proper hp.2.2⟩
  | _, _, _, .assign _ _ hv, hp => ⟨hp.1, hv.proper hp.2⟩
  | _, _, _, .call hc _ ha, hp => ⟨hc.proper hp.1, ha.proper hp.2⟩
  | _, _, _, .get h _, hp => h.proper hp
  | _, _, _, .set ho _ hv, hp => ⟨ho.proper hp.1, hv.proper hp.2⟩
  | _, _, _, .lambda h, hp => h.proper hp

theorem Expr.InlinedAll.proper : ∀ {K : List Bool} {es es' : List Expr},
    Expr.InlinedAll R K es es' → Expr.ProperAll es → Expr.ProperAll es'
  | _, _, _, .nil, hp => hp
  | _, _, _, .cons h hs, hp => ⟨h.proper hp.1, hs.proper hp.2⟩

theorem Expr.Inlined?.proper : ∀ {K : List Bool} {e e' : Option Expr},
    Expr.Inlined? R K e e' → Expr.Proper? e → Expr.Proper? e'
  | _, _, _, .none, hp => hp
  | _, _, _, .some h, hp => h.proper hp

theorem Stmt.Inlined.proper : ∀ {K : List Bool} {s s' : Stmt},
    s.Inlined R K s' → s.Proper → s'.Proper
  | _, _, _, .expression h, hp => h.proper hp
  | _, _, _, .print h, hp => h.proper hp
  | _, _, _, .var _ h, hp => ⟨hp.1, h.proper hp.2⟩
  | _, _, _, .block h, hp => h.proper hp
  | _, _, _, .ite hc ht hf, hp =>
    ⟨hc.proper hp.1, ⟨ht.declared?.trans hp.2.1.1, ht.proper hp.2.1.2⟩, hf.proper hp.2.2⟩
  | _, _, _, .loop hc hb hi, hp =>
    ⟨hc.proper hp.1, ⟨hb.declared?.trans hp.2.1.1, hb.proper hp.2.1.2⟩, hi.proper hp.2.2⟩
  | _, _, _, .increment _ hc hb he, hp =>
    ⟨hc.proper hp.1, ⟨rfl, hb.proper hp.2.1.2, he.proper hp.2.2, trivial⟩, trivial⟩
  | _, _, _, .break _, hp | _, _, _, .continue _, hp | _, _, _, .breakError _, hp
  | _, _, _, .continueError _, hp => hp
  | _, _, _, .function _ h, hp => ⟨hp.1, h.proper hp.2⟩
  | _, _, _, .return _ h, hp => h.proper hp
  | _, _, _, .class _ _ _ hown hstatics, hp =>
    ⟨hp.1, hp.2.1, hown.proper hp.2.2.1, hstatics.proper hp.2.2.2⟩

theorem Stmt.Inlined?.proper : ∀ {K : List Bool} {s s' : Option Stmt},
    Stmt.Inlined? R K s s' → Stmt.Proper? s → Stmt.Proper? s'
  | _, _, _, .none, hp => hp
  | _, _, _, .some h, hp => ⟨h.declared?.trans hp.1, h.proper hp.2⟩

theorem Stmt.InlinedAll.proper : ∀ {K : List Bool} {body body' : List Stmt},
    Stmt.InlinedAll R K body body' → Stmt.ProperAll body → Stmt.ProperAll body'
  | _, _, _, .nil, hp => hp
  | _, _, _, .cons h hs, hp => ⟨h.proper hp.1, hs.proper hp.2⟩

theorem FunctionDecl.InlinedAll.proper : ∀ {K : List Bool} {decls decls' : List FunctionDecl},
    FunctionDecl.InlinedAll R K decls decls' → FunctionDecl.ProperAll decls →
    FunctionDecl.ProperAll decls'
  | _, _, _, .nil, hp => hp
  | _, _, _, .cons _ hf hs, hp => ⟨hf.proper hp.1, hs.proper hp.2⟩

theorem Lambda.Inlined.proper : ∀ {K : List Bool} {f f' : Lambda},
    f.Inlined R K f' → f.Proper → f'.Proper
  | _, _, _, .mk _ hb, hp => ⟨hp.1, hb.proper hp.2⟩

end

theorem Program.Inlined.ids {p p' : Program} (h : p.Inlined R p') : p'.ids = p.ids := by
  cases h with
  | statements h => exact h.ids
  | expression h => exact h.ids

theorem Program.Inlined.proper {p p' : Program} (h : p.Inlined R p') (hp : p.Proper) : p'.Proper := by
  cases h with
  | statements h => exact h.proper hp
  | expression h => exact h.proper hp

end Lox
