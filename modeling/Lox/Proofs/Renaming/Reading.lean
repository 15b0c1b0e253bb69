import Lox.Proofs.Syntax.Relabel
import Lox.Proofs.Syntax.Soundness

/-!
Reading tokens with other lexemes and on other lines. The readers of the grammar look at the kinds of
tokens and at their literals only, so what they read is the same tree with the other tokens in it, and
they report as much.
-/

namespace Lox

/-- Other tokens of the same kinds and with the same literals. -/
structure Respelling where
  token : Token → Token
  kind : ∀ t, (token t).kind = t.kind
  literal : ∀ t, (token t).literal = t.literal

namespace Respelling

attribute [simp] kind literal

variable (s : Respelling)

def reference : Reference → Reference := Reference.relabel s.token id

def expr : Expr → Expr := Expr.relabel s.token id

def stmt : Stmt → Stmt := Stmt.relabel s.token id

def decl : FunctionDecl → FunctionDecl := FunctionDecl.relabel s.token id

def lambda : Lambda → Lambda := Lambda.relabel s.token id

end Respelling

/-- The same place in both texts, with as many diagnostics so far. -/
structure Cursor.Respelled (s : Respelling) (c c' : Cursor) : Prop where
  rest : c'.rest = c.rest.map s.token
  last : c'.last.kind = c.last.kind
  nextId : c'.nextId = c.nextId
  log : c'.log.length = c.log.length

namespace Cursor.Respelled

variable {s : Respelling} {c c' : Cursor}

theorem head (h : c.Respelled s c') : c'.rest.head? = c.rest.head?.map s.token := by
  rw [h.rest, List.head?_map]

theorem here (h : c.Respelled s c') : c'.here.kind = c.here.kind := by
  unfold Cursor.here
  rw [h.head]
  cases c.rest.head? with
  | none => exact h.last
  | some t => exact s.kind t

theorem report (h : c.Respelled s c') (t t' : Token) (fault : SyntaxFault) :
    (c.report t fault).Respelled s (c'.report t' fault) :=
  ⟨h.rest, h.last, h.nextId, congrArg (· + 1) h.log⟩

theorem dropToResumption (dropped : Token) (rest : List Token) :
    Lox.dropToResumption (s.token dropped) (rest.map s.token) =
      (Lox.dropToResumption dropped rest).map s.token := by
  induction rest generalizing dropped with
  | nil => rfl
  | cons t rest ih =>
    by_cases hstop : dropped.kind = .semicolon ∨ t.kind ∈ resumptionKinds
    · simp [Lox.dropToResumption, hstop]
    · simp [Lox.dropToResumption, hstop, ih]

theorem resume (h : c.Respelled s c') : c.resume.Respelled s c'.resume := by
  have hrest := h.rest
  unfold Cursor.resume
  cases hr : c.rest with
  | nil =>
    rw [hr] at hrest
    rw [hrest]
    exact h
  | cons t rest =>
    rw [hr] at hrest
    rw [hrest]
    exact ⟨dropToResumption t rest, h.last, h.nextId, h.log⟩

end Cursor.Respelled

namespace Reader

variable {α α' β β' : Type} {s : Respelling} {n : Nat}

/-- On the other tokens `q` reads what `p` does on the first ones. -/
def Respells (s : Respelling) (φ : α → α') (p : Reader α) (q : Reader α') : Prop :=
  Agree Eq (Cursor.Respelled s) (fun a b => b = φ a) p q

namespace Respells

variable {φ : α → α'} {ψ : β → β'} {p : Reader α} {q : Reader α'} {f : α → Reader β}
  {g : α' → Reader β'}

theorem outOfFuel : Respells s φ outOfFuel outOfFuel := fun _ _ hc => .error rfl hc

theorem pure {a : α} {a' : α'} (h : a' = φ a) : Respells s φ (pure a) (pure a') := Agree.pure h

theorem bind (hp : Respells s φ p q) (hf : ∀ a, Respells s ψ (f a) (g (φ a))) :
    Respells s ψ (p >>= f) (q >>= g) := by
  refine Agree.bind hp fun a b hab => ?_
  subst hab
  exact hf a

theorem map {h : α → β} {h' : α' → β'} (hp : Respells s φ p q) (hh : ∀ a, h' (φ a) = ψ (h a)) :
    Respells s ψ (h <$> p) (h' <$> q) := bind hp fun a => pure (hh a)

/-- A test of the kinds that come next decides what is read. -/
theorem test {b : Cursor → Bool} {f : Bool → Reader β} {g : Bool → Reader β'}
    (hb : ∀ c c', c.Respelled s c' → b c' = b c) (hf : ∀ x, Respells s ψ (f x) (g x)) :
    Respells s ψ ((fun c => .ok (b c) c : Reader Bool) >>= f)
      ((fun c => .ok (b c) c : Reader Bool) >>= g) := by
  refine Agree.bind (A := Eq) (fun c c' hc => .ok (hb c c' hc).symm hc) fun x _ hx => ?_
  subst hx
  exact hf x

theorem sees {kind : TokenKind} {f : Bool → Reader β} {g : Bool → Reader β'}
    (hf : ∀ b, Respells s ψ (f b) (g b)) : Respells s ψ (sees kind >>= f) (sees kind >>= g) := by
  refine test (b := fun c => c.rest.head?.any (·.kind == kind)) (fun c c' hc => ?_) hf
  simp only [hc.head]
  cases c.rest.head? <;> simp

theorem ended {closers : List TokenKind} {f : Bool → Reader β} {g : Bool → Reader β'}
    (hf : ∀ b, Respells s ψ (f b) (g b)) :
    Respells s ψ (ended closers >>= f) (ended closers >>= g) := by
  refine test (b := fun c => c.rest.head?.all (·.kind ∈ closers)) (fun c c' hc => ?_) hf
  simp only [hc.head]
  cases c.rest.head? <;> simp

theorem seesNamedFunction {f : Bool → Reader β} {g : Bool → Reader β'}
    (hf : ∀ b, Respells s ψ (f b) (g b)) :
    Respells s ψ (seesNamedFunction >>= f) (seesNamedFunction >>= g) := by
  refine Agree.bind (A := Eq) (fun c c' hc => ?_) fun b _ hb => ?_
  · have hrest := hc.rest
    unfold Reader.seesNamedFunction
    rcases hr : c.rest with _ | ⟨first, _ | ⟨second, rest⟩⟩
    · rw [hr] at hrest
      rw [hrest]
      exact .ok rfl hc
    · rw [hr] at hrest
      rw [hrest]
      exact .ok rfl hc
    · rw [hr] at hrest
      rw [hrest]
      exact .ok (by simp) hc
  · subst hb
    exact hf b

theorem here {f : Token → Reader β} {g : Token → Reader β'}
    (hf : ∀ t t', t'.kind = t.kind → Respells s ψ (f t) (g t')) :
    Respells s ψ (here >>= f) (here >>= g) :=
  Agree.bind (A := fun t t' => t'.kind = t.kind) (fun _ _ hc => .ok hc.here hc) hf

theorem accept {kinds : List TokenKind} {f : Option Token → Reader β} {g : Option Token → Reader β'}
    (hnone : Respells s ψ (f none) (g none))
    (hsome : ∀ t : Token, Respells s ψ (f (some t)) (g (some (s.token t)))) :
    Respells s ψ (accept kinds >>= f) (accept kinds >>= g) := by
  refine bind (φ := Option.map s.token) (fun c c' hc => ?_) fun t? => ?_
  · have hrest := hc.rest
    unfold Reader.accept
    cases hr : c.rest with
    | nil =>
      rw [hr] at hrest
      rw [hrest]
      exact .ok rfl hc
    | cons t rest =>
      rw [hr] at hrest
      rw [hrest]
      simp only [List.map_cons, s.kind]
      by_cases ht : t.kind ∈ kinds
      · rw [if_pos ht, if_pos ht]
        exact .ok rfl ⟨rfl, hc.last, hc.nextId, hc.log⟩
      · rw [if_neg ht, if_neg ht]
        exact .ok rfl hc
  · cases t? with
    | none => exact hnone
    | some t => exact hsome t

theorem report {t t' : Token} {fault : SyntaxFault} :
    Respells s id (report t fault) (report t' fault) := fun _ _ hc => .ok rfl (hc.report t t' fault)

theorem reportHere {fault : SyntaxFault} : Respells s id (reportHere fault) (reportHere fault) :=
  fun _ _ hc => .ok rfl (hc.report _ _ fault)

theorem missing {what : Expected} : Respells s φ (missing what) (missing what) :=
  fun _ _ hc => .error rfl (hc.report _ _ (.missing what))

theorem expect {kind : TokenKind} {what : Expected} :
    Respells s s.token (expect kind what) (expect kind what) :=
  accept missing fun _ => pure rfl

theorem reference {name : Token} :
    Respells s s.reference (reference name) (reference (s.token name)) := by
  intro c c' hc
  unfold Reader.reference
  rw [hc.nextId]
  exact .ok rfl ⟨hc.rest, hc.last, rfl, hc.log⟩

theorem recovering (h : Respells s φ p q) :
    Respells s (Option.map φ) (recovering p) (recovering q) := by
  intro c c' hc
  have hends := h c c' hc
  unfold Reader.recovering
  generalize p c = r at hends ⊢
  generalize q c' = r' at hends ⊢
  cases hends with
  | ok ha hd =>
    subst ha
    exact .ok rfl hd
  | @error stop _ d d' he hd =>
    subst he
    cases stop with
    | syntaxError => exact .ok rfl hd.resume
    | outOfFuel => exact .error rfl hd

end Respells

section Lists

variable {φ : α → α'} {item : Reader α} {item' : Reader α'} {tooMany : SyntaxFault}

theorem respells_listed (h : Respells s φ item item') (n count : Nat) :
    Respells s (List.map φ) (listed tooMany item n count) (listed tooMany item' n count) := by
  induction n generalizing count with
  | zero => exact .outOfFuel
  | succ n ih =>
    have tail : Respells s (List.map φ)
        (itemAndOthers item (listed tooMany item n (count + 1)))
        (itemAndOthers item' (listed tooMany item' n (count + 1))) := by
      refine .bind h fun first => .accept (.pure rfl) fun comma => ?_
      exact .bind (ih (count + 1)) fun others => .pure rfl
    by_cases hcount : maxListed ≤ count
    · rw [listed_full hcount, listed_full hcount]
      exact .bind .reportHere fun _ => tail
    · rw [listed_more hcount, listed_more hcount]
      exact tail

theorem respells_listedOrNone (h : Respells s φ item item') :
    Respells s (List.map φ) (listedOrNone n tooMany item) (listedOrNone n tooMany item') := by
  unfold listedOrNone
  apply Respells.sees
  intro b
  cases b with
  | true => exact .pure rfl
  | false => exact respells_listed h n 0

end Lists

section Operators

variable {operand operand' : Reader Expr} {kinds : List TokenKind}

theorem respells_operands (h : Respells s s.expr operand operand') (n : Nat) (left : Expr) :
    Respells s s.expr (operands kinds operand n left) (operands kinds operand' n (s.expr left)) := by
  induction n generalizing left with
  | zero => exact .outOfFuel
  | succ n ih =>
    unfold operands
    refine .accept (.pure rfl) fun operator => .bind h fun right => ?_
    exact ih (.binary left operator right)

theorem respells_leftAssociative (h : Respells s s.expr operand operand') :
    Respells s s.expr (leftAssociative n kinds operand) (leftAssociative n kinds operand') :=
  .bind h fun left => respells_operands h n left

theorem respells_binary (h : Respells s s.expr operand operand') :
    Respells s s.expr (binary n operand) (binary n operand') := by
  unfold binary
  generalize operatorLevels = levels
  induction levels with
  | nil => exact h
  | cons kinds levels ih => exact respells_leftAssociative ih

end Operators

section Productions

variable {expression expression' : Reader Expr} {declarations declarations' : Reader (List Stmt)}

theorem respells_series (h : Respells s s.expr expression expression') :
    Respells s s.expr (series n expression) (series n expression') := by
  refine respells_leftAssociative (.accept h fun operator => .bind h fun right => ?_)
  exact .bind .report fun _ => .pure rfl

theorem respells_callTail (h : Respells s s.expr expression expression') (n : Nat) (callee : Expr) :
    Respells s s.expr (callTail expression n callee) (callTail expression' n (s.expr callee)) := by
  induction n generalizing callee with
  | zero => exact .outOfFuel
  | succ n ih =>
    unfold callTail
    refine .accept (.pure rfl) fun opener => ?_
    simp only [s.kind]
    by_cases ho : opener.kind = .leftParen
    · simp only [if_pos ho]
      refine .bind (respells_listedOrNone h) fun arguments => .bind .expect fun paren => ?_
      have hcall : s.expr (.call callee paren arguments) =
          .call (s.expr callee) (s.token paren) (arguments.map s.expr) :=
        congrArg (Expr.call _ _) (Expr.relabelAll_eq_map _ _ arguments)
      rw [← hcall]
      exact ih (.call callee paren arguments)
    · simp only [if_neg ho]
      exact .bind .expect fun name => ih (.get callee name)

theorem respells_lambda {role : FunctionRole}
    (h : Respells s (List.map s.stmt) declarations declarations') :
    Respells s s.lambda (lambda n role declarations) (lambda n role declarations') := by
  unfold lambda
  refine .bind (respells_listedOrNone .expect) fun params => .bind .expect fun _ => ?_
  refine .bind .expect fun _ => .bind h fun body => .bind .expect fun _ => .pure ?_
  exact congrArg (Lambda.mk _) (Stmt.relabelAll_eq_map _ _ body).symm

theorem respells_function {role : FunctionRole}
    (h : Respells s (List.map s.stmt) declarations declarations') :
    Respells s s.decl (function n role declarations) (function n role declarations') := by
  unfold function
  refine .bind .expect fun name => .bind .expect fun _ => ?_
  exact .bind (respells_lambda h) fun f => .pure rfl

theorem respells_methods (h : Respells s (List.map s.stmt) declarations declarations') (n : Nat) :
    Respells s (Prod.map (List.map s.decl) (List.map s.decl)) (methods declarations n)
      (methods declarations' n) := by
  induction n with
  | zero => exact .outOfFuel
  | succ n ih =>
    unfold methods
    apply Respells.ended
    intro b
    cases b with
    | true => exact .pure rfl
    | false =>
      refine .accept ?_ fun keyword => ?_
      · exact .bind (respells_function h) fun first => .bind ih fun ms => .pure rfl
      · exact .bind (respells_function h) fun first => .bind ih fun ms => .pure rfl

theorem respells_superclass : Respells s (Option.map s.reference) superclass superclass := by
  refine .accept (.pure rfl) fun less => .bind .expect fun name => ?_
  exact .bind .reference fun ref => .pure rfl

theorem respells_classDeclaration (h : Respells s (List.map s.stmt) declarations declarations') :
    Respells s s.stmt (classDeclaration n declarations) (classDeclaration n declarations') := by
  unfold classDeclaration
  refine .bind .expect fun name => .bind respells_superclass fun superclass => ?_
  refine .bind .expect fun _ => .bind (respells_methods h n) fun ms => ?_
  refine .bind .expect fun _ => .pure ?_
  simp only [Respelling.stmt, Stmt.relabel, FunctionDecl.relabelAll_eq_map]
  rfl

theorem respells_optional (h : Respells s s.expr expression expression') :
    Respells s (Expr.relabel? s.token id) (some <$> expression) (some <$> expression') :=
  .map h fun _ => rfl

theorem respells_varDeclaration (h : Respells s s.expr expression expression') :
    Respells s s.stmt (varDeclaration expression) (varDeclaration expression') := by
  unfold varDeclaration
  refine .bind .expect fun name => .accept ?_ fun equals => ?_
  · exact .bind (φ := Expr.relabel? s.token id) (.pure rfl) fun initializer =>
      .bind .expect fun _ => .pure rfl
  · exact .bind (respells_optional h) fun initializer => .bind .expect fun _ => .pure rfl

theorem respells_unlessSees {closer : TokenKind} (h : Respells s s.expr expression expression') :
    Respells s (Expr.relabel? s.token id) (unlessSees closer expression)
      (unlessSees closer expression') := by
  unfold unlessSees
  apply Respells.sees
  intro b
  cases b with
  | true => exact .pure rfl
  | false => exact respells_optional h

theorem respells_expressionStatement (h : Respells s s.expr expression expression') :
    Respells s s.stmt (expressionStatement n expression) (expressionStatement n expression') :=
  .bind (respells_series h) fun _ => .bind .expect fun _ => .pure rfl

theorem respells_printStatement (h : Respells s s.expr expression expression') :
    Respells s s.stmt (printStatement n expression) (printStatement n expression') :=
  .bind (respells_series h) fun _ => .bind .expect fun _ => .pure rfl

theorem respells_returnStatement {keyword : Token}
    (h : Respells s s.expr expression expression') :
    Respells s s.stmt (returnStatement keyword expression)
      (returnStatement (s.token keyword) expression') :=
  .bind (respells_unlessSees h) fun _ => .bind .expect fun _ => .pure rfl

theorem respells_breakStatement {keyword : Token} {inLoop : Bool} :
    Respells s s.stmt (breakStatement keyword inLoop) (breakStatement (s.token keyword) inLoop) := by
  refine .bind .expect fun _ => ?_
  cases inLoop with
  | true => exact .pure rfl
  | false => exact .bind .report fun _ => .pure rfl

theorem respells_continueStatement {keyword : Token} {inLoop : Bool} :
    Respells s s.stmt (continueStatement keyword inLoop)
      (continueStatement (s.token keyword) inLoop) := by
  refine .bind .expect fun _ => ?_
  cases inLoop with
  | true => exact .pure rfl
  | false => exact .bind .report fun _ => .pure rfl

theorem respells_forInitializer (h : Respells s s.expr expression expression') :
    Respells s (Stmt.relabel? s.token id) (forInitializer n expression)
      (forInitializer n expression') := by
  unfold forInitializer
  refine .accept (.map (respells_expressionStatement h) fun _ => rfl) fun t => ?_
  simp only [s.kind]
  by_cases ht : t.kind = .semicolon
  · simp only [if_pos ht]
    exact .pure rfl
  · simp only [if_neg ht]
    exact .map (respells_varDeclaration h) fun _ => rfl

theorem respells_forStatement {body body' : Reader Stmt}
    (h : Respells s s.expr expression expression') (hb : Respells s s.stmt body body') :
    Respells s s.stmt (forStatement n expression body) (forStatement n expression' body') := by
  unfold forStatement
  refine .bind .expect fun _ => .bind (respells_forInitializer h) fun first => ?_
  refine .bind (respells_unlessSees h) fun condition => .bind .expect fun _ => ?_
  refine .bind (respells_unlessSees h) fun increment => .bind .expect fun _ => ?_
  refine .bind hb fun body => .pure ?_
  have hcondition : (Expr.relabel? s.token id condition).getD (.literal (.boolean true)) =
      s.expr (condition.getD (.literal (.boolean true))) := by
    cases condition <;> rfl
  rw [hcondition]
  cases first <;> rfl

theorem respells_whileStatement {body body' : Reader Stmt}
    (h : Respells s s.expr expression expression') (hb : Respells s s.stmt body body') :
    Respells s s.stmt (whileStatement expression body) (whileStatement expression' body') := by
  unfold whileStatement
  refine .bind .expect fun _ => .bind h fun condition => .bind .expect fun _ => ?_
  exact .bind hb fun body => .pure rfl

theorem respells_ifStatement {branch branch' : Reader Stmt}
    (h : Respells s s.expr expression expression') (hb : Respells s s.stmt branch branch') :
    Respells s s.stmt (ifStatement expression branch) (ifStatement expression' branch') := by
  unfold ifStatement
  refine .bind .expect fun _ => .bind h fun condition => .bind .expect fun _ => ?_
  refine .bind hb fun thenBranch => .accept (.pure rfl) fun middle => ?_
  exact .bind hb fun elseBranch => .pure rfl

theorem respells_primaryFrom {t : Token} (h : Respells s s.expr expression expression')
    (hd : Respells s (List.map s.stmt) declarations declarations') :
    Respells s s.expr (primaryFrom n expression declarations t)
      (primaryFrom n expression' declarations' (s.token t)) := by
  unfold primaryFrom
  simp only [s.kind, s.literal]
  split
  · exact .pure rfl
  · exact .pure rfl
  · exact .pure rfl
  · exact .pure rfl
  · refine .bind .expect fun _ => .bind .expect fun method => ?_
    exact .bind .reference fun ref => .pure rfl
  · exact .map .reference fun ref => rfl
  · exact .map .reference fun ref => rfl
  · exact .bind .expect fun _ => .bind (respells_lambda hd) fun f => .pure rfl
  · exact .bind h fun inner => .bind .expect fun _ => .pure rfl
  · exact .pure rfl

theorem respells_assignment {equals : Token} (target value : Expr) :
    Respells s s.expr (assignment target equals value)
      (assignment (s.expr target) (s.token equals) (s.expr value)) := by
  cases target with
  | «variable» ref => exact .bind .reference fun ref' => .pure rfl
  | get object name => exact .pure rfl
  | _ => exact .bind .report fun _ => .pure rfl

end Productions

/-- What holds of the readers that call one another. -/
structure Respelled (s : Respelling) (n : Nat) : Prop where
  expression : Respells s s.expr (expression n) (expression n)
  conditional : Respells s s.expr (conditional n) (conditional n)
  unary : Respells s s.expr (unary n) (unary n)
  declarations : ∀ inLoop closers, Respells s (List.map s.stmt) (declarations n inLoop closers)
    (declarations n inLoop closers)
  declaration : ∀ inLoop, Respells s s.stmt (declaration n inLoop) (declaration n inLoop)
  statement : ∀ inLoop, Respells s s.stmt (statement n inLoop) (statement n inLoop)

namespace Respelled

theorem expression_succ (h : Respelled s n) :
    Respells s s.expr (Reader.expression (n + 1)) (Reader.expression (n + 1)) := by
  unfold Reader.expression
  refine .bind h.conditional fun target => .accept (.pure rfl) fun equals => ?_
  exact .bind h.expression fun value => respells_assignment target value

theorem conditional_succ (h : Respelled s n) :
    Respells s s.expr (Reader.conditional (n + 1)) (Reader.conditional (n + 1)) := by
  unfold Reader.conditional
  refine .bind (respells_binary h.unary) fun condition => .accept (.pure rfl) fun question => ?_
  refine .bind h.conditional fun thenBranch => .bind .expect fun _ => ?_
  exact .bind h.conditional fun elseBranch => .pure rfl

theorem unary_succ (h : Respelled s n) :
    Respells s s.expr (Reader.unary (n + 1)) (Reader.unary (n + 1)) := by
  unfold Reader.unary
  refine .accept (.accept .missing fun t => ?_) fun operator => ?_
  · refine .bind (respells_primaryFrom h.expression (h.declarations false _)) fun callee => ?_
    exact respells_callTail h.expression n callee
  · exact .bind h.unary fun right => .pure rfl

theorem declarations_succ (h : Respelled s n) (inLoop : Bool) (closers : List TokenKind) :
    Respells s (List.map s.stmt) (Reader.declarations (n + 1) inLoop closers)
      (Reader.declarations (n + 1) inLoop closers) := by
  unfold Reader.declarations
  apply Respells.ended
  intro b
  cases b with
  | true => exact .pure rfl
  | false =>
    refine .bind (h.declaration inLoop).recovering fun first => ?_
    refine .bind (h.declarations inLoop closers) fun others => .pure ?_
    cases first <;> simp

theorem declaration_succ (h : Respelled s n) (inLoop : Bool) :
    Respells s s.stmt (Reader.declaration (n + 1) inLoop) (Reader.declaration (n + 1) inLoop) := by
  have hbody := h.declarations false [.rightBrace]
  unfold Reader.declaration
  apply Respells.seesNamedFunction
  intro b
  cases b with
  | true =>
    refine .accept ?_ fun _ => ?_
    · exact .bind (respells_function hbody) fun decl => .pure rfl
    · exact .bind (respells_function hbody) fun decl => .pure rfl
  | false =>
    refine .accept (h.statement inLoop) fun t => ?_
    simp only [s.kind]
    by_cases ht : t.kind = .class
    · simp only [if_pos ht]
      exact respells_classDeclaration hbody
    · simp only [if_neg ht]
      exact respells_varDeclaration h.expression

theorem statement_succ (h : Respelled s n) (inLoop : Bool) :
    Respells s s.stmt (Reader.statement (n + 1) inLoop) (Reader.statement (n + 1) inLoop) := by
  unfold Reader.statement
  refine .accept (respells_expressionStatement h.expression) fun t => ?_
  simp only [s.kind]
  split
  · exact respells_forStatement h.expression (h.statement true)
  · exact respells_ifStatement h.expression (h.statement inLoop)
  · exact respells_whileStatement h.expression (h.statement true)
  · exact respells_returnStatement h.expression
  · exact respells_breakStatement
  · exact respells_continueStatement
  · refine .bind (h.declarations inLoop _) fun body => .bind .expect fun _ => .pure ?_
    exact congrArg Stmt.block (Stmt.relabelAll_eq_map _ _ body).symm
  · exact respells_printStatement h.expression

end Respelled

/-- No reader tells the tokens apart, by induction on the fuel. -/
theorem respelled (s : Respelling) (n : Nat) : Respelled s n := by
  induction n with
  | zero =>
    exact ⟨.outOfFuel, .outOfFuel, .outOfFuel, fun _ _ => .outOfFuel, fun _ => .outOfFuel,
      fun _ => .outOfFuel⟩
  | succ n ih =>
    exact ⟨ih.expression_succ, ih.conditional_succ, ih.unary_succ, ih.declarations_succ,
      ih.declaration_succ, ih.statement_succ⟩

theorem respells_entry (n : Nat) :
    Respells s (Sum.map s.stmt s.expr) (entry n) (entry n) := by
  have h := respelled s n
  unfold entry
  refine .here fun t t' ht => .seesNamedFunction fun b => ?_
  rw [ht]
  by_cases hstatement : t.kind ∈ statementKinds ∨ b = true
  · rw [if_pos hstatement]
    exact .bind (h.declaration false) fun first => .pure rfl
  · rw [if_neg hstatement]
    refine .bind (respells_series h.expression) fun e => .accept ?_ fun semicolon => .pure rfl
    refine .ended fun b => ?_
    cases b with
    | true => exact .pure rfl
    | false => exact .missing

theorem respells_program (n : Nat) (allowExpression : Bool) :
    Respells s (Program.relabel s.token id) (program n allowExpression)
      (program n allowExpression) := by
  have h := (respelled s n).declarations false []
  have hscript : Respells s (Program.relabel s.token id)
      (do return .statements (← declarations n false []))
      (do return .statements (← declarations n false [])) :=
    .bind h fun body => .pure (congrArg Program.statements (Stmt.relabelAll_eq_map _ _ body).symm)
  unfold program
  cases allowExpression with
  | false => exact hscript
  | true =>
    refine .ended fun b => ?_
    cases b with
    | true => exact hscript
    | false =>
      refine .bind (respells_entry n).recovering fun entry => ?_
      rcases entry with _ | first | e
      · exact hscript
      · refine .bind h fun others => .pure ?_
        exact congrArg Program.statements (Stmt.relabelAll_eq_map _ _ (first :: others)).symm
      · exact .pure rfl

end Reader

section Parse

variable (s : Respelling) (tokens : List Token) (allowExpression : Bool) (nextId : NodeId)

theorem ofTokens_respelled :
    (Cursor.ofTokens tokens nextId).Respelled s
      (Cursor.ofTokens (tokens.map s.token) nextId) := by
  have hword : (fun t : Token => t.kind != .eof) ∘ s.token = fun t => t.kind != .eof := by
    funext t
    simp
  have hend : (fun t : Token => !(t.kind != .eof)) ∘ s.token = fun t => !(t.kind != .eof) := by
    funext t
    simp
  refine ⟨?_, ?_, rfl, rfl⟩
  · simp only [Cursor.ofTokens, List.takeWhile_map, hword]
  · simp only [Cursor.ofTokens, List.find?_map, hend]
    cases tokens.find? fun t => !(t.kind != .eof) with
    | none => rfl
    | some t => exact s.kind t

/-- Other tokens of the same kinds are read as the same program with these tokens. -/
theorem parse_respelled :
    let read := parse tokens allowExpression nextId
    let read' := parse (tokens.map s.token) allowExpression nextId
    read'.program = read.program.relabel s.token id ∧ read'.nextId = read.nextId ∧
      read'.diagnostics.length = read.diagnostics.length := by
  have hstart := ofTokens_respelled s tokens nextId
  have hlength : (Cursor.ofTokens (tokens.map s.token) nextId).rest.length =
      (Cursor.ofTokens tokens nextId).rest.length := by
    rw [hstart.rest, List.length_map]
  have hends := Reader.respells_program
    (fuelPerToken * ((Cursor.ofTokens tokens nextId).rest.length + 1)) allowExpression _ _ hstart
  unfold parse
  simp only [hlength]
  generalize Reader.program _ _ (Cursor.ofTokens tokens nextId) = r at hends ⊢
  generalize Reader.program _ _ (Cursor.ofTokens (tokens.map s.token) nextId) = r' at hends ⊢
  cases hends with
  | ok hp hc =>
    subst hp
    exact ⟨rfl, hc.nextId, by simp [hc.log]⟩
  | error _ hc => exact ⟨rfl, hc.nextId, by simp [hc.log]⟩

end Parse

end Lox
