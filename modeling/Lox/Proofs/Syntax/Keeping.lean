import Lox.Proofs.Syntax.Account

/-!
One walk through the grammar for every account. If the entries of each kind of tree follow from those
of its parts, in the order in which they are read, then they hold of what the parser makes.
-/

namespace Lox

namespace Account

variable {T : Token → Prop} {A : Account T} {α β : Type} {n : Nat}

/-- The entries of each kind of tree, and of what else a tree is put together from. A statement may
stand in a loop or not, and a declaration is a statement that may declare something. -/
structure Entries (A : Account T) where
  expr : Expr → A.Entry
  stmt : (inLoop : Bool) → Stmt → A.Entry
  declaration : (inLoop : Bool) → Stmt → A.Entry
  /-- A statement with a loop around it. -/
  loopBody : Stmt → A.Entry
  function : Lambda → A.Entry
  method : (isStatic inherits : Bool) → FunctionDecl → A.Entry
  superclass : Reference → A.Entry
  name : Token → A.Entry
  parameter : Token → A.Entry
  program : Program → A.Entry

namespace Entries

/-- A function with its name, which is declared where it stands. -/
def decl (E : Entries A) (d : FunctionDecl) : A.Entry :=
  A.beside (E.name d.name) (E.function d.function)

/-- What is entered may be a single expression. -/
def entered (E : Entries A) : Stmt ⊕ Expr → A.Entry
  | .inl s => E.declaration false s
  | .inr e => E.expr e

end Entries

/-- The entry of each tree follows from those of its parts, in the order in which they are read. -/
structure Entries.Composes (E : Entries A) : Prop where
  name : ∀ {t : Token}, t.Among T [.identifier] → A.Takes t (E.name t)
  parameter : ∀ {t : Token}, t.Among T [.identifier] → A.Takes t (E.parameter t)
  nil : A.Turns A.empty (E.expr (.literal .nil))
  boolean : ∀ b, A.Turns A.empty (E.expr (.literal (.boolean b)))
  literal : ∀ {t : Token} {value}, t.Among T [.number, .string] → t.literal = some value →
    A.Turns A.empty (E.expr (.literal value))
  grouping : ∀ e, A.Turns (E.expr e) (E.expr (.grouping e))
  unary : ∀ {operator : Token} e, operator.Among T [.bang, .minus] →
    A.Turns (E.expr e) (E.expr (.unary operator e))
  binary : ∀ left {operator : Token} right, operator.Among T binaryOperators →
    A.Turns (A.beside (E.expr left) (E.expr right)) (E.expr (.binary left operator right))
  binaryError : ∀ {operator : Token} e, operator.Among T Reader.danglingOperators →
    A.Reports operator .noLeftOperand (E.expr e) (E.expr (.binaryError operator e))
  conditional : ∀ condition thenBranch elseBranch,
    A.Turns (A.beside (A.beside (E.expr condition) (E.expr thenBranch)) (E.expr elseBranch))
      (E.expr (.conditional condition thenBranch elseBranch))
  «variable» : ∀ {name : Token}, name.Among T [.identifier] →
    A.Numbers A.empty fun id => E.expr (.variable ⟨id, name⟩)
  assign : ∀ ref value, A.Numbers (A.beside (E.expr (.variable ref)) (E.expr value))
    fun id => E.expr (.assign ⟨id, ref.name⟩ value)
  call : ∀ callee {paren : Token} arguments, paren.Among T [.rightParen] →
    A.Turns (A.beside (E.expr callee) (A.all E.expr arguments)) (E.expr (.call callee paren arguments))
  get : ∀ object {name : Token}, name.Among T [.identifier] →
    A.Turns (E.expr object) (E.expr (.get object name))
  set : ∀ object name value, A.Turns (A.beside (E.expr (.get object name)) (E.expr value))
    (E.expr (.set object name value))
  this : ∀ {keyword : Token}, keyword.Among T [.this] →
    A.Numbers A.empty fun id => E.expr (.this ⟨id, keyword⟩)
  super : ∀ {keyword method : Token}, keyword.Among T [.super] → method.Among T [.identifier] →
    A.Numbers A.empty fun id => E.expr (.super ⟨id, keyword⟩ method)
  lambda : ∀ f, A.Turns (E.function f) (E.expr (.lambda f))
  expression : ∀ inLoop e, A.Turns (E.expr e) (E.stmt inLoop (.expression e))
  print : ∀ inLoop e, A.Turns (E.expr e) (E.stmt inLoop (.print e))
  block : ∀ inLoop body, A.Turns (A.all (E.declaration inLoop) body) (E.stmt inLoop (.block body))
  ite : ∀ inLoop condition thenBranch elseBranch,
    A.Turns (A.beside (A.beside (E.expr condition) (E.stmt inLoop thenBranch))
      (A.optional (E.stmt inLoop) elseBranch)) (E.stmt inLoop (.ite condition thenBranch elseBranch))
  loopBody : ∀ s, A.Turns (E.stmt true s) (E.loopBody s)
  loop : ∀ inLoop condition increment body,
    A.Turns (A.beside (A.beside (E.expr condition) (A.optional E.expr increment)) (E.loopBody body))
      (E.stmt inLoop (.loop condition body increment))
  /-- A loop behind an initializer, in a block with it. -/
  initialized : ∀ inLoop first condition increment body,
    A.Turns (A.beside (A.beside (A.beside (E.declaration inLoop first) (E.expr condition))
      (A.optional E.expr increment)) (E.loopBody body))
      (E.stmt inLoop (.block [first, .loop condition body increment]))
  «break» : ∀ keyword, A.Turns A.empty (E.stmt true (.break keyword))
  «continue» : ∀ keyword, A.Turns A.empty (E.stmt true (.continue keyword))
  breakError : ∀ keyword,
    A.Reports keyword .misplacedBreak A.empty (E.stmt false (.breakError keyword))
  continueError : ∀ keyword,
    A.Reports keyword .misplacedContinue A.empty (E.stmt false (.continueError keyword))
  «return» : ∀ inLoop keyword value,
    A.Turns (A.optional E.expr value) (E.stmt inLoop (.return keyword value))
  statement : ∀ inLoop s, A.Turns (E.stmt inLoop s) (E.declaration inLoop s)
  var : ∀ inLoop name initializer,
    A.Turns (A.beside (E.name name) (A.optional E.expr initializer))
      (E.declaration inLoop (.var name initializer))
  named : ∀ inLoop name f, A.Turns (A.beside (E.name name) (E.function f))
    (E.declaration inLoop (.function (.mk name f)))
  superclass : ∀ {name : Token}, name.Among T [.identifier] →
    A.Numbers A.empty fun id => E.superclass ⟨id, name⟩
  method : ∀ isStatic inherits name f, A.Turns (A.beside (E.name name) (E.function f))
    (E.method isStatic inherits (.mk name f))
  /-- The methods of the class itself are told apart from those of its instances. -/
  statics : ∀ inherits decl own statics,
    A.Turns (A.beside (E.method true inherits decl) (A.beside (A.all (E.method false inherits) own)
      (A.all (E.method true inherits) statics)))
      (A.beside (A.all (E.method false inherits) own)
        (A.all (E.method true inherits) (decl :: statics)))
  «class» : ∀ inLoop name superclass own statics,
    A.Turns (A.beside (A.beside (E.name name) (A.optional E.superclass superclass))
      (A.beside (A.all (E.method false superclass.isSome) own)
        (A.all (E.method true superclass.isSome) statics)))
      (E.declaration inLoop (.class name superclass own statics))
  body : ∀ params body,
    A.Turns (A.beside (A.all E.parameter params) (A.all (E.declaration false) body))
      (E.function (.mk params body))
  statements : ∀ body, A.Turns (A.all (E.declaration false) body) (E.program (.statements body))
  single : ∀ e, A.Turns (E.expr e) (E.program (.expression e))

open Reader

variable {E : Entries A} (hE : E.Composes)
include hE

section Operators

variable {kinds : List TokenKind} {operand : Reader Expr}

theorem keeps_operands (hkinds : kinds ⊆ binaryOperators) (h : A.Keeps A.empty operand E.expr)
    (left : Expr) : A.Keeps (E.expr left) (operands kinds operand n left) E.expr := by
  induction n generalizing left with
  | zero => exact .outOfFuel
  | succ n ih =>
    unfold operands
    refine .choice .keep fun operator ho => .next h fun right => ?_
    refine .turn (hE.binary left right ⟨ho.word, hkinds ho.kind⟩) (ih _)

theorem keeps_leftAssociative (hkinds : kinds ⊆ binaryOperators)
    (h : A.Keeps A.empty operand E.expr) :
    A.Keeps A.empty (leftAssociative n kinds operand) E.expr := by
  unfold leftAssociative
  exact .bind h fun left => keeps_operands hE hkinds h left

theorem keeps_binary (h : A.Keeps A.empty operand E.expr) :
    A.Keeps A.empty (binary n operand) E.expr := by
  have hlevels : ∀ kinds ∈ operatorLevels, kinds ⊆ binaryOperators := fun kinds hkinds kind hkind =>
    List.mem_cons_of_mem _ (List.mem_flatten.2 ⟨kinds, hkinds, hkind⟩)
  unfold binary
  generalize operatorLevels = levels at hlevels
  induction levels with
  | nil => exact h
  | cons kinds levels ih =>
    obtain ⟨hfirst, hothers⟩ := List.forall_mem_cons.1 hlevels
    exact keeps_leftAssociative hE hfirst (ih hothers)

end Operators

section Productions

variable {expression : Reader Expr} {declarations : Reader (List Stmt)} {inLoop : Bool}

theorem keeps_series (h : A.Keeps A.empty expression E.expr) :
    A.Keeps A.empty (series n expression) E.expr := by
  refine keeps_leftAssociative hE (by decide) ?_
  unfold seriesOperand
  exact .choice h fun operator ho => .bind h fun right => .reported (hE.binaryError right ho)

theorem keeps_callTail (h : A.Keeps A.empty expression E.expr) (callee : Expr) :
    A.Keeps (E.expr callee) (callTail expression n callee) E.expr := by
  induction n generalizing callee with
  | zero => exact .outOfFuel
  | succ n ih =>
    unfold callTail
    refine .choice .keep fun opener _ => ?_
    by_cases ho : opener.kind = .leftParen
    · simp only [if_pos ho]
      refine .next (keeps_listedOrNone h) fun arguments => .expect fun paren hparen => ?_
      exact .turn (hE.call callee arguments hparen) (ih _)
    · simp only [if_neg ho]
      exact .expect fun name hname => .turn (hE.get callee hname) (ih _)

section Functions

variable (hd : A.Keeps A.empty declarations (A.all (E.declaration false)))
include hd

theorem keeps_lambda {role : FunctionRole} :
    A.Keeps A.empty (lambda n role declarations) E.function := by
  have hparam : A.Keeps A.empty (expect .identifier .parameterName) E.parameter := by
    rw [← bind_pure (m := Reader) (expect .identifier .parameterName)]
    refine .named (fun _ => hE.parameter) fun t _ => .pure ?_
    rw [A.empty_beside]
    exact .refl _
  unfold lambda
  refine .bind (keeps_listedOrNone hparam) fun params => .expect fun _ _ => .expect fun _ _ => ?_
  exact .next hd fun body => .expect fun _ _ => .pure (hE.body params body)

theorem keeps_function {role : FunctionRole} :
    A.Keeps A.empty (function n role declarations) E.decl := by
  unfold function
  refine .named (fun _ => hE.name) fun name _ => .expect fun _ _ => ?_
  rw [A.empty_beside]
  exact .next (keeps_lambda hE hd) fun f => .pure (.refl _)

theorem keeps_methods (inherits : Bool) : A.Keeps A.empty (methods declarations n) fun ms =>
    A.beside (A.all (E.method false inherits) ms.1) (A.all (E.method true inherits) ms.2) := by
  have hmethod (role : FunctionRole) (isStatic : Bool) (n : Nat) :
      A.Keeps A.empty (function n role declarations) (E.method isStatic inherits) := by
    refine (keeps_function hE hd).mono ?_
    rintro ⟨name, f⟩
    exact hE.method isStatic inherits name f
  induction n with
  | zero => exact .outOfFuel
  | succ n ih =>
    unfold methods
    apply Keeps.test
    intro b
    cases b with
    | true =>
      refine .pure ?_
      rw [all, all, A.empty_beside]
      exact .refl _
    | false =>
      refine .choice ?_ fun _ _ => ?_
      · refine .bind (hmethod .method false n) fun first => .next ih fun ms => .pure ?_
        rw [all, A.beside_assoc]
        exact .refl _
      · refine .bind (hmethod .staticMethod true n) fun first => .next ih fun ms => .pure ?_
        exact hE.statics inherits first ms.1 ms.2

theorem keeps_classDeclaration :
    A.Keeps A.empty (classDeclaration n declarations) (E.declaration inLoop) := by
  have hsuperclass : A.Keeps A.empty superclass (A.optional E.superclass) := by
    unfold superclass
    refine .choice (.pure (.refl _)) fun _ _ => ?_
    exact .expect fun name hname => .numbered (f := some) (hE.superclass hname)
  unfold classDeclaration
  refine .named (fun _ => hE.name) fun name _ => ?_
  rw [A.empty_beside]
  refine .next hsuperclass fun superclass => .expect fun _ _ => ?_
  refine .next (keeps_methods hE hd superclass.isSome) fun ms => .expect fun _ _ => .pure ?_
  exact hE.class inLoop name superclass ms.1 ms.2

end Functions

theorem keeps_varDeclaration (h : A.Keeps A.empty expression E.expr) :
    A.Keeps A.empty (varDeclaration expression) (E.declaration inLoop) := by
  unfold varDeclaration
  refine .named (fun _ => hE.name) fun name _ => ?_
  rw [A.empty_beside]
  have hclosed (initializer : Option Expr) :
      A.Keeps (A.beside (E.name name) (A.optional E.expr initializer))
        (do let _ ← expect .semicolon .semicolonAfterVariable
            pure (.var name initializer)) (E.declaration inLoop) :=
    .expect fun _ _ => .pure (hE.var inLoop name initializer)
  refine .choice ?_ fun _ _ => .next (keeps_optional h) hclosed
  have hnone := hclosed none
  rw [optional, A.beside_empty] at hnone
  exact hnone

theorem keeps_expressionStatement (h : A.Keeps A.empty expression E.expr) :
    A.Keeps A.empty (expressionStatement n expression) (E.stmt inLoop) := by
  unfold expressionStatement
  exact .bind (keeps_series hE h) fun e => .expect fun _ _ => .pure (hE.expression inLoop e)

theorem keeps_printStatement (h : A.Keeps A.empty expression E.expr) :
    A.Keeps A.empty (printStatement n expression) (E.stmt inLoop) := by
  unfold printStatement
  exact .bind (keeps_series hE h) fun e => .expect fun _ _ => .pure (hE.print inLoop e)

theorem keeps_returnStatement {keyword : Token} (h : A.Keeps A.empty expression E.expr) :
    A.Keeps A.empty (returnStatement keyword expression) (E.stmt inLoop) := by
  unfold returnStatement
  exact .bind (keeps_unlessSees h) fun value => .expect fun _ _ => .pure (hE.return inLoop keyword value)

/-- Outside of a loop the parser makes another statement of it. -/
theorem keeps_breakStatement (keyword : Token) (inLoop : Bool) :
    A.Keeps A.empty (breakStatement keyword inLoop) (E.stmt inLoop) := by
  unfold breakStatement
  refine .expect fun _ _ => ?_
  cases inLoop with
  | true => exact .pure (hE.break keyword)
  | false => exact .reported (hE.breakError keyword)

theorem keeps_continueStatement (keyword : Token) (inLoop : Bool) :
    A.Keeps A.empty (continueStatement keyword inLoop) (E.stmt inLoop) := by
  unfold continueStatement
  refine .expect fun _ _ => ?_
  cases inLoop with
  | true => exact .pure (hE.continue keyword)
  | false => exact .reported (hE.continueError keyword)

theorem keeps_forInitializer (h : A.Keeps A.empty expression E.expr) :
    A.Keeps A.empty (forInitializer n expression) (A.optional (E.declaration inLoop)) := by
  have hstatement : A.Keeps A.empty (expressionStatement n expression) (E.declaration inLoop) :=
    (keeps_expressionStatement hE h).mono (hE.statement inLoop)
  unfold forInitializer
  refine .choice (keeps_optional hstatement) fun t _ => ?_
  by_cases ht : t.kind = .semicolon
  · simp only [if_pos ht]
    exact .pure (.refl _)
  · simp only [if_neg ht]
    exact keeps_optional (keeps_varDeclaration hE h)

theorem keeps_forStatement {body : Reader Stmt} (h : A.Keeps A.empty expression E.expr)
    (hb : A.Keeps A.empty body (E.stmt true)) :
    A.Keeps A.empty (forStatement n expression body) (E.stmt inLoop) := by
  -- Without a condition, that of the loop is made up.
  have hcondition : A.Keeps A.empty (unlessSees .semicolon expression)
      fun condition => E.expr (condition.getD (.literal (.boolean true))) := by
    refine (keeps_unlessSees h).mono fun condition => ?_
    cases condition with
    | none => exact hE.boolean true
    | some e => exact .refl _
  have hfirst : A.Keeps A.empty (forInitializer n expression) (A.optional (E.declaration inLoop)) :=
    keeps_forInitializer hE h
  unfold forStatement
  refine .expect fun _ _ => .bind hfirst fun initializer => ?_
  refine .next hcondition fun condition => .expect fun _ _ => ?_
  refine .next (keeps_unlessSees h) fun increment => .expect fun _ _ => ?_
  refine .next (hb.mono hE.loopBody) fun body => .pure ?_
  cases initializer with
  | none =>
    rw [optional, A.empty_beside]
    exact hE.loop inLoop _ increment body
  | some first => exact hE.initialized inLoop first _ increment body

theorem keeps_whileStatement {body : Reader Stmt} (h : A.Keeps A.empty expression E.expr)
    (hb : A.Keeps A.empty body (E.stmt true)) :
    A.Keeps A.empty (whileStatement expression body) (E.stmt inLoop) := by
  unfold whileStatement
  refine .expect fun _ _ => .bind h fun condition => .expect fun _ _ => ?_
  refine .next (hb.mono hE.loopBody) fun body => .pure ?_
  have hloop := hE.loop inLoop condition none body
  rwa [optional, A.beside_empty] at hloop

theorem keeps_ifStatement {branch : Reader Stmt} (h : A.Keeps A.empty expression E.expr)
    (hb : A.Keeps A.empty branch (E.stmt inLoop)) :
    A.Keeps A.empty (ifStatement expression branch) (E.stmt inLoop) := by
  unfold ifStatement
  refine .expect fun _ _ => .bind h fun condition => .expect fun _ _ => ?_
  refine .next hb fun thenBranch => .choice (.pure ?_) fun _ _ => ?_
  · have hite := hE.ite inLoop condition thenBranch none
    rwa [optional, A.beside_empty] at hite
  · exact .next hb fun elseBranch => .pure (hE.ite inLoop condition thenBranch (some elseBranch))

theorem keeps_primaryFrom {t : Token} (ht : T t) (h : A.Keeps A.empty expression E.expr)
    (hd : A.Keeps A.empty declarations (A.all (E.declaration false))) :
    A.Keeps A.empty (primaryFrom n expression declarations t) E.expr := by
  have hliteral (hkind : t.kind ∈ [TokenKind.number, .string]) :
      A.Keeps A.empty (pure (.literal (t.literal.getD .nil))) E.expr := by
    cases hvalue : t.literal with
    | none => exact .pure hE.nil
    | some value => exact .pure (hE.literal ⟨ht, hkind⟩ hvalue)
  unfold primaryFrom
  split
  · exact .pure (hE.boolean _)
  · exact .pure (hE.boolean _)
  next hkind => exact hliteral (by simp [hkind])
  next hkind => exact hliteral (by simp [hkind])
  next hkind =>
    unfold superExpression
    refine .expect fun _ _ => .expect fun method hmethod => ?_
    have hsuper := hE.super ⟨ht, by simp [hkind]⟩ hmethod
    exact Keeps.numbered (f := fun ref => Expr.super ref method) hsuper
  next hkind => exact Keeps.numbered (f := Expr.this) (hE.this ⟨ht, by simp [hkind]⟩)
  next hkind => exact Keeps.numbered (f := Expr.variable) (hE.variable ⟨ht, by simp [hkind]⟩)
  · unfold anonymousFunction
    exact .expect fun _ _ => .bind (keeps_lambda hE hd) fun f => .pure (hE.lambda f)
  · unfold groupingExpression
    exact .bind h fun e => .expect fun _ _ => .pure (hE.grouping e)
  · exact .pure hE.nil

theorem keeps_assignment {equals : Token} (target value : Expr) :
    A.Keeps (A.beside (E.expr target) (E.expr value)) (assignment target equals value) E.expr := by
  unfold assignment
  split
  next ref => exact Keeps.numbered (f := fun ref => Expr.assign ref value) (hE.assign ref value)
  next object name => exact .pure (hE.set object name value)
  next => exact .report (.pure fun _ _ => A.left)

end Productions

omit hE

/-- What holds of the readers that call one another. -/
structure Keeping (E : Entries A) (n : Nat) : Prop where
  expression : A.Keeps A.empty (expression n) E.expr
  conditional : A.Keeps A.empty (conditional n) E.expr
  unary : A.Keeps A.empty (unary n) E.expr
  declarations : ∀ inLoop closers,
    A.Keeps A.empty (declarations n inLoop closers) (A.all (E.declaration inLoop))
  declaration : ∀ inLoop, A.Keeps A.empty (declaration n inLoop) (E.declaration inLoop)
  statement : ∀ inLoop, A.Keeps A.empty (statement n inLoop) (E.stmt inLoop)

namespace Keeping

variable (h : Keeping E n)
include h

theorem declarations_succ (inLoop : Bool) (closers : List TokenKind) :
    A.Keeps A.empty (Reader.declarations (n + 1) inLoop closers) (A.all (E.declaration inLoop)) := by
  unfold Reader.declarations
  apply Keeps.test
  intro b
  cases b with
  | true => exact .pure (.refl _)
  | false =>
    apply Keeps.bind (.recovering (h.declaration inLoop))
    intro first
    refine .next (h.declarations inLoop closers) fun others => .pure ?_
    cases first with
    | none =>
      rw [optional, A.empty_beside]
      exact .refl _
    | some first => exact .refl _

include hE

theorem expression_succ : A.Keeps A.empty (Reader.expression (n + 1)) E.expr := by
  unfold Reader.expression
  refine .bind h.conditional fun target => .choice .keep fun equals _ => ?_
  exact .next h.expression fun value => keeps_assignment hE target value

theorem conditional_succ : A.Keeps A.empty (Reader.conditional (n + 1)) E.expr := by
  unfold Reader.conditional
  refine .bind (keeps_binary hE h.unary) fun condition => .choice .keep fun question _ => ?_
  refine .next h.conditional fun thenBranch => .expect fun _ _ => ?_
  exact .next h.conditional fun elseBranch => .pure (hE.conditional condition thenBranch elseBranch)

theorem unary_succ : A.Keeps A.empty (Reader.unary (n + 1)) E.expr := by
  unfold Reader.unary
  refine .choice ?_ fun operator ho => .bind h.unary fun right => .pure (hE.unary right ho)
  refine .choice .missing fun t ht => ?_
  apply Keeps.bind (keeps_primaryFrom hE ht.word h.expression (h.declarations false _))
  intro callee
  exact keeps_callTail hE h.expression callee

/-- The body of a function begins outside of every loop. -/
theorem declaration_succ (inLoop : Bool) :
    A.Keeps A.empty (Reader.declaration (n + 1) inLoop) (E.declaration inLoop) := by
  unfold Reader.declaration
  apply Keeps.seesNamedFunction
  intro b
  cases b with
  | true =>
    have hnamed : A.Keeps A.empty
        (do return .function (← function n .function (Reader.declarations n false [.rightBrace])))
        (E.declaration inLoop) := by
      refine .bind (keeps_function hE (h.declarations false _)) ?_
      rintro ⟨name, f⟩
      exact .pure (hE.named inLoop name f)
    exact .choice hnamed fun _ _ => hnamed
  | false =>
    refine .choice ((h.statement inLoop).mono (hE.statement inLoop)) fun t _ => ?_
    by_cases ht : t.kind = .class
    · simp only [if_pos ht]
      exact keeps_classDeclaration hE (h.declarations false _)
    · simp only [if_neg ht]
      exact keeps_varDeclaration hE h.expression

theorem statement_succ (inLoop : Bool) :
    A.Keeps A.empty (Reader.statement (n + 1) inLoop) (E.stmt inLoop) := by
  unfold Reader.statement
  refine .choice (keeps_expressionStatement hE h.expression) fun t _ => ?_
  simp only
  split
  · exact keeps_forStatement hE h.expression (h.statement true)
  · exact keeps_ifStatement hE h.expression (h.statement inLoop)
  · exact keeps_whileStatement hE h.expression (h.statement true)
  · exact keeps_returnStatement hE h.expression
  · exact keeps_breakStatement hE t inLoop
  · exact keeps_continueStatement hE t inLoop
  · exact .bind (h.declarations inLoop _) fun body => .expect fun _ _ => .pure (hE.block inLoop body)
  · exact keeps_printStatement hE h.expression

end Keeping

include hE

theorem keeping (n : Nat) : Keeping E n := by
  induction n with
  | zero =>
    exact ⟨.outOfFuel, .outOfFuel, .outOfFuel, fun _ _ => .outOfFuel, fun _ => .outOfFuel,
      fun _ => .outOfFuel⟩
  | succ n ih =>
    exact ⟨ih.expression_succ hE, ih.conditional_succ hE, ih.unary_succ hE, ih.declarations_succ,
      ih.declaration_succ hE, ih.statement_succ hE⟩

theorem keeps_entry (n : Nat) : A.Keeps A.empty (entry n) E.entered := by
  unfold entry
  apply Keeps.test
  intro t
  apply Keeps.seesNamedFunction
  intro b
  split
  · exact .bind ((keeping hE n).declaration false) fun s => .pure (.refl _)
  · refine .bind (keeps_series hE (keeping hE n).expression) fun e => .choice ?_ fun _ _ => ?_
    · apply Keeps.test
      intro b
      cases b with
      | true => exact .pure (.refl _)
      | false => exact .missing
    · exact .pure ((hE.expression false e).trans (hE.statement false _))

theorem keeps_program (n : Nat) (allowExpression : Bool) :
    A.Keeps A.empty (program n allowExpression) E.program := by
  have hbody : A.Keeps A.empty (do return Program.statements (← declarations n false [])) E.program :=
    .bind ((keeping hE n).declarations false []) fun body => .pure (hE.statements body)
  unfold program
  cases allowExpression with
  | false => exact hbody
  | true =>
    apply Keeps.test
    intro b
    cases b with
    | true => exact hbody
    | false =>
      apply Keeps.bind (.recovering (keeps_entry hE n))
      intro first
      match first with
      | none => exact hbody
      | some (.inr e) => exact .pure (hE.single e)
      | some (.inl s) =>
        exact .next ((keeping hE n).declarations false []) fun body => .pure (hE.statements (s :: body))

/-- From the beginning of a text on, the account holds of what the parser makes of it. -/
theorem parse_keeps (tokens : List Token) (allowExpression : Bool) (nextId : NodeId) :
    let start := Cursor.ofTokens tokens nextId
    let read := parse tokens allowExpression nextId
    A.Holds (A.origin start) start A.empty →
      ∃ d, read = ⟨read.program, d.log.reverse, d.nextId⟩ ∧
        A.Holds (A.origin start) d (E.program read.program) := by
  intro start read hstart
  let n := fuelPerToken * (start.rest.length + 1)
  have hfuel : 16 * start.rest.length + 6 ≤ n := by
    simp only [n, fuelPerToken]
    omega
  obtain ⟨p, d, hp⟩ := @program_ok _ _ allowExpression hfuel
  have hread : read = ⟨p, d.log.reverse, d.nextId⟩ := parse_of_ok hp
  have hkeeps := keeps_program hE n allowExpression _ start hstart
  rw [hp] at hkeeps
  rw [hread]
  exact ⟨d, rfl, hkeeps⟩

end Account

end Lox
