import Lox.Proofs.Syntax.Embedding

/-!
Every reader of the grammar does on a text alone what it does inside a longer one, given at least as
much fuel there. Expressions and lists of declarations may end because the text ends; statements and
declarations end with a word of their own, unless an `else` may follow.
-/

namespace Lox.Reader

open Setting

variable {α α' : Type} {s : Setting} {n m : Nat}

section Lists

variable {φ : α → α'} {item : Reader α} {item' : Reader α'} {tooMany : SyntaxFault}

theorem follows_listed (h : Follows s false 0 φ item item') (hnm : n ≤ m) (count : Nat) :
    Follows s false 0 (List.map φ) (listed tooMany item n count) (listed tooMany item' m count) := by
  induction n generalizing m count with
  | zero => exact .outOfFuel
  | succ n ih =>
    obtain ⟨m, rfl⟩ : ∃ k, m = k + 1 := ⟨m - 1, by omega⟩
    have tail : Follows s false 0 (List.map φ)
        (itemAndOthers item (listed tooMany item n (count + 1)))
        (itemAndOthers item' (listed tooMany item' m (count + 1))) := by
      refine .loose h fun first => .choice (.pure rfl) fun comma _ => ?_
      exact .loose (ih (by omega) (count + 1)) fun others => .pure rfl
    by_cases hcount : maxListed ≤ count
    · rw [listed_full hcount, listed_full hcount]
      exact .loose .reportHere fun _ => tail
    · rw [listed_more hcount, listed_more hcount]
      exact tail

theorem follows_listedOrNone (h : Follows s false 0 φ item item') (hnm : n ≤ m) :
    Follows s false 0 (List.map φ) (listedOrNone n tooMany item) (listedOrNone m tooMany item') := by
  unfold listedOrNone
  apply Follows.sees
  intro b
  cases b with
  | true => exact .pure rfl
  | false => exact follows_listed h hnm 0

end Lists

section Operators

variable {firm : Bool} {operand operand' : Reader Expr} {kinds : List TokenKind} (hq : s.Quiet firm)
include hq

theorem follows_operands (hkinds : .semicolon ∉ kinds) (h : Follows s firm 0 s.expr operand operand')
    (hnm : n ≤ m) (left : Expr) :
    Follows s firm 0 s.expr (operands kinds operand n left)
      (operands kinds operand' m (s.expr left)) := by
  induction n generalizing m left with
  | zero => exact .outOfFuel
  | succ n ih =>
    obtain ⟨m, rfl⟩ : ∃ k, m = k + 1 := ⟨m - 1, by omega⟩
    unfold operands
    refine .goOn hq hkinds (.pure rfl) fun operator _ => .even h fun right => ?_
    exact ih (by omega) (.binary left operator right)

theorem follows_leftAssociative (hkinds : .semicolon ∉ kinds)
    (h : Follows s firm 0 s.expr operand operand') (hnm : n ≤ m) :
    Follows s firm 0 s.expr (leftAssociative n kinds operand) (leftAssociative m kinds operand') :=
  .even h fun left => follows_operands hq hkinds h hnm left

theorem follows_binary (h : Follows s firm 0 s.expr operand operand') (hnm : n ≤ m) :
    Follows s firm 0 s.expr (binary n operand) (binary m operand') := by
  have hlevels : ∀ kinds ∈ operatorLevels, .semicolon ∉ kinds := by decide
  unfold binary
  generalize operatorLevels = levels at hlevels
  induction levels with
  | nil => exact h
  | cons kinds levels ih =>
    obtain ⟨hkinds, hlevels⟩ := List.forall_mem_cons.1 hlevels
    exact follows_leftAssociative hq hkinds (ih hlevels) hnm

end Operators

section Productions

variable {firm : Bool} {expression expression' : Reader Expr}
  {declarations declarations' : Reader (List Stmt)}

theorem follows_series (hq : s.Quiet firm) (h : Follows s firm 0 s.expr expression expression')
    (hnm : n ≤ m) : Follows s firm 0 s.expr (series n expression) (series m expression') := by
  refine follows_leftAssociative hq (by decide) ?_ hnm
  refine .goOn hq (by decide) h fun operator _ => .even h fun right => ?_
  exact .even .report fun _ => .pure rfl

/-- Arguments have the closing parenthesis after them. -/
theorem follows_callTail (hq : s.Quiet firm) (h : Follows s false 0 s.expr expression expression')
    (hnm : n ≤ m) (callee : Expr) :
    Follows s firm 0 s.expr (callTail expression n callee)
      (callTail expression' m (s.expr callee)) := by
  induction n generalizing m callee with
  | zero => exact .outOfFuel
  | succ n ih =>
    obtain ⟨m, rfl⟩ : ∃ k, m = k + 1 := ⟨m - 1, by omega⟩
    have hnm : n ≤ m := by omega
    unfold callTail
    refine .goOn hq (by decide) (.pure rfl) fun opener _ => Follows.weaken (k := 1) ?_ (Nat.zero_le 1)
    by_cases ho : opener.kind = .leftParen
    · have ho' : (s.token opener).kind = .leftParen := ho
      simp only [if_pos ho, if_pos ho']
      refine .closing (follows_listedOrNone h hnm) fun arguments => .even .expect fun paren => ?_
      have hcall : s.expr (.call callee paren arguments) =
          .call (s.expr callee) (s.token paren) (arguments.map s.expr) :=
        congrArg (Expr.call _ _) (Expr.relabelAll_eq_map _ _ arguments)
      rw [← hcall]
      exact ih hnm (.call callee paren arguments)
    · have ho' : ¬ (s.token opener).kind = .leftParen := ho
      simp only [if_neg ho, if_neg ho']
      exact .even .expect fun name => ih hnm (.get callee name)

theorem follows_lambda {role : FunctionRole}
    (h : Follows s false 0 (List.map s.stmt) declarations declarations') (hnm : n ≤ m) :
    Follows s firm 1 s.lambda (lambda n role declarations) (lambda m role declarations') := by
  unfold lambda
  have hparameter : Follows s false 0 s.token (expect .identifier .parameterName)
      (expect .identifier .parameterName) := Follows.expect.weaken (Nat.zero_le 1)
  refine .closing (follows_listedOrNone hparameter hnm) fun params => ?_
  refine .closing (b := true) .expect fun _ => .closing (b := true) .expect fun _ => ?_
  refine .closing h fun body => .tight .expect fun _ => .pure ?_
  exact congrArg (Lambda.mk _) (Stmt.relabelAll_eq_map _ _ body)

theorem follows_function {role : FunctionRole}
    (h : Follows s false 0 (List.map s.stmt) declarations declarations') (hnm : n ≤ m) :
    Follows s firm 1 s.decl (function n role declarations) (function m role declarations') := by
  unfold function
  refine .closing (b := true) .expect fun name => .closing (b := true) .expect fun _ => ?_
  exact .tight (follows_lambda h hnm) fun f => .pure rfl

/-- The methods of instances and those of the class. -/
abbrev methodLists (s : Setting) :
    List FunctionDecl × List FunctionDecl → List FunctionDecl × List FunctionDecl :=
  Prod.map (List.map s.decl) (List.map s.decl)

theorem follows_methods (h : Follows s false 0 (List.map s.stmt) declarations declarations')
    (hnm : n ≤ m) :
    Follows s false 0 (methodLists s) (methods declarations n) (methods declarations' m) := by
  induction n generalizing m with
  | zero => exact .outOfFuel
  | succ n ih =>
    obtain ⟨m, rfl⟩ : ∃ k, m = k + 1 := ⟨m - 1, by omega⟩
    have hnm : n ≤ m := by omega
    unfold methods
    apply Follows.ended
    intro b
    cases b with
    | true => exact .pure rfl
    | false =>
      refine .choice ?_ fun keyword _ => ?_
      · refine .loose (b := true) (follows_function h hnm) fun first => ?_
        exact .loose (ih hnm) fun ms => .pure rfl
      · refine .loose (b := true) (follows_function h hnm) fun first => ?_
        exact .loose (ih hnm) fun ms => .pure rfl

theorem follows_superclass :
    Follows s false 0 (Option.map s.reference) superclass superclass := by
  refine .choice (.pure rfl) fun less _ => .loose (b := true) .expect fun name => ?_
  exact .loose (b := true) .reference fun ref => .pure rfl

theorem follows_classDeclaration
    (h : Follows s false 0 (List.map s.stmt) declarations declarations') (hnm : n ≤ m) :
    Follows s firm 1 s.stmt (classDeclaration n declarations) (classDeclaration m declarations') := by
  unfold classDeclaration
  refine .closing (b := true) .expect fun name => .closing follows_superclass fun superclass => ?_
  refine .closing (b := true) .expect fun _ => .closing (follows_methods h hnm) fun ms => ?_
  refine .tight .expect fun _ => .pure ?_
  simp only [Setting.stmt, Stmt.relabel, FunctionDecl.relabelAll_eq_map]
  rfl

/-- An initializer, a value that is returned, or a part of the head of a loop. -/
abbrev optionalExpr (s : Setting) : Option Expr → Option Expr := Expr.relabel? s.token s.number

theorem follows_optional (h : Follows s false 0 s.expr expression expression') :
    Follows s false 0 (optionalExpr s) (some <$> expression) (some <$> expression') :=
  .map h fun _ => rfl

theorem follows_varDeclaration
    (h : Follows s false 0 s.expr expression expression') :
    Follows s firm 1 s.stmt (varDeclaration expression) (varDeclaration expression') := by
  unfold varDeclaration
  refine .closing (b := true) .expect fun name => .accept ?_ (fun equals _ => ?_) (by simp)
  · have hnone : Follows s true 0 (optionalExpr s) (pure none) (pure none) := .pure rfl
    exact .closing hnone fun initializer => .tight .expect fun _ => .pure rfl
  · refine Follows.weaken (k := 1) ?_ (Nat.zero_le 1)
    exact .closing (follows_optional h) fun initializer => .tight .expect fun _ => .pure rfl

theorem follows_unlessSees {closer : TokenKind}
    (h : Follows s false 0 s.expr expression expression') :
    Follows s false 0 (optionalExpr s) (unlessSees closer expression)
      (unlessSees closer expression') := by
  unfold unlessSees
  apply Follows.sees
  intro b
  cases b with
  | true => exact .pure rfl
  | false => exact follows_optional h

theorem follows_expressionStatement
    (h : Follows s false 0 s.expr expression expression') (hnm : n ≤ m) :
    Follows s firm 1 s.stmt (expressionStatement n expression)
      (expressionStatement m expression') :=
  .closing (follows_series s.quiet_false h hnm) fun _ => .tight .expect fun _ => .pure rfl

theorem follows_printStatement
    (h : Follows s false 0 s.expr expression expression') (hnm : n ≤ m) :
    Follows s firm 1 s.stmt (printStatement n expression) (printStatement m expression') :=
  .closing (follows_series s.quiet_false h hnm) fun _ => .tight .expect fun _ => .pure rfl

theorem follows_returnStatement {keyword : Token}
    (h : Follows s false 0 s.expr expression expression') :
    Follows s firm 1 s.stmt (returnStatement keyword expression)
      (returnStatement (s.token keyword) expression') :=
  .closing (follows_unlessSees h) fun _ => .tight .expect fun _ => .pure rfl

theorem follows_breakStatement {keyword : Token} {inLoop : Bool} :
    Follows s firm 1 s.stmt (breakStatement keyword inLoop)
      (breakStatement (s.token keyword) inLoop) := by
  refine .tight .expect fun _ => ?_
  cases inLoop with
  | true => exact .pure rfl
  | false => exact .tight .report fun _ => .pure rfl

theorem follows_continueStatement {keyword : Token} {inLoop : Bool} :
    Follows s firm 1 s.stmt (continueStatement keyword inLoop)
      (continueStatement (s.token keyword) inLoop) := by
  refine .tight .expect fun _ => ?_
  cases inLoop with
  | true => exact .pure rfl
  | false => exact .tight .report fun _ => .pure rfl

/-- The first part of the head of a loop. -/
abbrev optionalStmt (s : Setting) : Option Stmt → Option Stmt := Stmt.relabel? s.token s.number

theorem follows_forInitializer (h : Follows s false 0 s.expr expression expression')
    (hnm : n ≤ m) :
    Follows s false 0 (optionalStmt s) (forInitializer n expression)
      (forInitializer m expression') := by
  unfold forInitializer
  refine .choice ?_ fun t _ => ?_
  · exact .map ((follows_expressionStatement h hnm).weaken (Nat.zero_le 1)) fun _ => rfl
  · by_cases ht : t.kind = .semicolon
    · have ht' : (s.token t).kind = .semicolon := ht
      simp only [if_pos ht, if_pos ht']
      exact .pure rfl
    · have ht' : ¬ (s.token t).kind = .semicolon := ht
      simp only [if_neg ht, if_neg ht']
      exact .map ((follows_varDeclaration h).weaken (Nat.zero_le 1)) fun _ => rfl

theorem follows_forStatement {body body' : Reader Stmt}
    (h : Follows s false 0 s.expr expression expression') (hb : Follows s true 1 s.stmt body body')
    (hnm : n ≤ m) :
    Follows s true 1 s.stmt (forStatement n expression body) (forStatement m expression' body') := by
  unfold forStatement
  refine .closing (b := true) .expect fun _ => .closing (follows_forInitializer h hnm) fun first => ?_
  refine .closing (follows_unlessSees h) fun condition => .closing (b := true) .expect fun _ => ?_
  refine .closing (follows_unlessSees h) fun increment => .closing (b := true) .expect fun _ => ?_
  refine .tight hb fun body => .pure ?_
  have hcondition : s.expr (condition.getD (.literal (.boolean true))) =
      (optionalExpr s condition).getD (.literal (.boolean true)) := by
    cases condition <;> rfl
  rw [← hcondition]
  cases first <;> rfl

theorem follows_whileStatement {body body' : Reader Stmt}
    (h : Follows s false 0 s.expr expression expression')
    (hb : Follows s true 1 s.stmt body body') :
    Follows s true 1 s.stmt (whileStatement expression body) (whileStatement expression' body') := by
  unfold whileStatement
  refine .closing (b := true) .expect fun _ => .closing h fun condition => ?_
  exact .closing (b := true) .expect fun _ => .tight hb fun body => .pure rfl

/-- An `if` without `else` is the statement that looks at the next word. -/
theorem follows_ifStatement {branch branch' : Reader Stmt}
    (h : Follows s false 0 s.expr expression expression')
    (hb : Follows s true 1 s.stmt branch branch') :
    Follows s true 1 s.stmt (ifStatement expression branch) (ifStatement expression' branch') := by
  unfold ifStatement
  refine .closing (b := true) .expect fun _ => .closing h fun condition => ?_
  refine .closing (b := true) .expect fun _ => .tight hb fun thenBranch => ?_
  refine .accept (.pure rfl) (fun middle _ => ?_) (by simp)
  have hboth : Follows s true 1 s.stmt (do return .ite condition thenBranch (some (← branch)))
      (do return .ite (s.expr condition) (s.stmt thenBranch) (some (← branch'))) :=
    .tight hb fun elseBranch => .pure rfl
  exact hboth.weaken (Nat.zero_le 1)

theorem follows_primaryFrom {t : Token} (h : Follows s false 0 s.expr expression expression')
    (hd : Follows s false 0 (List.map s.stmt) declarations declarations') (hnm : n ≤ m) :
    Follows s firm 0 s.expr (primaryFrom n expression declarations t)
      (primaryFrom m expression' declarations' (s.token t)) := by
  unfold primaryFrom
  simp only [token_kind, token_literal]
  split
  · exact .pure rfl
  · exact .pure rfl
  · exact .pure rfl
  · exact .pure rfl
  · refine Follows.weaken (k := 1) (.even .expect fun _ => ?_) (Nat.zero_le 1)
    refine Follows.weaken (k := 1) (.even .expect fun method => ?_) (Nat.zero_le 1)
    exact .even .reference fun ref => .pure rfl
  · exact .map .reference fun ref => rfl
  · exact .map .reference fun ref => rfl
  · refine Follows.weaken (k := 1) (.closing (b := true) .expect fun _ => ?_) (Nat.zero_le 1)
    exact .even (follows_lambda hd hnm) fun f => .pure rfl
  · refine Follows.weaken (k := 1) (.closing h fun inner => ?_) (Nat.zero_le 1)
    exact .even .expect fun _ => .pure rfl
  · exact .pure rfl

theorem follows_assignment {equals : Token} (target value : Expr) :
    Follows s firm 0 s.expr (assignment target equals value)
      (assignment (s.expr target) (s.token equals) (s.expr value)) := by
  cases target with
  | «variable» ref => exact .even .reference fun ref' => .pure rfl
  | get object name => exact .pure rfl
  | _ => exact .even .report fun _ => .pure rfl

end Productions

/-- What holds of the readers that call one another. -/
structure Followed (s : Setting) (n m : Nat) : Prop where
  firmExpression : ∀ {firm}, s.Quiet firm → Follows s firm 0 s.expr (expression n) (expression m)
  conditional : ∀ {firm}, s.Quiet firm → Follows s firm 0 s.expr (conditional n) (conditional m)
  unary : ∀ {firm}, s.Quiet firm → Follows s firm 0 s.expr (unary n) (unary m)
  declarations : ∀ inLoop closers, Follows s false 0 (List.map s.stmt)
    (declarations n inLoop closers) (declarations m inLoop closers)
  declaration : ∀ inLoop, Follows s true 1 s.stmt (declaration n inLoop) (declaration m inLoop)
  statement : ∀ inLoop, Follows s true 1 s.stmt (statement n inLoop) (statement m inLoop)

namespace Followed

theorem expression (h : Followed s n m) :
    Follows s false 0 s.expr (Reader.expression n) (Reader.expression m) :=
  h.firmExpression s.quiet_false

section Quiet

variable {firm : Bool} (h : Followed s n m) (hq : s.Quiet firm)
include h hq

theorem expression_succ :
    Follows s firm 0 s.expr (Reader.expression (n + 1)) (Reader.expression (m + 1)) := by
  unfold Reader.expression
  refine .even (h.conditional hq) fun target => .goOn hq (by decide) (.pure rfl) fun equals _ => ?_
  exact .even (h.firmExpression hq) fun value => follows_assignment target value

theorem conditional_succ (hnm : n ≤ m) :
    Follows s firm 0 s.expr (Reader.conditional (n + 1)) (Reader.conditional (m + 1)) := by
  unfold Reader.conditional
  refine .even (follows_binary hq (h.unary hq) hnm) fun condition => ?_
  refine .goOn hq (by decide) (.pure rfl) fun question _ => ?_
  refine .even (h.conditional hq) fun thenBranch => ?_
  refine Follows.weaken (k := 1) (.even .expect fun _ => ?_) (Nat.zero_le 1)
  exact .even (h.conditional hq) fun elseBranch => .pure rfl

theorem unary_succ (hnm : n ≤ m) :
    Follows s firm 0 s.expr (Reader.unary (n + 1)) (Reader.unary (m + 1)) := by
  unfold Reader.unary
  refine .goOn hq (by decide) (.goOn hq (by decide) .missing fun t _ => ?_) fun operator _ => ?_
  · refine .even (follows_primaryFrom h.expression (h.declarations false _) hnm) fun callee => ?_
    exact follows_callTail hq h.expression hnm callee
  · exact .even (h.unary hq) fun right => .pure rfl

end Quiet

theorem declarations_succ (h : Followed s n m) (inLoop : Bool) (closers : List TokenKind) :
    Follows s false 0 (List.map s.stmt) (Reader.declarations (n + 1) inLoop closers)
      (Reader.declarations (m + 1) inLoop closers) := by
  unfold Reader.declarations
  apply Follows.ended
  intro b
  cases b with
  | true => exact .pure rfl
  | false =>
    refine .loose (h.declaration inLoop).recovering fun first => ?_
    refine .loose (h.declarations inLoop closers) fun others => .pure ?_
    cases first <;> simp

theorem declaration_succ (h : Followed s n m) (hnm : n ≤ m) (inLoop : Bool) :
    Follows s true 1 s.stmt (Reader.declaration (n + 1) inLoop)
      (Reader.declaration (m + 1) inLoop) := by
  unfold Reader.declaration
  apply Follows.seesNamedFunction (fun _ => Nat.le_refl 1)
  intro b
  cases b with
  | true =>
    have hfun : Follows s true 1 s.stmt
        (do return .function (← function n .function (Reader.declarations n false [.rightBrace])))
        (do return .function (← function m .function (Reader.declarations m false [.rightBrace]))) :=
      .tight (follows_function (h.declarations false _) hnm) fun decl => .pure rfl
    exact .accept hfun (fun _ _ => hfun.weaken (Nat.zero_le 1)) (by simp)
  | false =>
    refine .accept (h.statement inLoop) (fun t _ => ?_) (by simp)
    by_cases ht : t.kind = .class
    · have ht' : (s.token t).kind = .class := ht
      simp only [if_pos ht, if_pos ht']
      exact (follows_classDeclaration (h.declarations false _) hnm).weaken (Nat.zero_le 1)
    · have ht' : ¬ (s.token t).kind = .class := ht
      simp only [if_neg ht, if_neg ht']
      exact (follows_varDeclaration h.expression).weaken (Nat.zero_le 1)

theorem statement_succ (h : Followed s n m) (hnm : n ≤ m) (inLoop : Bool) :
    Follows s true 1 s.stmt (Reader.statement (n + 1) inLoop) (Reader.statement (m + 1) inLoop) := by
  unfold Reader.statement
  refine .accept (follows_expressionStatement h.expression hnm) (fun t _ => ?_) (by simp)
  simp only [token_kind]
  refine Follows.weaken (k := 1) ?_ (Nat.zero_le 1)
  split
  · exact follows_forStatement h.expression (h.statement true) hnm
  · exact follows_ifStatement h.expression (h.statement inLoop)
  · exact follows_whileStatement h.expression (h.statement true)
  · exact follows_returnStatement h.expression
  · exact follows_breakStatement
  · exact follows_continueStatement
  · refine .closing (h.declarations inLoop _) fun body => .tight .expect fun _ => .pure ?_
    exact congrArg Stmt.block (Stmt.relabelAll_eq_map _ _ body)
  · exact follows_printStatement h.expression hnm

end Followed

/-- Every reader does inside a longer text what it does on the text alone, by induction on the fuel. -/
theorem followed (hnm : n ≤ m) : Followed s n m := by
  induction n generalizing m with
  | zero =>
    exact ⟨fun _ => .outOfFuel, fun _ => .outOfFuel, fun _ => .outOfFuel, fun _ _ => .outOfFuel,
      fun _ => .outOfFuel, fun _ => .outOfFuel⟩
  | succ n ih =>
    obtain ⟨m, rfl⟩ : ∃ k, m = k + 1 := ⟨m - 1, by omega⟩
    have hnm : n ≤ m := by omega
    have h : Followed s n m := ih hnm
    exact ⟨h.expression_succ, fun hq => h.conditional_succ hq hnm, fun hq => h.unary_succ hq hnm,
      h.declarations_succ, h.declaration_succ hnm, h.statement_succ hnm⟩

end Lox.Reader
