import Lox.Proofs.Scope.Occurrences
import Lox.Proofs.Syntax.Phrase

/-!
What every tree of a text keeps to: no name is spelled `this` or `super`, and no branch or loop body
is a declaration.
-/

namespace Lox

def Token.IsName (t : Token) : Prop := t.lexeme ≠ "this" ∧ t.lexeme ≠ "super"

/-- The lexeme is one that a token of the kind has. -/
structure Token.Spelled (t : Token) : Prop where
  name : t.kind = .identifier → t.IsName
  this : t.kind = .this → t.lexeme = "this"
  super : t.kind = .super → t.lexeme = "super"

mutual

def Expr.Proper : Expr → Prop
  | .literal _ => True
  | .grouping inner => inner.Proper
  | .unary _ right => right.Proper
  | .binary left _ right => left.Proper ∧ right.Proper
  | .binaryError _ right => right.Proper
  | .conditional condition thenBranch elseBranch =>
    condition.Proper ∧ thenBranch.Proper ∧ elseBranch.Proper
  | .variable ref => ref.name.IsName
  | .assign target value => target.name.IsName ∧ value.Proper
  | .call callee _ arguments => callee.Proper ∧ Expr.ProperAll arguments
  | .get object _ => object.Proper
  | .set object _ value => object.Proper ∧ value.Proper
  | .this ref => ref.name.lexeme = "this"
  | .super ref _ => ref.name.lexeme = "super"
  | .lambda function => function.Proper

def Expr.ProperAll : List Expr → Prop
  | [] => True
  | e :: rest => e.Proper ∧ Expr.ProperAll rest

def Expr.Proper? : Option Expr → Prop
  | none => True
  | some e => e.Proper

def Stmt.Proper : Stmt → Prop
  | .expression e => e.Proper
  | .print e => e.Proper
  | .var name initializer => name.IsName ∧ Expr.Proper? initializer
  | .block body => Stmt.ProperAll body
  | .ite condition thenBranch elseBranch =>
    condition.Proper ∧ (thenBranch.declared? = none ∧ thenBranch.Proper) ∧ Stmt.Proper? elseBranch
  | .loop condition body increment =>
    condition.Proper ∧ (body.declared? = none ∧ body.Proper) ∧ Expr.Proper? increment
  | .break _ => True
  | .continue _ => True
  | .breakError _ => True
  | .continueError _ => True
  | .function (.mk name function) => name.IsName ∧ function.Proper
  | .return _ value => Expr.Proper? value
  | .class name superclass own statics =>
    name.IsName ∧ (∀ ref ∈ superclass, ref.name.IsName) ∧ FunctionDecl.ProperAll own ∧
      FunctionDecl.ProperAll statics

def Stmt.Proper? : Option Stmt → Prop
  | none => True
  | some s => s.declared? = none ∧ s.Proper

def Stmt.ProperAll : List Stmt → Prop
  | [] => True
  | s :: rest => s.Proper ∧ Stmt.ProperAll rest

def FunctionDecl.ProperAll : List FunctionDecl → Prop
  | [] => True
  | .mk _ function :: rest => function.Proper ∧ FunctionDecl.ProperAll rest

def Lambda.Proper : Lambda → Prop
  | .mk params body => (∀ p ∈ params, p.IsName) ∧ Stmt.ProperAll body

end

def Program.Proper : Program → Prop
  | .statements body => Stmt.ProperAll body
  | .expression e => e.Proper

namespace Phrase

variable {ts : List Token}

theorem Names.proper {names : List Token} (h : Names ts names) (hts : ∀ t ∈ ts, t.Spelled) :
    ∀ p ∈ names, p.IsName := by
  induction h with
  | last ht =>
    intro p hp
    obtain rfl := List.mem_singleton.1 hp
    exact (hts p hp).name ht
  | more ht hc hs ih =>
    simp only [List.forall_mem_cons] at hts ⊢
    exact ⟨hts.1.name ht, ih hts.2.2⟩

theorem Parameters.proper {names : List Token} (h : Parameters ts names)
    (hts : ∀ t ∈ ts, t.Spelled) : ∀ p ∈ names, p.IsName := by
  cases h with
  | none => exact nofun
  | some hs hn => exact hs.proper hts

theorem Superclass.proper {superclass : Option Reference} (h : Superclass ts superclass)
    (hts : ∀ t ∈ ts, t.Spelled) : ∀ ref ∈ superclass, ref.name.IsName := by
  cases h with
  | none => exact nofun
  | some hl hr =>
    intro ref href
    obtain rfl := Option.some.inj href
    exact (hts _ (by simp)).name hr

theorem statement_declared : ∀ {inLoop dangles : Bool} {ts : List Token} {s : Stmt},
    Statement inLoop dangles ts s → s.declared? = none := by
  intro inLoop dangles ts s h
  cases h with
  | @«for» _ _ _ _ _ initializer => cases initializer <;> rfl
  | _ => rfl

theorem forLoop_proper {initializer : Option Stmt} {condition increment : Option Expr}
    {body : Stmt} (hi : ∀ s ∈ initializer, s.Proper) (hc : Expr.Proper? condition)
    (hn : Expr.Proper? increment) (hd : body.declared? = none) (hb : body.Proper) :
    (forLoop initializer condition increment body).Proper := by
  have hcondition : (condition.getD (.literal (.boolean true))).Proper := by
    cases condition with
    | none => exact trivial
    | some e => exact hc
  cases initializer with
  | none => exact ⟨hcondition, ⟨hd, hb⟩, hn⟩
  | some first => exact ⟨hi first rfl, ⟨hcondition, ⟨hd, hb⟩, hn⟩, trivial⟩

mutual

theorem Expression.proper : ∀ {ts : List Token} {e : Expr}, Expression ts e →
    (∀ t ∈ ts, t.Spelled) → e.Proper
  | _, _, .conditional h, hts => Conditional.proper h hts
  | _, _, .assign hr heq h, hts => by
    simp only [List.forall_mem_cons] at hts
    exact ⟨hts.1.name hr, Expression.proper h hts.2.2⟩
  | _, _, .set ho hd hn heq h, hts => by
    simp only [List.forall_mem_append, List.forall_mem_cons] at hts
    exact ⟨Call.proper ho hts.1, Expression.proper h hts.2.2.2.2⟩

theorem Conditional.proper : ∀ {ts : List Token} {e : Expr}, Conditional ts e →
    (∀ t ∈ ts, t.Spelled) → e.Proper
  | _, _, .binary h, hts => Binary.proper h hts
  | _, _, .conditional hc hq ht hco hf, hts => by
    simp only [List.forall_mem_append, List.forall_mem_cons] at hts
    obtain ⟨hcs, _, hts, _, hfs⟩ := hts
    exact ⟨Binary.proper hc hcs, Conditional.proper ht hts, Conditional.proper hf hfs⟩

theorem Binary.proper : ∀ {levels : List (List TokenKind)} {ts : List Token} {e : Expr},
    Binary levels ts e → (∀ t ∈ ts, t.Spelled) → e.Proper
  | _, _, _, .unary h, hts => Unary.proper h hts
  | _, _, _, .tighter h, hts => Binary.proper h hts
  | _, _, _, .operator hl hop hr, hts => by
    simp only [List.forall_mem_append, List.forall_mem_cons] at hts
    exact ⟨Binary.proper hl hts.1, Binary.proper hr hts.2.2⟩

theorem Unary.proper : ∀ {ts : List Token} {e : Expr}, Unary ts e → (∀ t ∈ ts, t.Spelled) → e.Proper
  | _, _, .operator hop h, hts => by
    have hright := Unary.proper h (List.forall_mem_cons.1 hts).2
    exact hright
  | _, _, .call h, hts => Call.proper h hts

theorem Call.proper : ∀ {ts : List Token} {e : Expr}, Call ts e → (∀ t ∈ ts, t.Spelled) → e.Proper
  | _, _, .primary h, hts => Primary.proper h hts
  | _, _, .noArguments h ho hp, hts => by
    simp only [List.forall_mem_append] at hts
    exact ⟨Call.proper h hts.1, trivial⟩
  | _, _, .arguments h ho ha hn hp, hts => by
    simp only [List.forall_mem_append, List.forall_mem_cons] at hts
    exact ⟨Call.proper h hts.1, Arguments.proper ha hts.2.2.1⟩
  | _, _, .property h hd hn, hts => by
    simp only [List.forall_mem_append] at hts
    have hobject := Call.proper h hts.1
    exact hobject

theorem Arguments.proper : ∀ {ts : List Token} {es : List Expr}, Arguments ts es →
    (∀ t ∈ ts, t.Spelled) → Expr.ProperAll es
  | _, _, .last h, hts => ⟨Expression.proper h hts, trivial⟩
  | _, _, .more h hc hs, hts => by
    simp only [List.forall_mem_append, List.forall_mem_cons] at hts
    exact ⟨Expression.proper h hts.1, Arguments.proper hs hts.2.2⟩

theorem Primary.proper : ∀ {ts : List Token} {e : Expr}, Primary ts e →
    (∀ t ∈ ts, t.Spelled) → e.Proper
  | _, _, .false _, _ | _, _, .true _, _ | _, _, .nil _, _ | _, _, .literal _, _ => trivial
  | _, _, .this ht, hts => (hts _ List.mem_cons_self).this ht
  | _, _, .super ht hd hm, hts => (hts _ List.mem_cons_self).super ht
  | _, _, .variable ht, hts => (hts _ List.mem_cons_self).name ht
  | _, _, .grouping ho h hc, hts => by
    simp only [List.forall_mem_append, List.forall_mem_cons] at hts
    have hinner := Expression.proper h hts.2.1
    exact hinner
  | _, _, .lambda hk h, hts => Function.proper h (List.forall_mem_cons.1 hts).2

theorem Function.proper : ∀ {ts : List Token} {f : Lambda}, Function ts f →
    (∀ t ∈ ts, t.Spelled) → f.Proper
  | _, _, .mk ho hp hc hl hb hr, hts => by
    simp only [List.forall_mem_append, List.forall_mem_cons] at hts
    obtain ⟨_, hps, _, _, hbs, _⟩ := hts
    exact ⟨hp.proper hps, Declarations.proper hb hbs⟩

theorem Declarations.proper : ∀ {inLoop : Bool} {ts : List Token} {body : List Stmt},
    Declarations inLoop ts body → (∀ t ∈ ts, t.Spelled) → Stmt.ProperAll body
  | _, _, _, .nil, _ => trivial
  | _, _, _, .cons h hs, hts => by
    simp only [List.forall_mem_append] at hts
    exact ⟨Declaration.proper h hts.1, Declarations.proper hs hts.2⟩

theorem Declaration.proper : ∀ {inLoop : Bool} {ts : List Token} {s : Stmt},
    Declaration inLoop ts s → (∀ t ∈ ts, t.Spelled) → s.Proper
  | _, _, _, .class hk hn hs hl hm hr, hts => by
    simp only [List.forall_mem_append, List.forall_mem_cons] at hts
    obtain ⟨_, hname, hss, _, hms, _⟩ := hts
    have hmethods := Methods.proper hm hms
    exact ⟨hname.name hn, hs.proper hss, hmethods.1, hmethods.2⟩
  | _, _, _, .function hk hn h, hts => by
    simp only [List.forall_mem_cons] at hts
    exact ⟨hts.2.1.name hn, Function.proper h hts.2.2⟩
  | _, _, _, .var hk h, hts => Variable.proper h (List.forall_mem_cons.1 hts).2
  | _, _, _, .statement h, hts => Statement.proper h hts

theorem Methods.proper : ∀ {ts : List Token} {own statics : List FunctionDecl},
    Methods ts own statics → (∀ t ∈ ts, t.Spelled) →
    FunctionDecl.ProperAll own ∧ FunctionDecl.ProperAll statics
  | _, _, _, .none, _ => ⟨trivial, trivial⟩
  | _, _, _, .own hn h hs, hts => by
    simp only [List.forall_mem_append, List.forall_mem_cons] at hts
    have hrest := Methods.proper hs hts.2.2
    exact ⟨⟨Function.proper h hts.2.1, hrest.1⟩, hrest.2⟩
  | _, _, _, .static hk hn h hs, hts => by
    simp only [List.forall_mem_append, List.forall_mem_cons] at hts
    have hrest := Methods.proper hs hts.2.2.2
    exact ⟨hrest.1, Function.proper h hts.2.2.1, hrest.2⟩

theorem Variable.proper : ∀ {ts : List Token} {s : Stmt}, Variable ts s →
    (∀ t ∈ ts, t.Spelled) → s.Proper
  | _, _, .unassigned hn hs, hts => ⟨(hts _ List.mem_cons_self).name hn, trivial⟩
  | _, _, .initialized hn heq h hs, hts => by
    simp only [List.forall_mem_append, List.forall_mem_cons] at hts
    exact ⟨hts.1.name hn, Expression.proper h hts.2.2.1⟩

theorem Series.proper : ∀ {ts : List Token} {e : Expr}, Series ts e →
    (∀ t ∈ ts, t.Spelled) → e.Proper
  | _, _, .expression h, hts => Expression.proper h hts
  | _, _, .comma hl hc hr, hts => by
    simp only [List.forall_mem_append, List.forall_mem_cons] at hts
    exact ⟨Series.proper hl hts.1, Expression.proper hr hts.2.2⟩

theorem OptionalExpression.proper : ∀ {ts : List Token} {e? : Option Expr},
    OptionalExpression ts e? → (∀ t ∈ ts, t.Spelled) → Expr.Proper? e?
  | _, _, .none, _ => trivial
  | _, _, .some h, hts => Expression.proper h hts

theorem ForInitializer.proper : ∀ {ts : List Token} {s? : Option Stmt},
    ForInitializer ts s? → (∀ t ∈ ts, t.Spelled) → ∀ s ∈ s?, s.Proper
  | _, _, .none _, _, _, h => nomatch h
  | _, _, .var _ h, hts, _, rfl => Variable.proper h (List.forall_mem_cons.1 hts).2
  | _, _, .expression h _, hts, _, rfl => Series.proper h (List.forall_mem_append.1 hts).1

theorem Statement.proper : ∀ {inLoop dangles : Bool} {ts : List Token} {s : Stmt},
    Statement inLoop dangles ts s → (∀ t ∈ ts, t.Spelled) → s.Proper
  | _, _, _, _, .expression h hs, hts => Series.proper h (List.forall_mem_append.1 hts).1
  | _, _, _, _, .print hk h hs, hts => by
    simp only [List.forall_mem_append, List.forall_mem_cons] at hts
    exact Series.proper h hts.2.1
  | _, _, _, _, .for hk ho hi hc hs hn hcl hb, hts => by
    simp only [List.forall_mem_append, List.forall_mem_cons] at hts
    obtain ⟨_, _, his, hcs, _, hns, _, hbs⟩ := hts
    exact forLoop_proper (ForInitializer.proper hi his) (OptionalExpression.proper hc hcs)
      (OptionalExpression.proper hn hns) (statement_declared hb) (Statement.proper hb hbs)
  | _, _, _, _, .while hk ho hc hcl hb, hts => by
    simp only [List.forall_mem_append, List.forall_mem_cons] at hts
    obtain ⟨_, _, hcs, _, hbs⟩ := hts
    exact ⟨Expression.proper hc hcs, ⟨statement_declared hb, Statement.proper hb hbs⟩, trivial⟩
  | _, _, _, _, .if hk ho hc hcl ht, hts => by
    simp only [List.forall_mem_append, List.forall_mem_cons] at hts
    obtain ⟨_, _, hcs, _, hbs⟩ := hts
    exact ⟨Expression.proper hc hcs, ⟨statement_declared ht, Statement.proper ht hbs⟩, trivial⟩
  | _, _, _, _, .ifElse hk ho hc hcl ht hm he, hts => by
    simp only [List.forall_mem_append, List.forall_mem_cons] at hts
    obtain ⟨_, _, hcs, _, hbs, _, hes⟩ := hts
    exact ⟨Expression.proper hc hcs, ⟨statement_declared ht, Statement.proper ht hbs⟩,
      statement_declared he, Statement.proper he hes⟩
  | _, _, _, _, .return hk hv hs, hts => by
    simp only [List.forall_mem_append, List.forall_mem_cons] at hts
    exact OptionalExpression.proper hv hts.2.1
  | _, _, _, _, .break _ _, _ | _, _, _, _, .continue _ _, _ => trivial
  | _, _, _, _, .block hl hb hr, hts => by
    simp only [List.forall_mem_append, List.forall_mem_cons] at hts
    exact Declarations.proper hb hts.2.1

end

end Phrase

end Lox
