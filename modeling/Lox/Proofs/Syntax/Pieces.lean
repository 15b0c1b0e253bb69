import Lox.Proofs.Syntax.Parsing
import Mathlib.Logic.Relation

/-!
The pieces that a tree is made of, down to its tokens. A tree that the grammar derives has no piece
that stands for a fault, and its tokens are those of its text.
-/

namespace Lox

/-- A piece of a program. -/
inductive Piece where
  | token (t : Token)
  | expr (e : Expr)
  | stmt (s : Stmt)
  | lambda (f : Lambda)

namespace Piece

def ofReference? (ref? : Option Reference) : List Piece :=
  (ref?.map fun ref => token ref.name).toList

def ofExpr? (e? : Option Expr) : List Piece := (e?.map expr).toList

def ofStmt? (s? : Option Stmt) : List Piece := (s?.map stmt).toList

def ofDeclarations (decls : List FunctionDecl) : List Piece :=
  decls.flatMap fun d => [token d.name, lambda d.function]

/-- What a piece is put together from. -/
def parts : Piece → List Piece
  | token _ => []
  | expr e =>
    match e with
    | .literal _ => []
    | .grouping inner => [expr inner]
    | .unary operator right => [token operator, expr right]
    | .binary left operator right => [expr left, token operator, expr right]
    | .binaryError operator right => [token operator, expr right]
    | .conditional condition thenBranch elseBranch =>
      [expr condition, expr thenBranch, expr elseBranch]
    | .variable ref => [token ref.name]
    | .assign target value => [token target.name, expr value]
    | .call callee paren arguments => expr callee :: token paren :: arguments.map expr
    | .get object name => [expr object, token name]
    | .set object name value => [expr object, token name, expr value]
    | .this ref => [token ref.name]
    | .super ref method => [token ref.name, token method]
    | .lambda function => [lambda function]
  | stmt s =>
    match s with
    | .expression e => [expr e]
    | .print e => [expr e]
    | .var name initializer => token name :: ofExpr? initializer
    | .block body => body.map stmt
    | .ite condition thenBranch elseBranch =>
      expr condition :: stmt thenBranch :: ofStmt? elseBranch
    | .loop condition body increment => expr condition :: stmt body :: ofExpr? increment
    | .break keyword => [token keyword]
    | .continue keyword => [token keyword]
    | .breakError keyword => [token keyword]
    | .continueError keyword => [token keyword]
    | .function decl => ofDeclarations [decl]
    | .return keyword value => token keyword :: ofExpr? value
    | .class name superclass own statics =>
      token name :: (ofReference? superclass ++ ofDeclarations own ++ ofDeclarations statics)
  | lambda f => f.params.map token ++ f.body.map stmt

/-- The second piece is the first one or lies in it, at any depth. -/
def Within (p q : Piece) : Prop := Relation.ReflTransGen (fun p q => q ∈ p.parts) p q

/-- The operators that have a meaning with two operands. -/
def operators : List TokenKind := .comma :: Phrase.precedence.flatten

/-- The piece stands for no fault, and the tokens that it has itself are of the kinds that they are
for. -/
def Meaningful (T : Token → Prop) : Piece → Prop
  | token t => T t
  | expr e =>
    match e with
    | .unary operator _ => operator.kind = .bang ∨ operator.kind = .minus
    | .binary _ operator _ => operator.kind ∈ operators
    | .binaryError _ _ => False
    | .variable ref => ref.name.kind = .identifier
    | .assign target _ => target.name.kind = .identifier
    | .call _ paren _ => paren.kind = .rightParen
    | .get _ name => name.kind = .identifier
    | .set _ name _ => name.kind = .identifier
    | .this ref => ref.name.kind = .this
    | .super ref method => ref.name.kind = .super ∧ method.kind = .identifier
    | _ => True
  | stmt s =>
    match s with
    | .var name _ => name.kind = .identifier
    | .breakError _ => False
    | .continueError _ => False
    | .function decl => decl.name.kind = .identifier
    | .class name superclass _ _ =>
      name.kind = .identifier ∧ ∀ ref ∈ superclass, ref.name.kind = .identifier
    | _ => True
  | lambda f => ∀ p ∈ f.params, p.kind = .identifier

/-- Every piece of the whole is meaningful, with tokens of the text. -/
inductive Formed (T : Token → Prop) : Piece → Prop
  | intro {p : Piece} (meaningful : p.Meaningful T) (parts : ∀ q ∈ p.parts, Formed T q) : Formed T p

namespace Formed

variable {T T' : Token → Prop} {p : Piece}

theorem meaningful (h : p.Formed T) : p.Meaningful T := by
  cases h with
  | intro meaningful _ => exact meaningful

theorem parts (h : p.Formed T) : ∀ q ∈ p.parts, q.Formed T := by
  cases h with
  | intro _ parts => exact parts

theorem within {q : Piece} (h : p.Formed T) (hq : p.Within q) : q.Formed T := by
  induction hq with
  | refl => exact h
  | tail _ hpart ih => exact ih.parts _ hpart

theorem token {t : Token} (ht : T t) : (Piece.token t).Formed T := .intro ht (List.forall_mem_nil _)

theorem literal (value : Literal) : (expr (.literal value)).Formed T :=
  .intro trivial (List.forall_mem_nil _)

end Formed

theorem Meaningful.mono {T T' : Token → Prop} (hT : ∀ t, T t → T' t) {p : Piece}
    (h : p.Meaningful T) : p.Meaningful T' := by
  cases p with
  | token t => exact hT t h
  | _ => exact h

theorem Formed.mono {T T' : Token → Prop} (hT : ∀ t, T t → T' t) {p : Piece} (h : p.Formed T) :
    p.Formed T' := by
  induction h with
  | intro meaningful _ ih => exact .intro (meaningful.mono hT) ih

end Piece

/-- What a program is put together from. -/
def Program.pieces : Program → List Piece
  | .statements body => body.map .stmt
  | .expression e => [.expr e]

namespace Phrase

open Piece

variable {T : Token → Prop} {ts : List Token}

theorem Names.formed {names : List Token} (h : Names ts names) (hts : ∀ t ∈ ts, T t) :
    ∀ p ∈ names, p.kind = .identifier ∧ T p := by
  induction h with
  | last ht => simpa [ht] using hts
  | more ht hc hs ih =>
    simp only [List.forall_mem_cons] at hts ⊢
    exact ⟨⟨ht, hts.1⟩, ih hts.2.2⟩

theorem Parameters.formed {names : List Token} (h : Parameters ts names) (hts : ∀ t ∈ ts, T t) :
    ∀ p ∈ names, p.kind = .identifier ∧ T p := by
  cases h with
  | none => exact List.forall_mem_nil _
  | some hs hn => exact hs.formed hts

theorem Superclass.formed {superclass : Option Reference} (h : Superclass ts superclass)
    (hts : ∀ t ∈ ts, T t) : (∀ ref ∈ superclass, ref.name.kind = .identifier) ∧
      ∀ q ∈ ofReference? superclass, q.Formed T := by
  cases h with
  | none => exact ⟨nofun, List.forall_mem_nil _⟩
  | some hl hr =>
    have hname := Formed.token (hts _ (List.mem_cons_of_mem _ List.mem_cons_self))
    exact ⟨fun ref href => Option.some.inj href ▸ hr, List.forall_mem_singleton.2 hname⟩

theorem forLoop_formed {initializer : Option Stmt} {condition increment : Option Expr}
    {body : Stmt} (hi : ∀ q ∈ ofStmt? initializer, q.Formed T)
    (hc : ∀ q ∈ ofExpr? condition, q.Formed T) (hn : ∀ q ∈ ofExpr? increment, q.Formed T)
    (hb : (stmt body).Formed T) :
    (stmt (forLoop initializer condition increment body)).Formed T := by
  have hcondition : (expr (condition.getD (.literal (.boolean true)))).Formed T := by
    cases condition with
    | none => exact .literal _
    | some e => exact hc _ (List.mem_singleton_self _)
  have hloop : (stmt (.loop (condition.getD (.literal (.boolean true))) body increment)).Formed T :=
    .intro trivial (List.forall_mem_cons.2 ⟨hcondition, List.forall_mem_cons.2 ⟨hb, hn⟩⟩)
  cases initializer with
  | none => exact hloop
  | some first =>
    have hfirst := hi _ (List.mem_singleton_self _)
    have hblock : (stmt (.block [first, _])).Formed T :=
      .intro trivial (List.forall_mem_cons.2 ⟨hfirst, List.forall_mem_singleton.2 hloop⟩)
    exact hblock

mutual

theorem Expression.formed : ∀ {ts : List Token} {e : Expr}, Expression ts e →
    (∀ t ∈ ts, T t) → (expr e).Formed T
  | _, _, .conditional h, hts => Conditional.formed h hts
  | _, _, .assign hr heq h, hts => by
    simp only [List.forall_mem_cons] at hts
    have hvalue := Expression.formed h hts.2.2
    exact .intro hr (by simpa [parts] using And.intro (Formed.token hts.1) hvalue)
  | _, _, .set ho hd hn heq h, hts => by
    simp only [List.forall_mem_append, List.forall_mem_cons] at hts
    obtain ⟨hos, _, hname, _, hts⟩ := hts
    have hobject := Call.formed ho hos
    have hvalue := Expression.formed h hts
    exact .intro hn (by simpa [parts] using ⟨hobject, Formed.token hname, hvalue⟩)

theorem Conditional.formed : ∀ {ts : List Token} {e : Expr}, Conditional ts e →
    (∀ t ∈ ts, T t) → (expr e).Formed T
  | _, _, .binary h, hts => Binary.formed h (fun _ h => h) hts
  | _, _, .conditional hc hq ht hco hf, hts => by
    simp only [List.forall_mem_append, List.forall_mem_cons] at hts
    obtain ⟨hcs, _, hts, _, hfs⟩ := hts
    have hcondition := Binary.formed hc (fun _ h => h) hcs
    have hthen := Conditional.formed ht hts
    have helse := Conditional.formed hf hfs
    exact .intro trivial (by simpa [parts] using ⟨hcondition, hthen, helse⟩)

theorem Binary.formed : ∀ {levels : List (List TokenKind)} {ts : List Token} {e : Expr},
    Binary levels ts e → (∀ kinds ∈ levels, kinds ∈ precedence) → (∀ t ∈ ts, T t) →
    (expr e).Formed T
  | _, _, _, .unary h, _, hts => Unary.formed h hts
  | _, _, _, .tighter h, hlevels, hts => Binary.formed h (List.forall_mem_cons.1 hlevels).2 hts
  | _, _, _, .operator hl hop hr, hlevels, hts => by
    simp only [List.forall_mem_append, List.forall_mem_cons] at hts
    obtain ⟨hkinds, htighter⟩ := List.forall_mem_cons.1 hlevels
    have hleft := Binary.formed hl hlevels hts.1
    have hright := Binary.formed hr htighter hts.2.2
    have hoperator := List.mem_cons_of_mem .comma (List.mem_flatten.2 ⟨_, hkinds, hop⟩)
    exact .intro hoperator (by simpa [parts] using ⟨hleft, Formed.token hts.2.1, hright⟩)

theorem Unary.formed : ∀ {ts : List Token} {e : Expr}, Unary ts e → (∀ t ∈ ts, T t) →
    (expr e).Formed T
  | _, _, .operator hop h, hts => by
    obtain ⟨ht, hts⟩ := List.forall_mem_cons.1 hts
    have hright := Unary.formed h hts
    exact .intro hop (by simpa [parts] using And.intro (Formed.token ht) hright)
  | _, _, .call h, hts => Call.formed h hts

theorem Call.formed : ∀ {ts : List Token} {e : Expr}, Call ts e → (∀ t ∈ ts, T t) →
    (expr e).Formed T
  | _, _, .primary h, hts => Primary.formed h hts
  | _, _, .noArguments h ho hp, hts => by
    simp only [List.forall_mem_append, List.forall_mem_cons] at hts
    have hcallee := Call.formed h hts.1
    exact .intro hp (by simpa [parts] using And.intro hcallee (Formed.token hts.2.2.1))
  | _, _, .arguments h ho ha hn hp, hts => by
    simp only [List.forall_mem_append, List.forall_mem_cons] at hts
    obtain ⟨hcs, _, hus, hparen, _⟩ := hts
    have hcallee := Call.formed h hcs
    have harguments := Arguments.formed ha hus
    exact .intro hp (by simpa [parts] using ⟨hcallee, Formed.token hparen, harguments⟩)
  | _, _, .property h hd hn, hts => by
    simp only [List.forall_mem_append, List.forall_mem_cons] at hts
    have hobject := Call.formed h hts.1
    exact .intro hn (by simpa [parts] using And.intro hobject (Formed.token hts.2.2.1))

theorem Arguments.formed : ∀ {ts : List Token} {es : List Expr}, Arguments ts es →
    (∀ t ∈ ts, T t) → ∀ e ∈ es, (expr e).Formed T
  | _, _, .last h, hts => by simpa using Expression.formed h hts
  | _, _, .more h hc hs, hts => by
    simp only [List.forall_mem_append, List.forall_mem_cons] at hts
    exact List.forall_mem_cons.2 ⟨Expression.formed h hts.1, Arguments.formed hs hts.2.2⟩

theorem Primary.formed : ∀ {ts : List Token} {e : Expr}, Primary ts e → (∀ t ∈ ts, T t) →
    (expr e).Formed T
  | _, _, .false _, _ | _, _, .true _, _ | _, _, .nil _, _ | _, _, .literal _, _ =>
    .literal _
  | _, _, .this ht, hts => .intro ht (by simpa [parts] using Formed.token (hts _ List.mem_cons_self))
  | _, _, .super ht hd hm, hts => by
    simp only [List.forall_mem_cons] at hts
    exact .intro ⟨ht, hm⟩
      (by simpa [parts] using And.intro (Formed.token hts.1) (Formed.token hts.2.2.1))
  | _, _, .variable ht, hts =>
    .intro ht (by simpa [parts] using Formed.token (hts _ List.mem_cons_self))
  | _, _, .grouping ho h hc, hts => by
    simp only [List.forall_mem_append, List.forall_mem_cons] at hts
    exact .intro trivial (by simpa [parts] using Expression.formed h hts.2.1)
  | _, _, .lambda hk h, hts =>
    .intro trivial (by simpa [parts] using Function.formed h (List.forall_mem_cons.1 hts).2)

theorem Function.formed : ∀ {ts : List Token} {f : Lambda}, Function ts f → (∀ t ∈ ts, T t) →
    (lambda f).Formed T
  | _, _, .mk ho hp hc hl hb hr, hts => by
    simp only [List.forall_mem_append, List.forall_mem_cons] at hts
    obtain ⟨_, hps, _, _, hbs, _⟩ := hts
    have hparams := hp.formed hps
    have hbody := Declarations.formed hb hbs
    refine .intro (fun p hp => (hparams p hp).1) ?_
    simp only [parts, List.forall_mem_append, List.forall_mem_map]
    exact ⟨fun p hp => .token (hparams p hp).2, hbody⟩

theorem Declarations.formed : ∀ {inLoop : Bool} {ts : List Token} {body : List Stmt},
    Declarations inLoop ts body → (∀ t ∈ ts, T t) → ∀ s ∈ body, (stmt s).Formed T
  | _, _, _, .nil, _ => List.forall_mem_nil _
  | _, _, _, .cons h hs, hts => by
    simp only [List.forall_mem_append] at hts
    exact List.forall_mem_cons.2 ⟨Declaration.formed h hts.1, Declarations.formed hs hts.2⟩

theorem Declaration.formed : ∀ {inLoop : Bool} {ts : List Token} {s : Stmt},
    Declaration inLoop ts s → (∀ t ∈ ts, T t) → (stmt s).Formed T
  | _, _, _, .class hk hn hs hl hm hr, hts => by
    simp only [List.forall_mem_append, List.forall_mem_cons] at hts
    obtain ⟨_, hname, hss, _, hms, _⟩ := hts
    obtain ⟨hkind, hsuperclass⟩ := hs.formed hss
    obtain ⟨hown, hstatics⟩ := Methods.formed hm hms
    refine .intro ⟨hn, hkind⟩ (List.forall_mem_cons.2 ⟨.token hname, ?_⟩)
    simp only [List.forall_mem_append]
    exact ⟨⟨hsuperclass, hown⟩, hstatics⟩
  | _, _, _, .function hk hn h, hts => by
    simp only [List.forall_mem_cons] at hts
    have hfunction := Function.formed h hts.2.2
    exact .intro hn
      (by simpa [parts, ofDeclarations, FunctionDecl.name, FunctionDecl.function] using
        And.intro (Formed.token hts.2.1) hfunction)
  | _, _, _, .var hk h, hts => Variable.formed h (List.forall_mem_cons.1 hts).2
  | _, _, _, .statement h, hts => Statement.formed h hts

theorem Methods.formed : ∀ {ts : List Token} {own statics : List FunctionDecl},
    Methods ts own statics → (∀ t ∈ ts, T t) →
    (∀ q ∈ ofDeclarations own, q.Formed T) ∧ ∀ q ∈ ofDeclarations statics, q.Formed T
  | _, _, _, .none, _ => ⟨List.forall_mem_nil _, List.forall_mem_nil _⟩
  | _, _, _, .own hn h hs, hts => by
    simp only [List.forall_mem_append, List.forall_mem_cons] at hts
    have hrest := Methods.formed hs hts.2.2
    exact ⟨List.forall_mem_cons.2 ⟨.token hts.1, List.forall_mem_cons.2 ⟨Function.formed h hts.2.1, hrest.1⟩⟩,
      hrest.2⟩
  | _, _, _, .static hk hn h hs, hts => by
    simp only [List.forall_mem_append, List.forall_mem_cons] at hts
    have hrest := Methods.formed hs hts.2.2.2
    exact ⟨hrest.1, List.forall_mem_cons.2 ⟨.token hts.2.1,
      List.forall_mem_cons.2 ⟨Function.formed h hts.2.2.1, hrest.2⟩⟩⟩

theorem Variable.formed : ∀ {ts : List Token} {s : Stmt}, Variable ts s → (∀ t ∈ ts, T t) →
    (stmt s).Formed T
  | _, _, .unassigned hn hs, hts => by
    have hname := Formed.token (hts _ List.mem_cons_self)
    exact .intro hn (by simpa [parts, ofExpr?] using hname)
  | _, _, .initialized hn heq h hs, hts => by
    simp only [List.forall_mem_append, List.forall_mem_cons] at hts
    have hvalue := Expression.formed h hts.2.2.1
    exact .intro hn (by simpa [parts, ofExpr?] using And.intro (Formed.token hts.1) hvalue)

theorem Series.formed : ∀ {ts : List Token} {e : Expr}, Series ts e → (∀ t ∈ ts, T t) →
    (expr e).Formed T
  | _, _, .expression h, hts => Expression.formed h hts
  | _, _, .comma hl hc hr, hts => by
    simp only [List.forall_mem_append, List.forall_mem_cons] at hts
    have hleft := Series.formed hl hts.1
    have hright := Expression.formed hr hts.2.2
    refine .intro ?_ (by simpa [parts] using ⟨hleft, Formed.token hts.2.1, hright⟩)
    show _ ∈ operators
    rw [hc]
    exact List.mem_cons_self

theorem OptionalExpression.formed : ∀ {ts : List Token} {e? : Option Expr},
    OptionalExpression ts e? → (∀ t ∈ ts, T t) → ∀ q ∈ ofExpr? e?, q.Formed T
  | _, _, .none, _ => List.forall_mem_nil _
  | _, _, .some h, hts => List.forall_mem_singleton.2 (Expression.formed h hts)

theorem ForInitializer.formed : ∀ {ts : List Token} {s? : Option Stmt},
    ForInitializer ts s? → (∀ t ∈ ts, T t) → ∀ q ∈ ofStmt? s?, q.Formed T
  | _, _, .none _, _ => List.forall_mem_nil _
  | _, _, .var _ h, hts => List.forall_mem_singleton.2 (Variable.formed h (List.forall_mem_cons.1 hts).2)
  | _, _, .expression h _, hts => by
    have hseries := Series.formed h (List.forall_mem_append.1 hts).1
    exact List.forall_mem_singleton.2 (.intro trivial (List.forall_mem_singleton.2 hseries))

theorem Statement.formed : ∀ {inLoop dangles : Bool} {ts : List Token} {s : Stmt},
    Statement inLoop dangles ts s → (∀ t ∈ ts, T t) → (stmt s).Formed T
  | _, _, _, _, .expression h hs, hts => by
    have hseries := Series.formed h (List.forall_mem_append.1 hts).1
    exact .intro trivial (List.forall_mem_singleton.2 hseries)
  | _, _, _, _, .print hk h hs, hts => by
    simp only [List.forall_mem_append, List.forall_mem_cons] at hts
    exact .intro trivial (List.forall_mem_singleton.2 (Series.formed h hts.2.1))
  | _, _, _, _, .for hk ho hi hc hs hn hcl hb, hts => by
    simp only [List.forall_mem_append, List.forall_mem_cons] at hts
    obtain ⟨_, _, his, hcs, _, hns, _, hbs⟩ := hts
    exact forLoop_formed (ForInitializer.formed hi his) (OptionalExpression.formed hc hcs)
      (OptionalExpression.formed hn hns) (Statement.formed hb hbs)
  | _, _, _, _, .while hk ho hc hcl hb, hts => by
    simp only [List.forall_mem_append, List.forall_mem_cons] at hts
    obtain ⟨_, _, hcs, _, hbs⟩ := hts
    have hcondition := Expression.formed hc hcs
    have hbody := Statement.formed hb hbs
    exact .intro trivial (by simpa [parts, ofExpr?] using And.intro hcondition hbody)
  | _, _, _, _, .if hk ho hc hcl ht, hts => by
    simp only [List.forall_mem_append, List.forall_mem_cons] at hts
    obtain ⟨_, _, hcs, _, hbs⟩ := hts
    have hcondition := Expression.formed hc hcs
    have hthen := Statement.formed ht hbs
    exact .intro trivial (by simpa [parts, ofStmt?] using And.intro hcondition hthen)
  | _, _, _, _, .ifElse hk ho hc hcl ht hm he, hts => by
    simp only [List.forall_mem_append, List.forall_mem_cons] at hts
    obtain ⟨_, _, hcs, _, hbs, _, hes⟩ := hts
    have hcondition := Expression.formed hc hcs
    have hthen := Statement.formed ht hbs
    have helse := Statement.formed he hes
    exact .intro trivial (by simpa [parts, ofStmt?] using ⟨hcondition, hthen, helse⟩)
  | _, _, _, _, .return hk hv hs, hts => by
    simp only [List.forall_mem_append, List.forall_mem_cons] at hts
    exact .intro trivial
      (List.forall_mem_cons.2 ⟨.token hts.1, OptionalExpression.formed hv hts.2.1⟩)
  | _, _, _, _, .break _ _, hts | _, _, _, _, .continue _ _, hts =>
    .intro trivial (List.forall_mem_singleton.2 (.token (hts _ List.mem_cons_self)))
  | _, _, _, _, .block hl hb hr, hts => by
    simp only [List.forall_mem_append, List.forall_mem_cons] at hts
    have hbody := Declarations.formed hb hts.2.1
    exact .intro trivial (List.forall_mem_map.2 hbody)

end

end Phrase

theorem Whole.formed {T : Token → Prop} {ts : List Token} (hts : ∀ t ∈ ts, T t) :
    ∀ {p : Program}, Whole ts p → ∀ q ∈ p.pieces, q.Formed T
  | .statements _, h => List.forall_mem_map.2 (Phrase.Declarations.formed h hts)
  | .expression _, h => List.forall_mem_singleton.2 (Phrase.Series.formed h hts)

end Lox
