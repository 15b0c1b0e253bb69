import Lox.Proofs.Syntax.Phrase

/-!
No phrase holds an end mark.
-/

namespace Lox.Phrase

def EndFree (ts : List Token) : Prop := ∀ t ∈ ts, t.kind ≠ .eof

section EndFree

variable {t : Token} {ts us : List Token}

@[simp] theorem endFree_nil : EndFree [] := nofun

@[simp] theorem endFree_cons : EndFree (t :: ts) ↔ t.kind ≠ .eof ∧ EndFree ts := List.forall_mem_cons

@[simp] theorem endFree_append : EndFree (ts ++ us) ↔ EndFree ts ∧ EndFree us :=
  List.forall_mem_append

end EndFree

theorem Names.endFree {ts names : List Token} (h : Names ts names) : EndFree ts := by
  induction h with
  | last ht => simp [ht]
  | more ht hc hs ih => simp [ht, hc, ih]

theorem Parameters.endFree {ts names : List Token} (h : Parameters ts names) : EndFree ts := by
  cases h with
  | none => simp
  | some hs hn => exact hs.endFree

theorem Superclass.endFree {ts : List Token} {superclass : Option Reference}
    (h : Superclass ts superclass) : EndFree ts := by
  cases h with
  | none => simp
  | some hl hr => simp [hl, hr]

mutual

theorem Expression.endFree : ∀ {ts : List Token} {e : Expr}, Expression ts e → EndFree ts
  | _, _, .conditional h => Conditional.endFree h
  | _, _, .assign hr heq h => by simp [hr, heq, Expression.endFree h]
  | _, _, .set ho hd hn heq h => by simp [Call.endFree ho, hd, hn, heq, Expression.endFree h]

theorem Conditional.endFree : ∀ {ts : List Token} {e : Expr}, Conditional ts e → EndFree ts
  | _, _, .binary h => Binary.endFree h (by decide)
  | _, _, .conditional hc hq ht hco hf => by
    simp [Binary.endFree hc (by decide), hq, Conditional.endFree ht, hco, Conditional.endFree hf]

theorem Binary.endFree : ∀ {levels : List (List TokenKind)} {ts : List Token} {e : Expr},
    Binary levels ts e → (∀ kinds ∈ levels, .eof ∉ kinds) → EndFree ts
  | _, _, _, .unary h, _ => Unary.endFree h
  | _, _, _, .tighter h, hl => Binary.endFree h fun kinds hk => hl kinds (List.mem_cons_of_mem _ hk)
  | _, _, _, @Binary.operator kinds _ _ _ _ _ op h hop hr, hl => by
    have hkind : op.kind ≠ .eof := fun heof => hl kinds List.mem_cons_self (heof ▸ hop)
    simp [Binary.endFree h hl, hkind,
      Binary.endFree hr fun kinds hk => hl kinds (List.mem_cons_of_mem _ hk)]

theorem Unary.endFree : ∀ {ts : List Token} {e : Expr}, Unary ts e → EndFree ts
  | _, _, .operator hop h => by rcases hop with hop | hop <;> simp [hop, Unary.endFree h]
  | _, _, .call h => Call.endFree h

theorem Call.endFree : ∀ {ts : List Token} {e : Expr}, Call ts e → EndFree ts
  | _, _, .primary h => Primary.endFree h
  | _, _, .noArguments h ho hp => by simp [Call.endFree h, ho, hp]
  | _, _, .arguments h ho ha hn hp => by simp [Call.endFree h, ho, Arguments.endFree ha, hp]
  | _, _, .property h hd hn => by simp [Call.endFree h, hd, hn]

theorem Arguments.endFree : ∀ {ts : List Token} {es : List Expr}, Arguments ts es → EndFree ts
  | _, _, .last h => Expression.endFree h
  | _, _, .more h hc hs => by simp [Expression.endFree h, hc, Arguments.endFree hs]

theorem Primary.endFree : ∀ {ts : List Token} {e : Expr}, Primary ts e → EndFree ts
  | _, _, .false ht | _, _, .true ht | _, _, .nil ht | _, _, .this ht | _, _, .variable ht => by
    simp [ht]
  | _, _, .literal ht => by rcases ht with ht | ht <;> simp [ht]
  | _, _, .super ht hd hm => by simp [ht, hd, hm]
  | _, _, .grouping ho h hc => by simp [ho, Expression.endFree h, hc]
  | _, _, .lambda hk h => by simp [hk, Function.endFree h]

theorem Function.endFree : ∀ {ts : List Token} {f : Lambda}, Function ts f → EndFree ts
  | _, _, .mk ho hp hc hl hb hr => by
    simp [ho, hp.endFree, hc, hl, Declarations.endFree hb, hr]

theorem Declarations.endFree : ∀ {inLoop : Bool} {ts : List Token} {body : List Stmt},
    Declarations inLoop ts body → EndFree ts
  | _, _, _, .nil => endFree_nil
  | _, _, _, .cons h hs => by simp [Declaration.endFree h, Declarations.endFree hs]

theorem Declaration.endFree : ∀ {inLoop : Bool} {ts : List Token} {s : Stmt},
    Declaration inLoop ts s → EndFree ts
  | _, _, _, .class hk hn hs hl hm hr => by
    simp [hk, hn, hs.endFree, hl, Methods.endFree hm, hr]
  | _, _, _, .function hk hn h => by simp [hk, hn, Function.endFree h]
  | _, _, _, .var hk h => by simp [hk, Variable.endFree h]
  | _, _, _, .statement h => Statement.endFree h

theorem Methods.endFree : ∀ {ts : List Token} {own statics : List FunctionDecl},
    Methods ts own statics → EndFree ts
  | _, _, _, .none => endFree_nil
  | _, _, _, .own hn h hs => by simp [hn, Function.endFree h, Methods.endFree hs]
  | _, _, _, .static hk hn h hs => by simp [hk, hn, Function.endFree h, Methods.endFree hs]

theorem Variable.endFree : ∀ {ts : List Token} {s : Stmt}, Variable ts s → EndFree ts
  | _, _, .unassigned hn hs => by simp [hn, hs]
  | _, _, .initialized hn heq h hs => by simp [hn, heq, Expression.endFree h, hs]

theorem Series.endFree : ∀ {ts : List Token} {e : Expr}, Series ts e → EndFree ts
  | _, _, .expression h => Expression.endFree h
  | _, _, .comma hl hc hr => by simp [Series.endFree hl, hc, Expression.endFree hr]

theorem OptionalExpression.endFree : ∀ {ts : List Token} {e : Option Expr},
    OptionalExpression ts e → EndFree ts
  | _, _, .none => endFree_nil
  | _, _, .some h => Expression.endFree h

theorem ForInitializer.endFree : ∀ {ts : List Token} {s : Option Stmt},
    ForInitializer ts s → EndFree ts
  | _, _, .none hs => by simp [hs]
  | _, _, .var hk h => by simp [hk, Variable.endFree h]
  | _, _, .expression h hs => by simp [Series.endFree h, hs]

theorem Statement.endFree : ∀ {inLoop dangles : Bool} {ts : List Token} {s : Stmt},
    Statement inLoop dangles ts s → EndFree ts
  | _, _, _, _, .expression h hs => by simp [Series.endFree h, hs]
  | _, _, _, _, .print hk h hs => by simp [hk, Series.endFree h, hs]
  | _, _, _, _, .for hk ho hi hc hs hn hcl hb => by
    simp [hk, ho, ForInitializer.endFree hi, OptionalExpression.endFree hc, hs,
      OptionalExpression.endFree hn, hcl, Statement.endFree hb]
  | _, _, _, _, .while hk ho hc hcl hb => by
    simp [hk, ho, Expression.endFree hc, hcl, Statement.endFree hb]
  | _, _, _, _, .if hk ho hc hcl ht => by
    simp [hk, ho, Expression.endFree hc, hcl, Statement.endFree ht]
  | _, _, _, _, .ifElse hk ho hc hcl ht hm he => by
    simp [hk, ho, Expression.endFree hc, hcl, Statement.endFree ht, hm, Statement.endFree he]
  | _, _, _, _, .return hk hv hs => by simp [hk, OptionalExpression.endFree hv, hs]
  | _, _, _, _, .break hk hs => by simp [hk, hs]
  | _, _, _, _, .continue hk hs => by simp [hk, hs]
  | _, _, _, _, .block hl hb hr => by simp [hl, Declarations.endFree hb, hr]

end

end Lox.Phrase
