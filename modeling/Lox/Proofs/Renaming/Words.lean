import Lox.Proofs.Scope.Occurrences
import Lox.Proofs.Syntax.Phrase
import Mathlib.Data.List.Perm.Subperm

/-!
The words that a tree keeps of its text, each with what it is for and with the scopes around it, and
which of them belong to the declaration of a variable.
-/

namespace Lox

/-- What a word of a tree is for. -/
inductive Use where
  /-- It declares a variable or a parameter. -/
  | «variable»
  /-- It is the name of a function or of a class. -/
  | named
  /-- It is a name that is looked up. -/
  | refers (id : NodeId)
  | other

/-- A word with the scopes around it, innermost first. Of each scope the variables are known that the
text declares in it, before the word or after it. -/
structure Word where
  use : Use
  token : Token
  scopes : List (List Token)

def Stmt.variable? : Stmt → Option Token
  | .var name _ => some name
  | _ => none

/-- The variables that a body declares in its own scope. -/
def Stmt.variables (body : List Stmt) : List Token := body.filterMap Stmt.variable?

def Reference.word (Γ : List (List Token)) (ref : Reference) : Word := ⟨.refers ref.id, ref.name, Γ⟩

mutual

/-- The words of an expression within some scopes. -/
def Expr.words (Γ : List (List Token)) : Expr → List Word
  | .literal _ => []
  | .grouping inner => inner.words Γ
  | .unary operator right => ⟨.other, operator, Γ⟩ :: right.words Γ
  | .binary left operator right => left.words Γ ++ ⟨.other, operator, Γ⟩ :: right.words Γ
  | .binaryError operator right => ⟨.other, operator, Γ⟩ :: right.words Γ
  | .conditional condition thenBranch elseBranch =>
    condition.words Γ ++ (thenBranch.words Γ ++ elseBranch.words Γ)
  | .variable ref => [ref.word Γ]
  | .assign target value => target.word Γ :: value.words Γ
  | .call callee paren arguments =>
    callee.words Γ ++ (Expr.wordsAll Γ arguments ++ [⟨.other, paren, Γ⟩])
  | .get object name => object.words Γ ++ [⟨.other, name, Γ⟩]
  | .set object name value => object.words Γ ++ ⟨.other, name, Γ⟩ :: value.words Γ
  | .this ref => [ref.word Γ]
  | .super ref method => [ref.word Γ, ⟨.other, method, Γ⟩]
  | .lambda function => function.words Γ

def Expr.wordsAll (Γ : List (List Token)) : List Expr → List Word
  | [] => []
  | e :: rest => e.words Γ ++ Expr.wordsAll Γ rest

def Expr.words? (Γ : List (List Token)) : Option Expr → List Word
  | none => []
  | some e => e.words Γ

/-- The scopes of `super` and of a receiver declare no variable. -/
def Stmt.words (Γ : List (List Token)) : Stmt → List Word
  | .expression e => e.words Γ
  | .print e => e.words Γ
  | .var name initializer => ⟨.variable, name, Γ⟩ :: Expr.words? Γ initializer
  | .block body => Stmt.wordsAll (Stmt.variables body :: Γ) body
  | .ite condition thenBranch elseBranch =>
    condition.words Γ ++ (thenBranch.words Γ ++ Stmt.words? Γ elseBranch)
  | .loop condition body increment =>
    condition.words Γ ++ (Expr.words? Γ increment ++ body.words Γ)
  | .break keyword => [⟨.other, keyword, Γ⟩]
  | .continue keyword => [⟨.other, keyword, Γ⟩]
  | .breakError keyword => [⟨.other, keyword, Γ⟩]
  | .continueError keyword => [⟨.other, keyword, Γ⟩]
  | .function (.mk name function) => ⟨.named, name, Γ⟩ :: function.words Γ
  | .return keyword value => ⟨.other, keyword, Γ⟩ :: Expr.words? Γ value
  | .class name superclass own statics =>
    let inner := (superclass.map fun _ => []).toList ++ Γ
    ⟨.named, name, Γ⟩ :: ((superclass.map (·.word Γ)).toList ++
      (FunctionDecl.wordsAll ([] :: inner) own ++ FunctionDecl.wordsAll inner statics))

def Stmt.words? (Γ : List (List Token)) : Option Stmt → List Word
  | none => []
  | some s => s.words Γ

def Stmt.wordsAll (Γ : List (List Token)) : List Stmt → List Word
  | [] => []
  | s :: rest => s.words Γ ++ Stmt.wordsAll Γ rest

def FunctionDecl.wordsAll (Γ : List (List Token)) : List FunctionDecl → List Word
  | [] => []
  | .mk name function :: rest =>
    ⟨.other, name, Γ⟩ :: (function.words Γ ++ FunctionDecl.wordsAll Γ rest)

/-- Parameters and body share one scope. -/
def Lambda.words (Γ : List (List Token)) : Lambda → List Word
  | .mk params body =>
    let inner := (params ++ Stmt.variables body) :: Γ
    params.map (⟨.variable, ·, inner⟩) ++ Stmt.wordsAll inner body

end

def Program.words : Program → List Word
  | .statements body => Stmt.wordsAll [] body
  | .expression e => e.words []

/-! The names that are looked up are the occurrences of the tree. -/

def Word.id? (w : Word) : Option NodeId :=
  match w.use with
  | .refers id => some id
  | .variable | .named | .other => none

@[simp] theorem Word.id?_refers (id : NodeId) (t : Token) (Γ : List (List Token)) :
    Word.id? ⟨.refers id, t, Γ⟩ = some id := rfl

@[simp] theorem Word.id?_variable (t : Token) (Γ : List (List Token)) :
    Word.id? ⟨.variable, t, Γ⟩ = none := rfl

@[simp] theorem Word.id?_named (t : Token) (Γ : List (List Token)) :
    Word.id? ⟨.named, t, Γ⟩ = none := rfl

@[simp] theorem Word.id?_other (t : Token) (Γ : List (List Token)) :
    Word.id? ⟨.other, t, Γ⟩ = none := rfl

mutual

theorem Expr.words_ids : ∀ (e : Expr) (Γ : List (List Token)),
    ((e.words Γ).filterMap Word.id?).Perm e.ids
  | .literal _, _ => .refl _
  | .grouping inner, Γ => Expr.words_ids inner Γ
  | .unary _ right, Γ => Expr.words_ids right Γ
  | .binaryError _ right, Γ => Expr.words_ids right Γ
  | .variable _, _ | .this _, _ | .super _ _, _ => .refl _
  | .lambda function, Γ => Lambda.words_ids function Γ
  | .binary left _ right, Γ => by
    simp only [Expr.words, List.filterMap_append, List.filterMap_cons, Word.id?_other]
    exact (Expr.words_ids left Γ).append (Expr.words_ids right Γ)
  | .conditional condition thenBranch elseBranch, Γ => by
    simp only [Expr.words, List.filterMap_append]
    exact (Expr.words_ids condition Γ).append
      ((Expr.words_ids thenBranch Γ).append (Expr.words_ids elseBranch Γ))
  | .assign target value, Γ =>
    ((Expr.words_ids value Γ).cons target.id).trans (List.perm_append_singleton _ _).symm
  | .call callee _ arguments, Γ => by
    simp only [Expr.words, List.filterMap_append, List.filterMap_cons, Word.id?_other,
      List.filterMap_nil, List.append_nil]
    exact (Expr.words_ids callee Γ).append (Expr.wordsAll_ids arguments Γ)
  | .get object _, Γ => by
    simp only [Expr.words, List.filterMap_append, List.filterMap_cons, Word.id?_other,
      List.filterMap_nil, List.append_nil]
    exact Expr.words_ids object Γ
  | .set object _ value, Γ => by
    simp only [Expr.words, List.filterMap_append, List.filterMap_cons, Word.id?_other]
    exact ((Expr.words_ids object Γ).append (Expr.words_ids value Γ)).trans List.perm_append_comm

theorem Expr.wordsAll_ids : ∀ (es : List Expr) (Γ : List (List Token)),
    ((Expr.wordsAll Γ es).filterMap Word.id?).Perm (Expr.idsAll es)
  | [], _ => .refl _
  | e :: rest, Γ => by
    simp only [Expr.wordsAll, List.filterMap_append]
    exact (Expr.words_ids e Γ).append (Expr.wordsAll_ids rest Γ)

theorem Expr.words?_ids : ∀ (e? : Option Expr) (Γ : List (List Token)),
    ((Expr.words? Γ e?).filterMap Word.id?).Perm (Expr.ids? e?)
  | none, _ => .refl _
  | some e, Γ => Expr.words_ids e Γ

theorem Stmt.words_ids : ∀ (s : Stmt) (Γ : List (List Token)),
    ((s.words Γ).filterMap Word.id?).Perm s.ids
  | .expression e, Γ => Expr.words_ids e Γ
  | .print e, Γ => Expr.words_ids e Γ
  | .var _ initializer, Γ => Expr.words?_ids initializer Γ
  | .block body, _ => Stmt.wordsAll_ids body _
  | .ite condition thenBranch elseBranch, Γ => by
    simp only [Stmt.words, List.filterMap_append]
    exact (Expr.words_ids condition Γ).append
      ((Stmt.words_ids thenBranch Γ).append (Stmt.words?_ids elseBranch Γ))
  | .loop condition body increment, Γ => by
    simp only [Stmt.words, List.filterMap_append]
    exact (Expr.words_ids condition Γ).append
      (((Expr.words?_ids increment Γ).append (Stmt.words_ids body Γ)).trans List.perm_append_comm)
  | .break _, _ | .continue _, _ | .breakError _, _ | .continueError _, _ => .refl _
  | .function (.mk _ function), Γ => Lambda.words_ids function Γ
  | .return _ value, Γ => Expr.words?_ids value Γ
  | .class _ superclass own statics, Γ => by
    simp only [Stmt.words, List.filterMap_cons, Word.id?_named, List.filterMap_append]
    refine .append ?_ ((FunctionDecl.wordsAll_ids own _).append (FunctionDecl.wordsAll_ids statics _))
    cases superclass <;> exact .refl _

theorem Stmt.words?_ids : ∀ (s? : Option Stmt) (Γ : List (List Token)),
    ((Stmt.words? Γ s?).filterMap Word.id?).Perm (Stmt.ids? s?)
  | none, _ => .refl _
  | some s, Γ => Stmt.words_ids s Γ

theorem Stmt.wordsAll_ids : ∀ (body : List Stmt) (Γ : List (List Token)),
    ((Stmt.wordsAll Γ body).filterMap Word.id?).Perm (Stmt.idsAll body)
  | [], _ => .refl _
  | s :: rest, Γ => by
    simp only [Stmt.wordsAll, List.filterMap_append]
    exact (Stmt.words_ids s Γ).append (Stmt.wordsAll_ids rest Γ)

theorem FunctionDecl.wordsAll_ids : ∀ (decls : List FunctionDecl) (Γ : List (List Token)),
    ((FunctionDecl.wordsAll Γ decls).filterMap Word.id?).Perm (FunctionDecl.idsAll decls)
  | [], _ => .refl _
  | .mk _ function :: rest, Γ => by
    simp only [FunctionDecl.wordsAll, List.filterMap_cons, Word.id?_other, List.filterMap_append]
    exact (Lambda.words_ids function Γ).append (FunctionDecl.wordsAll_ids rest Γ)

theorem Lambda.words_ids : ∀ (f : Lambda) (Γ : List (List Token)),
    ((f.words Γ).filterMap Word.id?).Perm f.ids
  | .mk params body, Γ => by
    have hparams (Γ' : List (List Token)) :
        (params.map (⟨.variable, ·, Γ'⟩)).filterMap Word.id? = [] := by
      simp [List.filterMap_eq_nil_iff]
    simp only [Lambda.words, List.filterMap_append, hparams, List.nil_append]
    exact Stmt.wordsAll_ids body _

end

theorem Program.words_ids : ∀ p : Program, (p.words.filterMap Word.id?).Perm p.ids
  | .statements body => Stmt.wordsAll_ids body []
  | .expression e => Expr.words_ids e []

/-- Tokens are told apart by their lines and lexemes. -/
def Token.same (t t' : Token) : Bool := t'.line == t.line && t'.lexeme == t.lexeme

/-- The word is the declaration of the variable, or a name that the hops lead to a scope which has the
variable. -/
def Word.belongsTo (hops : NodeId → Option Nat) (v : Token) (w : Word) : Bool :=
  match w.use with
  | .variable => v.same w.token
  | .refers id =>
    w.token.lexeme == v.lexeme && (((hops id).bind (w.scopes[·]?)).getD []).any v.same
  | .named | .other => false

/-- Some of the words of a text. What declares a variable is a name. -/
structure Drawn (ts : List Token) (ws : List Word) : Prop where
  tokens : (ws.map Word.token).Subperm ts
  names : ∀ w ∈ ws, w.use = .variable → w.token.kind = .identifier

namespace Drawn

variable {ts us : List Token} {ws vs : List Word}

theorem nil (ts : List Token) : Drawn ts [] := ⟨List.nil_subperm, List.forall_mem_nil _⟩

theorem append (h : Drawn ts ws) (h' : Drawn us vs) : Drawn (ts ++ us) (ws ++ vs) := by
  refine ⟨?_, List.forall_mem_append.2 ⟨h.names, h'.names⟩⟩
  rw [List.map_append]
  exact h.tokens.append h'.tokens

theorem cons (use : Use) (t : Token) (Γ : List (List Token))
    (ht : use = .variable → t.kind = .identifier) (h : Drawn ts ws) :
    Drawn (t :: ts) (⟨use, t, Γ⟩ :: ws) :=
  ⟨(List.subperm_cons t).2 h.tokens, List.forall_mem_cons.2 ⟨ht, h.names⟩⟩

theorem skip (t : Token) (h : Drawn ts ws) : Drawn (t :: ts) ws :=
  ⟨h.tokens.trans (List.sublist_cons_self t ts).subperm, h.names⟩

theorem perm (h : Drawn ts ws) (hperm : vs.Perm ws) : Drawn ts vs :=
  ⟨(hperm.map Word.token).subperm.trans h.tokens, fun w hw => h.names w (hperm.subset hw)⟩

/-- The words come first, and others after them. -/
theorem before (h : Drawn ts ws) (us : List Token) : Drawn (ts ++ us) ws := by
  have happend := h.append (nil us)
  rwa [List.append_nil] at happend

/-- A word that declares no variable. -/
theorem plain (t : Token) (Γ : List (List Token)) (h : Drawn ts ws) :
    Drawn (t :: ts) (⟨.other, t, Γ⟩ :: ws) := cons .other t Γ nofun h

theorem reference (ref : Reference) (Γ : List (List Token)) (h : Drawn ts ws) :
    Drawn (ref.name :: ts) (ref.word Γ :: ws) := cons (.refers ref.id) ref.name Γ nofun h

theorem «variable» {t : Token} (ht : t.kind = .identifier) (Γ : List (List Token)) (h : Drawn ts ws) :
    Drawn (t :: ts) (⟨.variable, t, Γ⟩ :: ws) := cons .variable t Γ (fun _ => ht) h

end Drawn

namespace Phrase

variable {Γ : List (List Token)}

theorem Names.drawn {ts names : List Token} (h : Names ts names) :
    Drawn ts (names.map (⟨.variable, ·, Γ⟩)) := by
  induction h with
  | last ht => exact .variable ht Γ (.nil [])
  | more ht hc hs ih => exact .variable ht Γ (ih.skip _)

theorem Parameters.drawn {ts names : List Token} (h : Parameters ts names) :
    Drawn ts (names.map (⟨.variable, ·, Γ⟩)) := by
  cases h with
  | none => exact .nil []
  | some hs hn => exact hs.drawn

theorem Superclass.drawn {ts : List Token} {superclass : Option Reference}
    (h : Superclass ts superclass) : Drawn ts (superclass.map (·.word Γ)).toList := by
  cases h with
  | none => exact .nil []
  | @some less ref hl hr => exact (Drawn.reference ref Γ (.nil [])).skip less

theorem forLoop_drawn {is ts : List Token} {initializer : Option Stmt}
    {condition increment : Option Expr} {body : Stmt} (Γ : List (List Token))
    (hi : ∀ Γ, Drawn is (Stmt.words? Γ initializer))
    (h : ∀ Γ, Drawn ts (Expr.words? Γ condition ++ (Expr.words? Γ increment ++ body.words Γ))) :
    Drawn (is ++ ts) ((forLoop initializer condition increment body).words Γ) := by
  have hcondition (Γ : List (List Token)) :
      (condition.getD (.literal (.boolean true))).words Γ = Expr.words? Γ condition := by
    cases condition <;> rfl
  have hloop (Γ : List (List Token)) : Drawn ts
      ((Stmt.loop (condition.getD (.literal (.boolean true))) body increment).words Γ) := by
    rw [Stmt.words, hcondition]
    exact h Γ
  cases initializer with
  | none => exact (hi Γ).append (hloop Γ)
  | some first =>
    unfold forLoop
    simp only [Stmt.words, Stmt.wordsAll, List.append_nil]
    exact (hi _).append (hloop _)

mutual

theorem Expression.drawn : ∀ {ts : List Token} {e : Expr} {Γ : List (List Token)},
    Expression ts e → Drawn ts (e.words Γ)
  | _, _, _, .conditional h => Conditional.drawn h
  | _, _, _, .assign _ _ h => .reference _ _ ((Expression.drawn h).skip _)
  | _, _, _, .set ho _ _ _ h =>
    (Call.drawn ho).append (.skip _ (.plain _ _ (.skip _ (Expression.drawn h))))

theorem Conditional.drawn : ∀ {ts : List Token} {e : Expr} {Γ : List (List Token)},
    Conditional ts e → Drawn ts (e.words Γ)
  | _, _, _, .binary h => Binary.drawn h
  | _, _, _, .conditional hc _ ht _ hf =>
    (Binary.drawn hc).append (.skip _ ((Conditional.drawn ht).append (.skip _ (Conditional.drawn hf))))

theorem Binary.drawn : ∀ {levels : List (List TokenKind)} {ts : List Token} {e : Expr}
    {Γ : List (List Token)}, Binary levels ts e → Drawn ts (e.words Γ)
  | _, _, _, _, .unary h => Unary.drawn h
  | _, _, _, _, .tighter h => Binary.drawn h
  | _, _, _, _, .operator hl _ hr => (Binary.drawn hl).append (.plain _ _ (Binary.drawn hr))

theorem Unary.drawn : ∀ {ts : List Token} {e : Expr} {Γ : List (List Token)},
    Unary ts e → Drawn ts (e.words Γ)
  | _, _, _, .operator _ h => .plain _ _ (Unary.drawn h)
  | _, _, _, .call h => Call.drawn h

theorem Call.drawn : ∀ {ts : List Token} {e : Expr} {Γ : List (List Token)},
    Call ts e → Drawn ts (e.words Γ)
  | _, _, _, .primary h => Primary.drawn h
  | _, _, _, .noArguments h _ _ => (Call.drawn h).append (.skip _ (.plain _ _ (.nil [])))
  | _, _, _, .arguments h _ ha _ _ =>
    (Call.drawn h).append (.skip _ ((Arguments.drawn ha).append (.plain _ _ (.nil []))))
  | _, _, _, .property h _ _ => (Call.drawn h).append (.skip _ (.plain _ _ (.nil [])))

theorem Arguments.drawn : ∀ {ts : List Token} {es : List Expr} {Γ : List (List Token)},
    Arguments ts es → Drawn ts (Expr.wordsAll Γ es)
  | _, _, _, .last h => by
    unfold Expr.wordsAll
    rw [Expr.wordsAll, List.append_nil]
    exact Expression.drawn h
  | _, _, _, .more h hc hs => (Expression.drawn h).append (.skip _ (Arguments.drawn hs))

theorem Primary.drawn : ∀ {ts : List Token} {e : Expr} {Γ : List (List Token)},
    Primary ts e → Drawn ts (e.words Γ)
  | _, _, _, .false _ | _, _, _, .true _ | _, _, _, .nil _ | _, _, _, .literal _ => .nil _
  | _, _, _, .this _ | _, _, _, .variable _ => .reference _ _ (.nil [])
  | _, _, _, .super _ _ _ => .reference _ _ (.skip _ (.plain _ _ (.nil [])))
  | _, _, _, .grouping _ h _ => .skip _ ((Expression.drawn h).before _)
  | _, _, _, .lambda _ h => .skip _ (Function.drawn h)

theorem Function.drawn : ∀ {ts : List Token} {f : Lambda} {Γ : List (List Token)},
    Function ts f → Drawn ts (f.words Γ)
  | _, _, _, .mk _ hp _ _ hb _ =>
    .skip _ (hp.drawn.append (.skip _ (.skip _ ((Declarations.drawn hb).before _))))

theorem Declarations.drawn : ∀ {inLoop : Bool} {ts : List Token} {body : List Stmt}
    {Γ : List (List Token)}, Declarations inLoop ts body → Drawn ts (Stmt.wordsAll Γ body)
  | _, _, _, _, .nil => .nil []
  | _, _, _, _, .cons h hs => (Declaration.drawn h).append (Declarations.drawn hs)

theorem Declaration.drawn : ∀ {inLoop : Bool} {ts : List Token} {s : Stmt}
    {Γ : List (List Token)}, Declaration inLoop ts s → Drawn ts (s.words Γ)
  | _, _, _, Γ, .class _ _ hs _ hm _ =>
    .skip _ (.cons .named _ Γ nofun (hs.drawn.append (.skip _ ((Methods.drawn hm).before _))))
  | _, _, _, Γ, .function _ _ h => .skip _ (.cons .named _ Γ nofun (Function.drawn h))
  | _, _, _, _, .var _ h => .skip _ (Variable.drawn h)
  | _, _, _, _, .statement h => Statement.drawn h

/-- The methods of both kinds may be mixed. -/
theorem Methods.drawn : ∀ {ts : List Token} {own statics : List FunctionDecl}
    {Γ Γ' : List (List Token)}, Methods ts own statics →
    Drawn ts (FunctionDecl.wordsAll Γ own ++ FunctionDecl.wordsAll Γ' statics)
  | _, _, _, _, _, .none => .nil []
  | _, _, _, Γ, _, .own _ h hs => by
    rw [FunctionDecl.wordsAll, List.cons_append, List.append_assoc]
    exact .plain _ Γ ((Function.drawn h).append (Methods.drawn hs))
  | _, _, _, Γ, Γ', .static _ _ h hs => by
    rw [FunctionDecl.wordsAll]
    refine .skip _ (Drawn.perm ?_ (List.perm_append_comm_assoc _ (_ :: Lambda.words Γ' _) _))
    exact .plain _ Γ' ((Function.drawn h).append (Methods.drawn hs))

theorem Variable.drawn : ∀ {ts : List Token} {s : Stmt} {Γ : List (List Token)},
    Variable ts s → Drawn ts (s.words Γ)
  | _, _, Γ, .unassigned hn _ => .variable hn Γ (.nil _)
  | _, _, Γ, .initialized hn _ h _ =>
    .variable hn Γ (.skip _ ((Expression.drawn h).before _))

theorem Series.drawn : ∀ {ts : List Token} {e : Expr} {Γ : List (List Token)},
    Series ts e → Drawn ts (e.words Γ)
  | _, _, _, .expression h => Expression.drawn h
  | _, _, _, .comma hl _ hr => (Series.drawn hl).append (.plain _ _ (Expression.drawn hr))

theorem OptionalExpression.drawn : ∀ {ts : List Token} {e? : Option Expr} {Γ : List (List Token)},
    OptionalExpression ts e? → Drawn ts (Expr.words? Γ e?)
  | _, _, _, .none => .nil []
  | _, _, _, .some h => Expression.drawn h

theorem ForInitializer.drawn : ∀ {ts : List Token} {s? : Option Stmt} {Γ : List (List Token)},
    ForInitializer ts s? → Drawn ts (Stmt.words? Γ s?)
  | _, _, _, .none _ => .nil _
  | _, _, _, .var _ h => .skip _ (Variable.drawn h)
  | _, _, _, .expression h _ => (Series.drawn h).before _

theorem Statement.drawn : ∀ {inLoop dangles : Bool} {ts : List Token} {s : Stmt}
    {Γ : List (List Token)}, Statement inLoop dangles ts s → Drawn ts (s.words Γ)
  | _, _, _, _, _, .expression h hs => (Series.drawn h).before _
  | _, _, _, _, _, .print hk h hs => .skip _ ((Series.drawn h).before _)
  | _, _, _, _, Γ, .for hk ho hi hc hs hn hcl hb =>
    .skip _ (.skip _ (forLoop_drawn Γ (fun _ => ForInitializer.drawn hi) fun _ =>
      (OptionalExpression.drawn hc).append
        (.skip _ ((OptionalExpression.drawn hn).append (.skip _ (Statement.drawn hb))))))
  | _, _, _, _, _, .while hk ho hc hcl hb =>
    .skip _ (.skip _ ((Expression.drawn hc).append (.skip _ (Statement.drawn hb))))
  | _, _, _, _, _, .if hk ho hc hcl ht =>
    .skip _ (.skip _ ((Expression.drawn hc).append (.skip _ (by
      rw [Stmt.words?, List.append_nil]
      exact Statement.drawn ht))))
  | _, _, _, _, _, .ifElse hk ho hc hcl ht hm he =>
    .skip _ (.skip _ ((Expression.drawn hc).append
      (.skip _ ((Statement.drawn ht).append (.skip _ (Statement.drawn he))))))
  | _, _, _, _, _, .return hk hv hs => .plain _ _ ((OptionalExpression.drawn hv).before _)
  | _, _, _, _, _, .break _ _ | _, _, _, _, _, .continue _ _ => .plain _ _ (.nil _)
  | _, _, _, _, _, .block hl hb hr => .skip _ ((Declarations.drawn hb).before _)

end

end Phrase

end Lox
