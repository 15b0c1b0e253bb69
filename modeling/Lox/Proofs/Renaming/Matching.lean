import Lox.Proofs.Renaming.Words
import Lox.Proofs.Syntax.Relabel
import Mathlib.Data.List.Forall2

/-!
Two trees of one shape, whose tokens match place by place. Some of the scopes around a place are
marked, and what matches depends on the mark of the scope in which a name is looked up.
-/

namespace Lox

/-- Which tokens match in a scope with a mark and in one without. The hops tell the scope in which an
occurrence is looked up. -/
structure Matching where
  hops : NodeId → Option Nat
  token : Bool → Token → Token → Prop

/-- The mark of the scope in which an occurrence is looked up. At top level there is none. -/
def Matching.mark (M : Matching) (Γ : List Bool) (id : NodeId) : Bool :=
  ((M.hops id).bind (Γ[·]?)).getD false

structure Reference.Matched (M : Matching) (Γ : List Bool) (ref ref' : Reference) : Prop where
  id : ref'.id = ref.id
  name : M.token (M.mark Γ ref.id) ref.name ref'.name

/-- The scope of `super`, which is never marked, comes before those around the class. -/
def superMarks {α : Type} (superclass : Option α) (Γ : List Bool) : List Bool :=
  (superclass.map fun _ => false).toList ++ Γ

mutual

/-- Two expressions match within scopes with these marks, innermost first. -/
inductive Expr.Matched (M : Matching) : List Bool → Expr → Expr → Prop where
  | literal {Γ} (value : Literal) : Expr.Matched M Γ (.literal value) (.literal value)
  | grouping {Γ inner inner'} (h : Expr.Matched M Γ inner inner') :
    Expr.Matched M Γ (.grouping inner) (.grouping inner')
  | unary {Γ op op' right right'} (hop : M.token false op op')
    (hr : Expr.Matched M Γ right right') : Expr.Matched M Γ (.unary op right) (.unary op' right')
  | binary {Γ left left' op op' right right'} (hl : Expr.Matched M Γ left left')
    (hop : M.token false op op') (hr : Expr.Matched M Γ right right') :
    Expr.Matched M Γ (.binary left op right) (.binary left' op' right')
  | binaryError {Γ op op' right right'} (hop : M.token false op op')
    (hr : Expr.Matched M Γ right right') :
    Expr.Matched M Γ (.binaryError op right) (.binaryError op' right')
  | conditional {Γ c c' t t' f f'} (hc : Expr.Matched M Γ c c') (ht : Expr.Matched M Γ t t')
    (hf : Expr.Matched M Γ f f') : Expr.Matched M Γ (.conditional c t f) (.conditional c' t' f')
  | variable {Γ ref ref'} (h : ref.Matched M Γ ref') : Expr.Matched M Γ (.variable ref) (.variable ref')
  | assign {Γ ref ref' value value'} (h : ref.Matched M Γ ref')
    (hv : Expr.Matched M Γ value value') : Expr.Matched M Γ (.assign ref value) (.assign ref' value')
  | call {Γ callee callee' paren paren' args args'} (hc : Expr.Matched M Γ callee callee')
    (hp : M.token false paren paren') (ha : Expr.MatchedAll M Γ args args') :
    Expr.Matched M Γ (.call callee paren args) (.call callee' paren' args')
  | get {Γ object object' name name'} (ho : Expr.Matched M Γ object object')
    (hn : M.token false name name') : Expr.Matched M Γ (.get object name) (.get object' name')
  | set {Γ object object' name name' value value'} (ho : Expr.Matched M Γ object object')
    (hn : M.token false name name') (hv : Expr.Matched M Γ value value') :
    Expr.Matched M Γ (.set object name value) (.set object' name' value')
  | this {Γ ref ref'} (h : ref.Matched M Γ ref') : Expr.Matched M Γ (.this ref) (.this ref')
  | super {Γ ref ref' method method'} (h : ref.Matched M Γ ref')
    (hm : M.token false method method') : Expr.Matched M Γ (.super ref method) (.super ref' method')
  | lambda {Γ f f'} (h : Lambda.Matched M Γ f f') : Expr.Matched M Γ (.lambda f) (.lambda f')

inductive Expr.MatchedAll (M : Matching) : List Bool → List Expr → List Expr → Prop where
  | nil {Γ} : Expr.MatchedAll M Γ [] []
  | cons {Γ e e' es es'} (h : Expr.Matched M Γ e e') (hs : Expr.MatchedAll M Γ es es') :
    Expr.MatchedAll M Γ (e :: es) (e' :: es')

inductive Expr.Matched? (M : Matching) : List Bool → Option Expr → Option Expr → Prop where
  | none {Γ} : Expr.Matched? M Γ none none
  | some {Γ e e'} (h : Expr.Matched M Γ e e') : Expr.Matched? M Γ (some e) (some e')

/-- The name of a function or of a class matches in its scope as well as in one without a mark. -/
inductive Stmt.Matched (M : Matching) : List Bool → Stmt → Stmt → Prop where
  | expression {Γ e e'} (h : Expr.Matched M Γ e e') : Stmt.Matched M Γ (.expression e) (.expression e')
  | print {Γ e e'} (h : Expr.Matched M Γ e e') : Stmt.Matched M Γ (.print e) (.print e')
  | var {Γ name name' e e'} (hn : M.token (Γ.headD false) name name')
    (h : Expr.Matched? M Γ e e') : Stmt.Matched M Γ (.var name e) (.var name' e')
  | block {Γ m body body'} (h : Stmt.MatchedAll M (m :: Γ) body body') :
    Stmt.Matched M Γ (.block body) (.block body')
  | ite {Γ c c' t t' f f'} (hc : Expr.Matched M Γ c c') (ht : Stmt.Matched M Γ t t')
    (hf : Stmt.Matched? M Γ f f') : Stmt.Matched M Γ (.ite c t f) (.ite c' t' f')
  | loop {Γ c c' body body' i i'} (hc : Expr.Matched M Γ c c') (hb : Stmt.Matched M Γ body body')
    (hi : Expr.Matched? M Γ i i') : Stmt.Matched M Γ (.loop c body i) (.loop c' body' i')
  | break {Γ t t'} (h : M.token false t t') : Stmt.Matched M Γ (.break t) (.break t')
  | continue {Γ t t'} (h : M.token false t t') : Stmt.Matched M Γ (.continue t) (.continue t')
  | breakError {Γ t t'} (h : M.token false t t') : Stmt.Matched M Γ (.breakError t) (.breakError t')
  | continueError {Γ t t'} (h : M.token false t t') :
    Stmt.Matched M Γ (.continueError t) (.continueError t')
  | function {Γ name name' f f'} (hs : M.token (Γ.headD false) name name')
    (hn : M.token false name name') (h : Lambda.Matched M Γ f f') :
    Stmt.Matched M Γ (.function (.mk name f)) (.function (.mk name' f'))
  | return {Γ t t' e e'} (ht : M.token false t t') (h : Expr.Matched? M Γ e e') :
    Stmt.Matched M Γ (.return t e) (.return t' e')
  | class {Γ name name' superclass superclass' own own' statics statics'}
    (hs : M.token (Γ.headD false) name name') (hn : M.token false name name')
    (h : Option.Rel (Reference.Matched M Γ) superclass superclass')
    (hown : FunctionDecl.MatchedAll M (false :: superMarks superclass Γ) own own')
    (hstatics : FunctionDecl.MatchedAll M (superMarks superclass Γ) statics statics') :
    Stmt.Matched M Γ (.class name superclass own statics) (.class name' superclass' own' statics')

inductive Stmt.MatchedAll (M : Matching) : List Bool → List Stmt → List Stmt → Prop where
  | nil {Γ} : Stmt.MatchedAll M Γ [] []
  | cons {Γ s s' rest rest'} (h : Stmt.Matched M Γ s s') (hs : Stmt.MatchedAll M Γ rest rest') :
    Stmt.MatchedAll M Γ (s :: rest) (s' :: rest')

inductive Stmt.Matched? (M : Matching) : List Bool → Option Stmt → Option Stmt → Prop where
  | none {Γ} : Stmt.Matched? M Γ none none
  | some {Γ s s'} (h : Stmt.Matched M Γ s s') : Stmt.Matched? M Γ (some s) (some s')

inductive FunctionDecl.MatchedAll (M : Matching) :
    List Bool → List FunctionDecl → List FunctionDecl → Prop where
  | nil {Γ} : FunctionDecl.MatchedAll M Γ [] []
  | cons {Γ name name' f f' rest rest'} (hn : M.token false name name')
    (h : Lambda.Matched M Γ f f') (hs : FunctionDecl.MatchedAll M Γ rest rest') :
    FunctionDecl.MatchedAll M Γ (.mk name f :: rest) (.mk name' f' :: rest')

/-- Parameters and body share one scope. -/
inductive Lambda.Matched (M : Matching) : List Bool → Lambda → Lambda → Prop where
  | mk {Γ m params params' body body'} (hp : List.Forall₂ (M.token m) params params')
    (h : Stmt.MatchedAll M (m :: Γ) body body') :
    Lambda.Matched M Γ (.mk params body) (.mk params' body')

end

inductive Program.Matched (M : Matching) : Program → Program → Prop where
  | statements {body body'} (h : Stmt.MatchedAll M [] body body') :
    Matched M (.statements body) (.statements body')
  | expression {e e'} (h : Expr.Matched M [] e e') : Matched M (.expression e) (.expression e')

theorem Expr.Matched?.isSome {M : Matching} {Γ : List Bool} {e e' : Option Expr}
    (h : Expr.Matched? M Γ e e') : e'.isSome = e.isSome := by
  cases h <;> rfl

/-- Two spellings of the word match, where the scopes are marked that have such a variable. -/
def Word.Fits (M : Matching) (marks : Token → Bool) (f g : Token → Token) (w : Word) : Prop :=
  let Γ := w.scopes.map (·.any marks)
  match w.use with
  | .variable => M.token (Γ.headD false) (f w.token) (g w.token)
  | .named => M.token (Γ.headD false) (f w.token) (g w.token) ∧
    M.token false (f w.token) (g w.token)
  | .refers id => M.token (M.mark Γ id) (f w.token) (g w.token)
  | .other => M.token false (f w.token) (g w.token)

theorem Matching.mark_unmarked (M : Matching) (k : Nat) (id : NodeId) :
    M.mark (List.replicate k false) id = false := by
  have hall (i : Nat) : ((List.replicate k false)[i]?).getD false = false := by
    rw [List.getElem?_replicate]
    split <;> rfl
  unfold Matching.mark
  cases M.hops id with
  | none => rfl
  | some i => exact hall i

theorem map_unmarked (Γ : List (List Token)) :
    Γ.map (·.any fun _ => false) = List.replicate Γ.length false := by
  rw [List.eq_replicate_iff]
  simp

/-- Where no scope is marked, it is enough that the spellings match without a mark. -/
theorem Word.fits_unmarked {M : Matching} {f g : Token → Token} {w : Word}
    (h : M.token false (f w.token) (g w.token)) : w.Fits M (fun _ => false) f g := by
  have hhead : (List.replicate w.scopes.length false).headD false = false := by
    cases w.scopes.length <;> rfl
  obtain ⟨use, token, scopes⟩ := w
  unfold Word.Fits
  simp only [map_unmarked]
  cases use with
  | «variable» => rwa [hhead]
  | named => exact ⟨by rwa [hhead], h⟩
  | refers id =>
    simp only [M.mark_unmarked]
    exact h
  | other => exact h

/-- What matches in one way matches in another one that looks occurrences up in the same scopes. -/
theorem Word.Fits.imp {M M' : Matching} {marks : Token → Bool} {f g : Token → Token} {w : Word}
    (h : w.Fits M marks f g) (hhops : M'.hops = M.hops)
    (htoken : ∀ m, M.token m (f w.token) (g w.token) → M'.token m (f w.token) (g w.token)) :
    w.Fits M' marks f g := by
  have hmark (Γ : List Bool) (id : NodeId) : M'.mark Γ id = M.mark Γ id := by
    unfold Matching.mark
    rw [hhops]
  unfold Word.Fits at h ⊢
  cases huse : w.use with
  | refers id =>
    simp only [huse, hmark] at h ⊢
    exact htoken _ h
  | named =>
    simp only [huse] at h ⊢
    exact ⟨htoken _ h.1, htoken _ h.2⟩
  | «variable» | other =>
    simp only [huse] at h ⊢
    exact htoken _ h

section Relabelled

variable {M : Matching} {marks : Token → Bool} {f g : Token → Token}

theorem relabel_matched {Γ : List (List Token)} {ref : Reference}
    (h : (ref.word Γ).Fits M marks f g) :
    (ref.relabel f id).Matched M (Γ.map (·.any marks)) (ref.relabel g id) := ⟨rfl, h⟩

mutual

theorem Expr.matched_relabel : ∀ (e : Expr) (Γ : List (List Token)),
    (∀ w ∈ e.words Γ, w.Fits M marks f g) →
    (e.relabel f id).Matched M (Γ.map (·.any marks)) (e.relabel g id)
  | .literal value, _, _ => .literal value
  | .grouping inner, Γ, h => .grouping (Expr.matched_relabel inner Γ h)
  | .unary _ right, Γ, h => by
    simp only [Expr.words, List.forall_mem_cons] at h
    exact .unary h.1 (Expr.matched_relabel right Γ h.2)
  | .binary left _ right, Γ, h => by
    simp only [Expr.words, List.forall_mem_append, List.forall_mem_cons] at h
    exact .binary (Expr.matched_relabel left Γ h.1) h.2.1 (Expr.matched_relabel right Γ h.2.2)
  | .binaryError _ right, Γ, h => by
    simp only [Expr.words, List.forall_mem_cons] at h
    exact .binaryError h.1 (Expr.matched_relabel right Γ h.2)
  | .conditional condition thenBranch elseBranch, Γ, h => by
    simp only [Expr.words, List.forall_mem_append] at h
    exact .conditional (Expr.matched_relabel condition Γ h.1)
      (Expr.matched_relabel thenBranch Γ h.2.1) (Expr.matched_relabel elseBranch Γ h.2.2)
  | .variable _, _, h => .variable (relabel_matched (h _ List.mem_cons_self))
  | .assign _ value, Γ, h => by
    simp only [Expr.words, List.forall_mem_cons] at h
    exact .assign (relabel_matched h.1) (Expr.matched_relabel value Γ h.2)
  | .call callee _ arguments, Γ, h => by
    simp only [Expr.words, List.forall_mem_append, List.forall_mem_singleton] at h
    exact .call (Expr.matched_relabel callee Γ h.1) h.2.2
      (Expr.matched_relabelAll arguments Γ h.2.1)
  | .get object _, Γ, h => by
    simp only [Expr.words, List.forall_mem_append, List.forall_mem_singleton] at h
    exact .get (Expr.matched_relabel object Γ h.1) h.2
  | .set object _ value, Γ, h => by
    simp only [Expr.words, List.forall_mem_append, List.forall_mem_cons] at h
    exact .set (Expr.matched_relabel object Γ h.1) h.2.1 (Expr.matched_relabel value Γ h.2.2)
  | .this _, _, h => .this (relabel_matched (h _ List.mem_cons_self))
  | .super _ _, _, h => by
    simp only [Expr.words, List.forall_mem_cons] at h
    exact .super (relabel_matched h.1) h.2.1
  | .lambda function, Γ, h => .lambda (Lambda.matched_relabel function Γ h)

theorem Expr.matched_relabelAll : ∀ (es : List Expr) (Γ : List (List Token)),
    (∀ w ∈ Expr.wordsAll Γ es, w.Fits M marks f g) →
    Expr.MatchedAll M (Γ.map (·.any marks)) (Expr.relabelAll f id es) (Expr.relabelAll g id es)
  | [], _, _ => .nil
  | e :: rest, Γ, h => by
    simp only [Expr.wordsAll, List.forall_mem_append] at h
    exact .cons (Expr.matched_relabel e Γ h.1) (Expr.matched_relabelAll rest Γ h.2)

theorem Expr.matched_relabel? : ∀ (e? : Option Expr) (Γ : List (List Token)),
    (∀ w ∈ Expr.words? Γ e?, w.Fits M marks f g) →
    Expr.Matched? M (Γ.map (·.any marks)) (Expr.relabel? f id e?) (Expr.relabel? g id e?)
  | none, _, _ => .none
  | some e, Γ, h => .some (Expr.matched_relabel e Γ h)

theorem Stmt.matched_relabel : ∀ (s : Stmt) (Γ : List (List Token)),
    (∀ w ∈ s.words Γ, w.Fits M marks f g) →
    (s.relabel f id).Matched M (Γ.map (·.any marks)) (s.relabel g id)
  | .expression e, Γ, h => .expression (Expr.matched_relabel e Γ h)
  | .print e, Γ, h => .print (Expr.matched_relabel e Γ h)
  | .var _ initializer, Γ, h => by
    simp only [Stmt.words, List.forall_mem_cons] at h
    exact .var h.1 (Expr.matched_relabel? initializer Γ h.2)
  | .block body, Γ, h => .block (Stmt.matched_relabelAll body (Stmt.variables body :: Γ) h)
  | .ite condition thenBranch elseBranch, Γ, h => by
    simp only [Stmt.words, List.forall_mem_append] at h
    exact .ite (Expr.matched_relabel condition Γ h.1) (Stmt.matched_relabel thenBranch Γ h.2.1)
      (Stmt.matched_relabel? elseBranch Γ h.2.2)
  | .loop condition body increment, Γ, h => by
    simp only [Stmt.words, List.forall_mem_append] at h
    exact .loop (Expr.matched_relabel condition Γ h.1) (Stmt.matched_relabel body Γ h.2.2)
      (Expr.matched_relabel? increment Γ h.2.1)
  | .break _, _, h => .break (h _ List.mem_cons_self)
  | .continue _, _, h => .continue (h _ List.mem_cons_self)
  | .breakError _, _, h => .breakError (h _ List.mem_cons_self)
  | .continueError _, _, h => .continueError (h _ List.mem_cons_self)
  | .function (.mk _ function), Γ, h => by
    simp only [Stmt.words, List.forall_mem_cons] at h
    exact .function h.1.1 h.1.2 (Lambda.matched_relabel function Γ h.2)
  | .return _ value, Γ, h => by
    simp only [Stmt.words, List.forall_mem_cons] at h
    exact .return h.1 (Expr.matched_relabel? value Γ h.2)
  | .class _ superclass own statics, Γ, h => by
    simp only [Stmt.words, List.forall_mem_append, List.forall_mem_cons] at h
    obtain ⟨hname, hsuper, hown, hstatics⟩ := h
    have hown := FunctionDecl.matched_relabelAll own _ hown
    have hstatics := FunctionDecl.matched_relabelAll statics _ hstatics
    cases superclass with
    | none => exact .class hname.1 hname.2 .none hown hstatics
    | some ref =>
      have href := relabel_matched (hsuper _ List.mem_cons_self)
      exact .class hname.1 hname.2 (.some href) hown hstatics

theorem Stmt.matched_relabelAll : ∀ (body : List Stmt) (Γ : List (List Token)),
    (∀ w ∈ Stmt.wordsAll Γ body, w.Fits M marks f g) →
    Stmt.MatchedAll M (Γ.map (·.any marks)) (Stmt.relabelAll f id body) (Stmt.relabelAll g id body)
  | [], _, _ => .nil
  | s :: rest, Γ, h => by
    simp only [Stmt.wordsAll, List.forall_mem_append] at h
    exact .cons (Stmt.matched_relabel s Γ h.1) (Stmt.matched_relabelAll rest Γ h.2)

theorem Stmt.matched_relabel? : ∀ (s? : Option Stmt) (Γ : List (List Token)),
    (∀ w ∈ Stmt.words? Γ s?, w.Fits M marks f g) →
    Stmt.Matched? M (Γ.map (·.any marks)) (Stmt.relabel? f id s?) (Stmt.relabel? g id s?)
  | none, _, _ => .none
  | some s, Γ, h => .some (Stmt.matched_relabel s Γ h)

theorem FunctionDecl.matched_relabelAll : ∀ (decls : List FunctionDecl) (Γ : List (List Token)),
    (∀ w ∈ FunctionDecl.wordsAll Γ decls, w.Fits M marks f g) →
    FunctionDecl.MatchedAll M (Γ.map (·.any marks)) (FunctionDecl.relabelAll f id decls)
      (FunctionDecl.relabelAll g id decls)
  | [], _, _ => .nil
  | .mk _ function :: rest, Γ, h => by
    simp only [FunctionDecl.wordsAll, List.forall_mem_append, List.forall_mem_cons] at h
    exact .cons h.1 (Lambda.matched_relabel function Γ h.2.1)
      (FunctionDecl.matched_relabelAll rest Γ h.2.2)

theorem Lambda.matched_relabel : ∀ (function : Lambda) (Γ : List (List Token)),
    (∀ w ∈ function.words Γ, w.Fits M marks f g) →
    (function.relabel f id).Matched M (Γ.map (·.any marks)) (function.relabel g id)
  | .mk params body, Γ, h => by
    simp only [Lambda.words, List.forall_mem_append, List.forall_mem_map] at h
    refine .mk ?_ (Stmt.matched_relabelAll body _ h.2)
    rw [List.forall₂_map_left_iff, List.forall₂_map_right_iff, List.forall₂_same]
    exact h.1

end

/-- Two spellings of a program match when they do so word by word. -/
theorem Program.matched_relabel {p : Program} (h : ∀ w ∈ p.words, w.Fits M marks f g) :
    (p.relabel f id).Matched M (p.relabel g id) := by
  cases p with
  | statements body => exact .statements (Stmt.matched_relabelAll body [] h)
  | expression e => exact .expression (Expr.matched_relabel e [] h)

end Relabelled

end Lox
