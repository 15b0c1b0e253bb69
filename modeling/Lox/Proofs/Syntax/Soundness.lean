import Lox.Proofs.Outcome
import Lox.Proofs.Syntax.Phrase
import Lox.Proofs.Syntax.Reading

/-!
What the readers take without a fault is a phrase of the grammar, with the tree that they give. The
fuel that a reader needs is bounded by the number of words left.
-/

namespace Lox.Reader

open Phrase

variable {α : Type} {n : Nat} {c : Cursor}

section Lists

variable {D : List Token → α → Prop} {P : List Token → List α → Prop} {item : Reader α}
  {tooMany : SyntaxFault} {most : Nat}

/-- A reported list is not derived, so every list that is has at most 255 items. -/
theorem reads_listed (hlast : ∀ ts a, D ts a → P ts [a])
    (hmore : ∀ ts comma us a as, D ts a → comma.kind = .comma → P us as →
      P (ts ++ comma :: us) (a :: as))
    (hitem : ∀ c', c'.rest.length ≤ most → Reads c' 1 D item) (count : Nat)
    (hm : c.rest.length ≤ most) (hn : c.rest.length < n) :
    Reads c 1 (fun ts as => P ts as ∧ count + as.length ≤ 255) (listed tooMany item n count) := by
  induction n generalizing c count with
  | zero => omega
  | succ n ih =>
    have tail : ∀ c', c'.rest.length ≤ c.rest.length → Reads c' 1
        (fun ts as => count < 255 → P ts as ∧ count + as.length ≤ 255)
        (itemAndOthers item (listed tooMany item n (count + 1))) := by
      intro c' hc'
      apply (hitem c' (by omega)).bind
      intro first d ts hd hts
      refine .accept (.pure fun hf hcount => ?_) fun comma e he hcomma => ?_
      · rw [List.append_nil]
        exact ⟨hlast ts first hf, hcount⟩
      · apply (ih (count + 1) (by omega) (by omega)).bind
        intro others f us _ _
        apply Reads.pure
        intro hothers hf hcount
        rw [List.append_nil]
        refine ⟨hmore ts comma us first others hf (by simpa using hcomma) hothers.1, ?_⟩
        rw [List.length_cons]
        omega
    by_cases hcount : maxListed ≤ count
    · rw [listed_full hcount]
      exact Reads.reportHere.bind fun _ d ts hd _ =>
        (tail d (by omega)).mono (Nat.le_refl _) fun _ _ _ h => h.elim
    · rw [listed_more hcount]
      exact (tail c (Nat.le_refl _)).mono (Nat.le_refl _) fun _ _ h =>
        h (by unfold maxListed at hcount; omega)

theorem reads_listedOrNone (hlast : ∀ ts a, D ts a → P ts [a])
    (hmore : ∀ ts comma us a as, D ts a → comma.kind = .comma → P us as →
      P (ts ++ comma :: us) (a :: as))
    (hitem : ∀ c', c'.rest.length ≤ c.rest.length → Reads c' 1 D item)
    (hn : c.rest.length < n) :
    Reads c 0 (fun ts as => ts = [] ∧ as = [] ∨ P ts as ∧ as.length ≤ 255)
      (listedOrNone n tooMany item) := by
  unfold listedOrNone
  apply Reads.sees.bind
  intro b d ts hd _
  cases b with
  | true => exact .pure fun hts => .inl ⟨by simp [hts], rfl⟩
  | false =>
    have h : Reads d 1 (fun ts as => P ts as ∧ 0 + as.length ≤ 255) (listed tooMany item n 0) :=
      reads_listed hlast hmore hitem 0 (by omega) (by omega)
    refine h.mono (Nat.zero_le _) fun us as h hts => .inr ?_
    rw [hts, List.nil_append]
    exact ⟨h.1, by omega⟩

end Lists

/-- Parameters are names with commas between them. -/
theorem reads_parameters (hn : c.rest.length < n) :
    Reads c 0 Parameters
      (listedOrNone n .tooManyParameters (expect .identifier .parameterName)) := by
  refine (reads_listedOrNone (P := Names) ?_ ?_ (fun _ _ => .expect) hn).mono (Nat.le_refl _) ?_
  · rintro _ t ⟨rfl, ht⟩
    exact .last ht
  · rintro _ comma us t names ⟨rfl, ht⟩ hc hs
    exact .more ht hc hs
  · rintro ts names (⟨rfl, rfl⟩ | ⟨hs, hl⟩)
    · exact .none
    · exact .some hs hl

section Operators

variable {D P : List Token → Expr → Prop} {kinds : List TokenKind} {operand : Reader Expr}
  {most : Nat}

/-- Each turn of the loop adds an operator and its right operand to the words on the left. -/
theorem reads_operands
    (hstep : ∀ us l op vs r, P us l → op.kind ∈ kinds → D vs r → P (us ++ op :: vs) (.binary l op r))
    (hoperand : ∀ c', c'.rest.length ≤ most → Reads c' 1 D operand) (left : Expr)
    (hm : c.rest.length ≤ most) (hn : c.rest.length < n) :
    Reads c 0 (fun ts e => ∀ us, P us left → P (us ++ ts) e) (operands kinds operand n left) := by
  induction n generalizing c left with
  | zero => omega
  | succ n ih =>
    unfold operands
    refine .accept (.pure fun us h => by rwa [List.append_nil]) fun op d hd hop => ?_
    apply (hoperand d (by omega)).bind
    intro right e ts he hts
    refine (ih (.binary left op right) (by omega) (by omega)).mono (Nat.zero_le _) ?_
    intro us e h hright vs hleft
    have := h _ (hstep vs left op ts right hleft hop hright)
    simpa using this

theorem reads_leftAssociative (hfirst : ∀ ts e, D ts e → P ts e)
    (hstep : ∀ us l op vs r, P us l → op.kind ∈ kinds → D vs r → P (us ++ op :: vs) (.binary l op r))
    (hoperand : ∀ c', c'.rest.length ≤ c.rest.length → Reads c' 1 D operand)
    (hn : c.rest.length < n) : Reads c 1 P (leftAssociative n kinds operand) := by
  unfold leftAssociative
  apply (hoperand c (Nat.le_refl _)).bind
  intro left d ts hd hts
  refine (reads_operands hstep hoperand left (by omega) (by omega)).mono (Nat.le_refl _) ?_
  intro us e h hleft
  exact h ts (hfirst ts left hleft)

end Operators

theorem reads_binary {operand : Reader Expr} (levels : List (List TokenKind))
    (hoperand : ∀ c', c'.rest.length ≤ c.rest.length → Reads c' 1 Unary operand)
    (hn : c.rest.length < n) :
    Reads c 1 (Binary levels) (levels.foldr (leftAssociative n) operand) := by
  induction levels generalizing c with
  | nil => exact (hoperand c (Nat.le_refl _)).mono (Nat.le_refl _) fun _ _ h => .unary h
  | cons kinds levels ih =>
    refine reads_leftAssociative (D := Binary levels) (fun _ _ h => .tighter h)
      (fun _ _ _ _ _ hl hop hr => .operator hl hop hr) (fun c' hc' => ?_) hn
    exact ih (fun d hd => hoperand d (by omega)) (by omega)

section Expressions

variable {expression : Reader Expr} {declarations : Reader (List Stmt)}

theorem reads_arguments (hexpr : ∀ c', c'.rest.length ≤ c.rest.length → Reads c' 1 Expression expression)
    (hn : c.rest.length < n) :
    Reads c 0 (fun ts args => ts = [] ∧ args = [] ∨ Arguments ts args ∧ args.length ≤ 255)
      (listedOrNone n .tooManyArguments expression) :=
  reads_listedOrNone (fun _ _ h => .last h) (fun _ _ _ _ _ h hc hs => .more h hc hs) hexpr hn

theorem reads_callTail {most : Nat}
    (hexpr : ∀ c', c'.rest.length ≤ most → Reads c' 1 Expression expression) (callee : Expr)
    (hm : c.rest.length ≤ most) (hn : c.rest.length < n) :
    Reads c 0 (fun ts e => ∀ us, Call us callee → Call (us ++ ts) e) (callTail expression n callee) := by
  induction n generalizing c callee with
  | zero => omega
  | succ n ih =>
    unfold callTail
    refine .accept (.pure fun us h => by rwa [List.append_nil]) fun opener d hd hop => ?_
    by_cases hopener : opener.kind = .leftParen
    · simp only [if_pos hopener]
      apply (reads_arguments (fun d' hd' => hexpr d' (by omega)) (by omega)).bind
      intro arguments e ts he _
      apply Reads.expect.bind
      intro paren f us hf _
      refine (ih (.call callee paren arguments) (by omega) (by omega)).mono (Nat.zero_le _) ?_
      rintro vs r h ⟨rfl, hparen⟩ hargs ws hcallee
      rcases hargs with ⟨rfl, rfl⟩ | ⟨hargs, hlen⟩
      · have := h _ (.noArguments hcallee hopener hparen)
        simpa using this
      · have := h _ (.arguments hcallee hopener hargs hlen hparen)
        simpa using this
    · simp only [if_neg hopener]
      have hdot : opener.kind = .dot := by simpa [hopener] using hop
      apply Reads.expect.bind
      intro name e ts he _
      refine (ih (.get callee name) (by omega) (by omega)).mono (Nat.zero_le _) ?_
      rintro vs r h ⟨rfl, hname⟩ ws hcallee
      have := h _ (.property hcallee hdot hname)
      simpa using this

/-- The opening parenthesis has been read before. -/
theorem reads_lambda {role : FunctionRole}
    (hdecl : ∀ c', c'.rest.length ≤ c.rest.length → Reads c' 0 (Declarations false) declarations)
    (hn : c.rest.length < n) :
    Reads c 1 (fun ts f => ∀ opener : Token, opener.kind = .leftParen → Function (opener :: ts) f)
      (lambda n role declarations) := by
  unfold lambda
  apply (reads_parameters hn).bind
  intro params d ps hd _
  apply Reads.expect.bind
  intro closer e ts he _
  apply Reads.expect.bind
  intro left f us hf _
  apply (hdecl f (by omega)).bind
  intro body g bs hg _
  apply Reads.expect.bind
  intro right h vs hh _
  refine .pure ?_
  rintro ⟨rfl, hright⟩ hbody ⟨rfl, hleft⟩ ⟨rfl, hcloser⟩ hparams opener hopener
  simpa using Function.mk hopener hparams hcloser hleft hbody hright

theorem reads_function {role : FunctionRole}
    (hdecl : ∀ c', c'.rest.length ≤ c.rest.length → Reads c' 0 (Declarations false) declarations)
    (hn : c.rest.length < n) :
    Reads c 1 (fun ts decl => ∃ name us f, ts = name :: us ∧ name.kind = .identifier ∧
      Function us f ∧ decl = .mk name f) (function n role declarations) := by
  unfold function
  apply Reads.expect.bind
  intro name d ts hd _
  apply Reads.expect.bind
  intro opener e us he _
  apply (reads_lambda (fun c' hc' => hdecl c' (by omega)) (by omega)).bind
  intro f g vs hg _
  refine .pure ?_
  rintro hf ⟨rfl, hopener⟩ ⟨rfl, hname⟩
  exact ⟨name, opener :: vs, f, by simp, hname, hf opener hopener, rfl⟩

theorem reads_methods {most : Nat}
    (hdecl : ∀ c', c'.rest.length ≤ most → Reads c' 0 (Declarations false) declarations)
    (hm : c.rest.length ≤ most) (hn : c.rest.length + 1 < n) :
    Reads c 0 (fun ts ms => Methods ts ms.1 ms.2) (methods declarations n) := by
  induction n generalizing c with
  | zero => omega
  | succ n ih =>
    unfold methods
    apply Reads.ended.bind
    intro b d _ hd _
    cases b with
    | true => exact .pure fun hts => by rw [hts]; exact .none
    | false =>
      refine .accept ?_ fun keyword e he hkeyword => ?_
      · apply (reads_function (fun c' hc' => hdecl c' (by omega)) (by omega)).bind
        intro first e us he hus
        apply (ih (by omega) (by omega)).bind
        intro ms f vs _ _
        apply Reads.pure
        rintro hms ⟨name, ws, g, rfl, hname, hg, rfl⟩ rfl
        simpa using Methods.own hname hg hms
      · apply (reads_function (fun c' hc' => hdecl c' (by omega)) (by omega)).bind
        intro first f us hf hus
        apply (ih (by omega) (by omega)).bind
        intro ms g vs _ _
        apply Reads.pure
        rintro hms ⟨name, ws, g, rfl, hname, hg, rfl⟩ rfl
        simpa using Methods.static (by simpa using hkeyword) hname hg hms

theorem reads_superclass : Reads c 0 Superclass superclass := by
  unfold superclass
  refine .accept (.pure .none) fun less d hd hless => ?_
  apply Reads.expect.bind
  intro name e ts he _
  apply Reads.reference.bind
  intro ref f us hf _
  apply Reads.pure
  rintro ⟨rfl, rfl⟩ ⟨rfl, hname⟩
  exact .some (by simpa using hless) hname

theorem reads_classDeclaration {inLoop : Bool}
    (hdecl : ∀ c', c'.rest.length ≤ c.rest.length → Reads c' 0 (Declarations false) declarations)
    (hn : c.rest.length < n) :
    Reads c 0 (fun ts s => ∀ keyword : Token, keyword.kind = .class →
      Declaration inLoop (keyword :: ts) s) (classDeclaration n declarations) := by
  unfold classDeclaration
  apply Reads.expect.bind
  intro name d ts hd _
  apply reads_superclass.bind
  intro superclass e ss he _
  apply Reads.expect.bind
  intro left f us hf _
  apply (reads_methods (fun c' hc' => hdecl c' (by omega)) (Nat.le_refl f.rest.length) (by
    omega)).bind
  intro ms g vs hg _
  apply Reads.expect.bind
  intro right h ws hh _
  apply Reads.pure
  rintro ⟨rfl, hright⟩ hms ⟨rfl, hleft⟩ hsuper ⟨rfl, hname⟩ keyword hkeyword
  simpa using Declaration.class hkeyword hname hsuper hleft hms hright

theorem reads_varDeclaration
    (hexpr : ∀ c', c'.rest.length < c.rest.length → Reads c' 1 Expression expression) :
    Reads c 0 Variable (varDeclaration expression) := by
  unfold varDeclaration
  apply Reads.expect.bind
  intro name d ts hd hts
  refine .accept ?_ fun equals e he hequals => ?_
  · apply Reads.bind (k := 0) (.pure (D := fun us i => us = [] ∧ i = none) ⟨rfl, rfl⟩)
    intro initializer e us he _
    apply Reads.expect.bind
    intro semicolon f vs hf _
    apply Reads.pure
    rintro ⟨rfl, hsemicolon⟩ ⟨rfl, rfl⟩ ⟨rfl, hname⟩
    exact .unassigned hname hsemicolon
  · have hvalue : Reads e 1 (fun us i => ∃ v, i = some v ∧ Expression us v) (some <$> expression) :=
      .map ((hexpr e (by omega)).mono (Nat.le_refl _) fun us v h => ⟨v, rfl, h⟩)
    apply hvalue.bind
    intro initializer f us hf _
    apply Reads.expect.bind
    intro semicolon g vs hg _
    apply Reads.pure
    rintro ⟨rfl, hsemicolon⟩ ⟨v, rfl, hv⟩ ⟨rfl, hname⟩
    simpa using Variable.initialized hname (by simpa using hequals) hv hsemicolon

theorem reads_unlessSees {closer : TokenKind}
    (hexpr : ∀ c', c'.rest.length ≤ c.rest.length → Reads c' 1 Expression expression) :
    Reads c 0 OptionalExpression (unlessSees closer expression) := by
  unfold unlessSees
  apply Reads.sees.bind
  intro b d ts hd _
  cases b with
  | true => exact .pure fun hts => by rw [hts]; exact .none
  | false =>
    refine .map (((hexpr d (by omega)).mono (Nat.zero_le _)) fun us v h hts => ?_)
    rw [hts]
    exact .some h

/-- A dangling operator is reported, so no phrase begins with one. -/
theorem reads_series
    (hexpr : ∀ c', c'.rest.length ≤ c.rest.length → Reads c' 1 Expression expression)
    (hn : c.rest.length < n) : Reads c 1 Series (series n expression) := by
  unfold series
  refine reads_leftAssociative (D := Expression) (fun _ _ h => .expression h)
    (fun _ _ _ _ _ hl hop hr => .comma hl (by simpa using hop) hr) (fun c' hc' => ?_) hn
  unfold seriesOperand
  apply Reads.accept (hexpr c' hc')
  intro op d hd _
  apply (hexpr d (by omega)).bind
  intro right e ts he _
  exact Reads.report.bind fun _ f _ hf _ => .pure fun h => h.elim

theorem reads_expressionStatement (inLoop : Bool)
    (hexpr : ∀ c', c'.rest.length ≤ c.rest.length → Reads c' 1 Expression expression)
    (hn : c.rest.length < n) :
    Reads c 1 (fun ts s => Statement inLoop false ts s ∧ ForInitializer ts (some s))
      (expressionStatement n expression) := by
  unfold expressionStatement
  apply (reads_series hexpr hn).bind
  intro e d ts hd _
  apply Reads.expect.bind
  intro semicolon f us hf _
  apply Reads.pure
  rintro ⟨rfl, hsemicolon⟩ he
  simp only [List.append_nil]
  exact ⟨.expression he hsemicolon, .expression he hsemicolon⟩

theorem reads_printStatement {inLoop : Bool}
    (hexpr : ∀ c', c'.rest.length ≤ c.rest.length → Reads c' 1 Expression expression)
    (hn : c.rest.length < n) :
    Reads c 0 (fun ts s => ∀ keyword : Token, keyword.kind = .print →
      Statement inLoop false (keyword :: ts) s) (printStatement n expression) := by
  unfold printStatement
  apply (reads_series hexpr hn).bind
  intro e d ts hd _
  apply Reads.expect.bind
  intro semicolon f us hf _
  apply Reads.pure
  rintro ⟨rfl, hsemicolon⟩ he keyword hkeyword
  simpa using Statement.print hkeyword he hsemicolon

theorem reads_returnStatement {inLoop : Bool} {keyword : Token} (hk : keyword.kind = .return)
    (hexpr : ∀ c', c'.rest.length ≤ c.rest.length → Reads c' 1 Expression expression) :
    Reads c 0 (fun ts s => Statement inLoop false (keyword :: ts) s)
      (returnStatement keyword expression) := by
  unfold returnStatement
  apply (reads_unlessSees hexpr).bind
  intro value d ts hd _
  apply Reads.expect.bind
  intro semicolon f us hf _
  apply Reads.pure
  rintro ⟨rfl, hsemicolon⟩ he
  simpa using Statement.return hk he hsemicolon

/-- Outside every loop the statement is reported. -/
theorem reads_breakStatement {inLoop : Bool} {keyword : Token} (hk : keyword.kind = .break) :
    Reads c 0 (fun ts s => Statement inLoop false (keyword :: ts) s)
      (breakStatement keyword inLoop) := by
  unfold breakStatement
  apply Reads.expect.bind
  intro semicolon d us hd _
  cases inLoop with
  | true =>
    apply Reads.pure
    rintro ⟨rfl, hsemicolon⟩
    exact .break hk hsemicolon
  | false => exact Reads.report.bind fun _ e _ he _ => .pure fun h => h.elim

theorem reads_continueStatement {inLoop : Bool} {keyword : Token} (hk : keyword.kind = .continue) :
    Reads c 0 (fun ts s => Statement inLoop false (keyword :: ts) s)
      (continueStatement keyword inLoop) := by
  unfold continueStatement
  apply Reads.expect.bind
  intro semicolon d us hd _
  cases inLoop with
  | true =>
    apply Reads.pure
    rintro ⟨rfl, hsemicolon⟩
    exact .continue hk hsemicolon
  | false => exact Reads.report.bind fun _ e _ he _ => .pure fun h => h.elim

theorem reads_forInitializer
    (hexpr : ∀ c', c'.rest.length ≤ c.rest.length → Reads c' 1 Expression expression)
    (hn : c.rest.length < n) :
    Reads c 1 ForInitializer (forInitializer n expression) := by
  unfold forInitializer
  refine .accept ?_ fun t d hd ht => ?_
  · exact .map ((reads_expressionStatement false hexpr hn).mono (Nat.le_refl _)
      fun _ _ h => h.2)
  · by_cases hsemicolon : t.kind = .semicolon
    · simp only [if_pos hsemicolon]
      exact .pure (.none hsemicolon)
    · simp only [if_neg hsemicolon]
      have hvar : t.kind = .var := by simpa [hsemicolon] using ht
      exact .map ((reads_varDeclaration fun c' hc' => hexpr c' (by omega)).mono (Nat.le_refl _)
        fun _ _ h => .var hvar h)

/-- A statement before other words, which begin with no `else` that belongs to it. -/
def StatementBefore (inLoop : Bool) (ts following : List Token) (s : Stmt) : Prop :=
  ∃ dangles, Statement inLoop dangles ts s ∧
    (dangles = true → ∀ t ∈ following.head?, t.kind ≠ .else)

theorem StatementBefore.of_closed {inLoop : Bool} {ts us : List Token} {s : Stmt}
    (h : Statement inLoop false ts s) : StatementBefore inLoop ts us s :=
  ⟨false, h, fun hf => absurd hf (by decide)⟩

section Statements

variable {inLoop : Bool} {body : Reader Stmt} {keyword : Token}

theorem yields_forStatement (hk : keyword.kind = .for)
    (hexpr : ∀ c', c'.rest.length ≤ c.rest.length → Reads c' 1 Expression expression)
    (hbody : ∀ c', c'.rest.length ≤ c.rest.length → Yields c' 1 (StatementBefore true) body)
    (hn : c.rest.length < n) :
    Yields c 0 (fun ts => StatementBefore inLoop (keyword :: ts)) (forStatement n expression body) := by
  unfold forStatement
  apply Yields.bind Reads.expect
  intro opener d _ hd _
  apply Yields.bind (reads_forInitializer (fun c' hc' => hexpr c' (by omega)) (by omega))
  intro initializer e is he _
  apply Yields.bind (reads_unlessSees fun c' hc' => hexpr c' (by omega))
  intro condition f cs hf _
  apply Yields.bind Reads.expect
  intro semicolon g _ hg _
  apply Yields.bind (reads_unlessSees fun c' hc' => hexpr c' (by omega))
  intro increment h ns hh _
  apply Yields.bind Reads.expect
  intro closer i _ hi _
  apply Yields.bind (hbody i (by omega))
  intro s j bs hj _
  apply Yields.pure
  rintro ⟨dangles, hs, helse⟩ ⟨rfl, hcloser⟩ hincrement ⟨rfl, hsemicolon⟩ hcondition hinitializer
    ⟨rfl, hopener⟩
  refine ⟨dangles, ?_, helse⟩
  have : Statement inLoop dangles _ _ := .for hk hopener hinitializer hcondition hsemicolon
    hincrement hcloser hs
  cases initializer <;> simpa [forLoop] using this

theorem yields_whileStatement (hk : keyword.kind = .while)
    (hexpr : ∀ c', c'.rest.length ≤ c.rest.length → Reads c' 1 Expression expression)
    (hbody : ∀ c', c'.rest.length ≤ c.rest.length → Yields c' 1 (StatementBefore true) body) :
    Yields c 0 (fun ts => StatementBefore inLoop (keyword :: ts)) (whileStatement expression body) := by
  unfold whileStatement
  apply Yields.bind Reads.expect
  intro opener d _ hd _
  apply Yields.bind (hexpr d (by omega))
  intro condition e cs he _
  apply Yields.bind Reads.expect
  intro closer f _ hf _
  apply Yields.bind (hbody f (by omega))
  intro s g bs hg _
  apply Yields.pure
  rintro ⟨dangles, hs, helse⟩ ⟨rfl, hcloser⟩ hcondition ⟨rfl, hopener⟩
  refine ⟨dangles, ?_, helse⟩
  simpa using Statement.while hk hopener hcondition hcloser hs

/-- An `else` is taken at once, so a branch before it does not dangle. -/
theorem yields_ifStatement (hk : keyword.kind = .if)
    (hexpr : ∀ c', c'.rest.length ≤ c.rest.length → Reads c' 1 Expression expression)
    (hbranch : ∀ c', c'.rest.length ≤ c.rest.length → Yields c' 1 (StatementBefore inLoop) body) :
    Yields c 0 (fun ts => StatementBefore inLoop (keyword :: ts)) (ifStatement expression body) := by
  unfold ifStatement
  apply Yields.bind Reads.expect
  intro opener d _ hd _
  apply Yields.bind (hexpr d (by omega))
  intro condition e cs he _
  apply Yields.bind Reads.expect
  intro closer f _ hf _
  apply Yields.bind (hbranch f (by omega))
  intro thenBranch g ts hg _
  refine .accept (fun hnone => .pure ?_) fun middle h hm hmiddle => ?_
  · rintro ⟨dangles, hs, helse⟩ ⟨rfl, hcloser⟩ hcondition ⟨rfl, hopener⟩
    refine ⟨true, ?_, fun _ t ht => by simpa using hnone t ht⟩
    simpa using Statement.if hk hopener hcondition hcloser hs
  · have hlen : h.rest.length + 1 = g.rest.length := by rw [hm]; rfl
    apply Yields.bind (hbranch h (by omega))
    intro elseBranch i es hi _
    apply Yields.pure
    rintro ⟨dangles', he, helse'⟩ ⟨dangles, hs, helse⟩ ⟨rfl, hcloser⟩ hcondition ⟨rfl, hopener⟩
    have hkind : middle.kind = .else := by simpa using hmiddle
    have hclosed : dangles = false := by
      cases dangles with
      | false => rfl
      | true => exact absurd hkind (helse rfl middle (by rw [hm]; rfl))
    subst hclosed
    refine ⟨dangles', ?_, helse'⟩
    simpa using Statement.ifElse hk hopener hcondition hcloser hs hkind he

end Statements

/-- The first token of a primary expression has been read before. -/
theorem reads_primaryFrom {t : Token} (ht : t.kind ∈ primaryKinds)
    (hexpr : ∀ c', c'.rest.length ≤ c.rest.length → Reads c' 1 Expression expression)
    (hdecl : ∀ c', c'.rest.length ≤ c.rest.length → Reads c' 0 (Declarations false) declarations)
    (hn : c.rest.length < n) :
    Reads c 0 (fun ts e => Primary (t :: ts) e) (primaryFrom n expression declarations t) := by
  unfold primaryFrom
  split
  next hk => exact .pure (.false hk)
  next hk => exact .pure (.true hk)
  next hk => exact .pure (.literal (.inl hk))
  next hk => exact .pure (.literal (.inr hk))
  next hk =>
    unfold superExpression
    apply Reads.expect.bind
    intro dot d _ hd _
    apply Reads.expect.bind
    intro method e _ he _
    refine Reads.reference.bind fun ref f _ hf _ => .pure ?_
    rintro ⟨rfl, rfl⟩ ⟨rfl, hmethod⟩ ⟨rfl, hdot⟩
    exact .super hk hdot hmethod
  next hk =>
    refine .map (Reads.reference.mono (Nat.le_refl _) ?_)
    rintro _ ref ⟨rfl, rfl⟩
    exact .this hk
  next hk =>
    refine .map (Reads.reference.mono (Nat.le_refl _) ?_)
    rintro _ ref ⟨rfl, rfl⟩
    exact .variable hk
  next hk =>
    unfold anonymousFunction
    apply Reads.expect.bind
    intro opener d _ hd _
    apply (reads_lambda (fun c' hc' => hdecl c' (by omega)) (by omega)).bind
    intro f e us he _
    apply Reads.pure
    rintro hf ⟨rfl, hopener⟩
    simpa using Primary.lambda hk (hf opener hopener)
  next hk =>
    unfold groupingExpression
    apply (hexpr c (Nat.le_refl _)).bind
    intro inner d ts hd _
    refine Reads.expect.bind fun closer e _ he _ => .pure ?_
    rintro ⟨rfl, hcloser⟩ hinner
    simpa using Primary.grouping hk hinner hcloser
  next hfalse htrue hnumber hstring hsuper hthis hname hfun hparen =>
    refine .pure (.nil ?_)
    have := ht
    simp only [primaryKinds, List.mem_cons, List.not_mem_nil, or_false] at this
    rcases this with h | h | h | h | h | h | h | h | h | h
    all_goals first | exact h | exact absurd h (by assumption)

end Expressions

section Assignments

/-- What is no operation of a looser level is a call. -/
theorem binary_call {levels : List (List TokenKind)} {ts : List Token} {e : Expr}
    (h : Binary levels ts e) (hb : ∀ l op r, e ≠ .binary l op r) (hu : ∀ op r, e ≠ .unary op r) :
    Call ts e := by
  induction levels generalizing ts with
  | nil =>
    cases h with
    | unary h =>
      cases h with
      | operator hop h => exact absurd rfl (hu _ _)
      | call h => exact h
  | cons kinds levels ih =>
    cases h with
    | tighter h => exact ih h
    | operator hl hop hr => exact absurd rfl (hb _ _ _)

theorem conditional_variable {ts : List Token} {ref : Reference}
    (h : Conditional ts (.variable ref)) : ts = [ref.name] ∧ ref.name.kind = .identifier := by
  cases h with
  | binary h =>
    cases binary_call h (fun _ _ _ => nofun) (fun _ _ => nofun) with
    | primary h =>
      cases h with
      | «variable» ht => exact ⟨rfl, ht⟩

theorem conditional_get {ts : List Token} {object : Expr} {name : Token}
    (h : Conditional ts (.get object name)) :
    ∃ os dot, ts = os ++ [dot, name] ∧ Call os object ∧ dot.kind = .dot ∧
      name.kind = .identifier := by
  cases h with
  | binary h =>
    cases binary_call h (fun _ _ _ => nofun) (fun _ _ => nofun) with
    | primary h => nomatch h
    | property ho hd hn => exact ⟨_, _, rfl, ho, hd, hn⟩

/-- Only variables and properties are assigned to without a report. -/
theorem reads_assignment (ts us : List Token) {target value : Expr} {equals : Token}
    (hequals : equals.kind = .equal) :
    Reads c 0 (fun vs e => vs = [] ∧ (Conditional ts target → Expression us value →
      Expression (ts ++ equals :: us) e)) (assignment target equals value) := by
  unfold assignment
  split
  next ref =>
    refine Reads.reference.bind fun ref' d _ hd _ => .pure ?_
    rintro ⟨rfl, hname⟩
    refine ⟨rfl, fun ht hv => ?_⟩
    obtain ⟨rfl, hk⟩ := conditional_variable ht
    rw [← hname] at hk ⊢
    exact .assign hk hequals hv
  next object name =>
    refine .pure ⟨rfl, fun ht hv => ?_⟩
    obtain ⟨os, dot, rfl, ho, hd, hk⟩ := conditional_get ht
    simpa using Expression.set ho hd hk hequals hv
  next => exact Reads.report.bind fun _ d _ hd _ => .pure fun h => h.elim

end Assignments

section Recovery

theorem dropToResumption_suffix (dropped : Token) (ts : List Token) :
    dropToResumption dropped ts <:+ ts := by
  induction ts generalizing dropped with
  | nil => exact List.suffix_refl _
  | cons t rest ih =>
    unfold dropToResumption
    split
    · exact List.suffix_refl _
    · exact (ih t).trans (List.suffix_cons t rest)

/-- Recovery drops a token, unless none is left. -/
theorem advance_resume (c : Cursor) :
    ∃ dropped, c.Advance dropped c.resume ∧ (c.rest ≠ [] → 1 ≤ dropped.length) := by
  unfold Cursor.resume
  split
  next h => exact ⟨[], .refl c, fun hne => absurd h hne⟩
  next t rest h =>
    obtain ⟨dropped, hd⟩ := dropToResumption_suffix t rest
    refine ⟨t :: dropped, ⟨?_, rfl, Nat.le_refl _⟩, fun _ => Nat.succ_pos _⟩
    rw [h]
    exact congrArg (t :: ·) hd.symm

/-- A construct that is left out has been reported. -/
theorem reads_recovering {D : List Token → α → Prop} {p : Reader α} (h : Reads c 1 D p)
    (hc : c.rest ≠ []) :
    Reads c 1 (fun ts a? => ∃ a, a? = some a ∧ D ts a) (recovering p) := by
  unfold Reads Yields at h ⊢
  unfold recovering
  cases hp : p c with
  | ok a c' =>
    rw [hp] at h
    obtain ⟨ts, adv, least, clean⟩ := h
    exact ⟨ts, adv, least, fun hl => ⟨a, rfl, clean hl⟩⟩
  | error stop c' =>
    rw [hp] at h
    cases stop with
    | outOfFuel => exact h
    | syntaxError =>
      obtain ⟨ts, adv, hlog⟩ := h
      obtain ⟨dropped, adv', hdropped⟩ := advance_resume c'
      refine ⟨ts ++ dropped, adv.trans adv', ?_, fun hl => ?_⟩
      · have hlen := adv.length
        have hpos := List.length_pos_iff.2 hc
        rw [List.length_append]
        by_cases hr : c'.rest = []
        · rw [hr, List.length_nil] at hlen
          omega
        · have := hdropped hr
          omega
      · have := adv'.log
        omega

/-- A token that is there is accepted. -/
theorem reads_accept_next {kinds : List TokenKind} {f : Option Token → Reader α} {k : Nat}
    {D : List Token → α → Prop} {t : Token} {rest : List Token} (hc : c.rest = t :: rest)
    (ht : t.kind ∈ kinds)
    (h : ∀ c' : Cursor, c'.rest.length + 1 = c.rest.length →
      Reads c' (k - 1) (fun ts a => D (t :: ts) a) (f (some t))) :
    Reads c k D (accept kinds >>= f) := by
  refine Yields.accept (fun hnone => ?_) fun t' c' hc' _ => ?_
  · exact absurd ht (hnone t (by rw [hc]; rfl))
  · obtain ⟨rfl, _⟩ := List.cons.inj (hc.symm.trans hc')
    exact h c' (by rw [hc']; rfl)

/-- A function declaration begins with two words that are there. -/
theorem reads_seesNamedFunction {f : Bool → Reader α} {k : Nat} {D : List Token → α → Prop}
    (htrue : ∀ keyword name rest, c.rest = keyword :: name :: rest → keyword.kind = .fun →
      name.kind = .identifier → Reads c k D (f true))
    (hfalse : Reads c k D (f false)) : Reads c k D (seesNamedFunction >>= f) := by
  obtain ⟨ts, last, nextId, log⟩ := c
  match ts with
  | [] => exact hfalse
  | [t] => exact hfalse
  | keyword :: name :: rest =>
    show Reads _ k D (fun c => f (keyword.kind == .fun && name.kind == .identifier) c)
    cases hb : keyword.kind == .fun && name.kind == .identifier with
    | false => exact hfalse
    | true =>
      rw [Bool.and_eq_true, beq_iff_eq, beq_iff_eq] at hb
      exact htrue keyword name rest rfl hb.1 hb.2

theorem reads_ended {closers : List TokenKind} {f : Bool → Reader α} {k : Nat}
    {D : List Token → α → Prop} (h : Reads c k D (f (c.rest.head?.all (·.kind ∈ closers)))) :
    Reads c k D (ended closers >>= f) := h

end Recovery

/-- What holds of the readers that call one another, given the fuel that each of them needs. -/
structure Sound (n : Nat) : Prop where
  expression : ∀ c : Cursor, 16 * c.rest.length + 3 ≤ n → Reads c 1 Expression (expression n)
  conditional : ∀ c : Cursor, 16 * c.rest.length + 2 ≤ n → Reads c 1 Conditional (conditional n)
  unary : ∀ c : Cursor, 16 * c.rest.length + 1 ≤ n → Reads c 1 Unary (unary n)
  declarations : ∀ (c : Cursor) inLoop closers, 16 * c.rest.length + 6 ≤ n →
    Reads c 0 (Declarations inLoop) (declarations n inLoop closers)
  declaration : ∀ (c : Cursor) inLoop, 16 * c.rest.length + 5 ≤ n →
    Reads c 1 (Declaration inLoop) (declaration n inLoop)
  statement : ∀ (c : Cursor) inLoop, 16 * c.rest.length + 4 ≤ n →
    Yields c 1 (StatementBefore inLoop) (statement n inLoop)

namespace Sound

theorem expression_succ (h : Sound n) (hn : 16 * c.rest.length + 3 ≤ n + 1) :
    Reads c 1 Expression (Reader.expression (n + 1)) := by
  unfold Reader.expression
  apply (h.conditional c (by omega)).bind
  intro target d ts hd hts
  refine .accept (.pure fun ht => ?_) fun equals e he hequals => ?_
  · rw [List.append_nil]
    exact .conditional ht
  · apply (h.expression e (by omega)).bind
    intro value f us hf _
    apply (reads_assignment ts us (by simpa using hequals)).mono (Nat.zero_le _)
    rintro vs e ⟨rfl, he⟩ hv ht
    simpa using he ht hv

theorem conditional_succ (h : Sound n) (hn : 16 * c.rest.length + 2 ≤ n + 1) :
    Reads c 1 Conditional (Reader.conditional (n + 1)) := by
  unfold Reader.conditional
  apply (reads_binary operatorLevels (fun c' hc' => h.unary c' (by omega)) (by omega)).bind
  intro condition d ts hd hts
  refine .accept (.pure fun hc => ?_) fun question e he hquestion => ?_
  · rw [List.append_nil]
    exact .binary hc
  · apply (h.conditional e (by omega)).bind
    intro thenBranch f us hf _
    apply Reads.expect.bind
    intro colon g _ hg _
    refine (h.conditional g (by omega)).bind fun elseBranch i vs hi _ => .pure ?_
    rintro he ⟨rfl, hcolon⟩ ht hc
    simpa using Conditional.conditional hc (by simpa using hquestion) ht hcolon he

theorem unary_succ (h : Sound n) (hn : 16 * c.rest.length + 1 ≤ n + 1) :
    Reads c 1 Unary (Reader.unary (n + 1)) := by
  unfold Reader.unary
  refine .accept ?_ fun operator d hd hop => ?_
  · apply Reads.accept .missing
    intro t d hd ht
    apply (reads_primaryFrom ht (fun c' hc' => h.expression c' (by omega)) (fun c' hc' =>
      h.declarations c' false _ (by omega)) (by omega)).bind
    intro callee e ts he _
    apply (reads_callTail (fun c' hc' => h.expression c' (by omega)) callee (Nat.le_refl
      e.rest.length) (by omega)).mono (Nat.zero_le _)
    intro us e hcall hprimary
    exact .call (hcall _ (.primary hprimary))
  · refine (h.unary d (by omega)).bind fun right e ts he _ => .pure fun hr => ?_
    rw [List.append_nil]
    exact .operator (by simpa using hop) hr

theorem declarations_succ (h : Sound n) (inLoop : Bool) (closers : List TokenKind)
    (hn : 16 * c.rest.length + 6 ≤ n + 1) :
    Reads c 0 (Declarations inLoop) (Reader.declarations (n + 1) inLoop closers) := by
  unfold Reader.declarations
  apply reads_ended
  split
  · exact .pure .nil
  next hended =>
    have hc : c.rest ≠ [] := by
      intro hr
      simp [hr] at hended
    apply (reads_recovering (h.declaration c inLoop (by omega)) hc).bind
    intro first d ts hd hts
    refine (h.declarations d inLoop closers (by omega)).bind fun others e us he _ => .pure ?_
    rintro hothers ⟨s, rfl, hs⟩
    rw [List.append_nil]
    exact .cons hs hothers

theorem declaration_succ (h : Sound n) (inLoop : Bool) (hn : 16 * c.rest.length + 5 ≤ n + 1) :
    Reads c 1 (Declaration inLoop) (Reader.declaration (n + 1) inLoop) := by
  unfold Reader.declaration
  refine reads_seesNamedFunction (fun keyword name rest hc hkeyword hname => ?_) ?_
  · apply reads_accept_next hc (by simpa using hkeyword)
    intro d hd
    refine (reads_function (fun e he => h.declarations e false _ (by omega)) (by omega)).bind
      fun decl e us he _ => .pure ?_
    rintro ⟨name, vs, f, rfl, hname, hf, rfl⟩
    simpa using Declaration.function hkeyword hname hf
  · refine .accept ?_ fun t d hd ht => ?_
    · exact (h.statement c inLoop (by omega)).mono (Nat.le_refl _) fun _ _ _ ⟨_, hs, _⟩ =>
        Declaration.statement hs
    · dsimp only
      split
      next hk =>
        exact (reads_classDeclaration (fun e he => h.declarations e false _ (by omega))
          (by omega)).mono (Nat.le_refl _) fun _ _ h => h t hk
      next hk =>
        apply (reads_varDeclaration fun e he => h.expression e (by omega)).mono (Nat.le_refl _)
        intro ts s hs
        exact .var (by simpa [hk] using ht) hs

theorem statement_succ (h : Sound n) (inLoop : Bool) (hn : 16 * c.rest.length + 4 ≤ n + 1) :
    Yields c 1 (StatementBefore inLoop) (Reader.statement (n + 1) inLoop) := by
  have hexpr : ∀ d : Cursor, d.rest.length ≤ c.rest.length →
      Reads d 1 Expression (Reader.expression n) := fun d hd => h.expression d (by omega)
  unfold Reader.statement
  refine .accept (fun _ => ?_) fun t d hd ht => ?_
  · exact (reads_expressionStatement inLoop hexpr (by omega)).yields (Nat.le_refl _) fun _ _ _ h =>
      .of_closed h.1
  · have hlen : d.rest.length + 1 = c.rest.length := by rw [hd]; rfl
    have hstmt : ∀ l, ∀ e : Cursor, e.rest.length ≤ d.rest.length →
        Yields e 1 (StatementBefore l) (Reader.statement n l) := fun l e he =>
      h.statement e l (by omega)
    dsimp only
    split
    next hk => exact yields_forStatement hk (fun e he => hexpr e (by omega)) (hstmt true) (by omega)
    next hk => exact yields_ifStatement hk (fun e he => hexpr e (by omega)) (hstmt inLoop)
    next hk => exact yields_whileStatement hk (fun e he => hexpr e (by omega)) (hstmt true)
    next hk =>
      exact (reads_returnStatement hk fun e he => hexpr e (by omega)).yields (Nat.le_refl _)
        fun _ _ _ => .of_closed
    next hk => exact (reads_breakStatement hk).yields (Nat.le_refl _) fun _ _ _ => .of_closed
    next hk => exact (reads_continueStatement hk).yields (Nat.le_refl _) fun _ _ _ => .of_closed
    next hk =>
      apply Yields.bind (h.declarations d inLoop _ (by omega))
      intro body e bs he _
      refine Yields.bind Reads.expect fun right f _ hf _ => .pure ?_
      rintro ⟨rfl, hright⟩ hbody
      refine .of_closed ?_
      simpa using Statement.block hk hbody hright
    next hfor hif hwhile hreturn hbreak hcontinue hbrace =>
      have hk : t.kind = .print := by
        simp only [List.mem_cons, List.not_mem_nil, or_false] at ht
        rcases ht with h | h | h | h | h | h | h | h
        all_goals first | exact h | exact absurd h (by assumption)
      exact (reads_printStatement (fun e he => hexpr e (by omega)) (by omega)).yields (Nat.le_refl _)
        fun _ _ _ h => .of_closed (h t hk)

end Sound

theorem sound (n : Nat) : Sound n := by
  induction n with
  | zero => constructor <;> intros <;> omega
  | succ n ih =>
    exact ⟨fun _ => ih.expression_succ, fun _ => ih.conditional_succ, fun _ => ih.unary_succ,
      fun _ => ih.declarations_succ, fun _ => ih.declaration_succ, fun _ => ih.statement_succ⟩

/-- Declarations are read up to the end, or up to a token that closes their place. -/
theorem declarations_ended {inLoop : Bool} {closers : List TokenKind} {body : List Stmt}
    {c' : Cursor} (h : declarations n inLoop closers c = .ok body c') :
    c'.rest.head?.all (·.kind ∈ closers) = true := by
  induction n generalizing c body with
  | zero => cases h
  | succ n ih =>
    unfold declarations at h
    obtain ⟨b, d, hb, h⟩ := bind_eq_ok h
    cases hb
    split at h
    next hend =>
      cases h
      exact hend
    next =>
      obtain ⟨first, d, _, h⟩ := bind_eq_ok h
      obtain ⟨others, e, hothers, h⟩ := bind_eq_ok h
      cases h
      exact ih hothers

end Lox.Reader
