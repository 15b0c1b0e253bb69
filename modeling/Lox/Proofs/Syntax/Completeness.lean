import Lox.Proofs.Syntax.Giving
import Lox.Proofs.Syntax.Relabel

/-!
Every phrase of the grammar is read, without a report, as its tree up to node numbers. What follows
the phrase must not go on with it.
-/

namespace Lox.Reader

open Phrase

variable {α : Type} {n : Nat} {ts us rest : List Token}

/-- The reader reads every phrase of the kind up to some length, before words that do not go on with
it, as the same tree up to node numbers. -/
def Completes (p : Reader Expr) (P : List Token → Expr → Prop) (follow : List TokenKind)
    (most : Nat) : Prop :=
  ∀ ts e rest, P ts e → ts.length ≤ most → Stops follow rest →
    Gives p (ts ++ rest) rest (·.bare = e.bare)

section Lists

/-- One or more items with commas between them. -/
inductive Listing (D : List Token → α → Prop) : List Token → List α → Prop
  | last {ts a} (h : D ts a) : Listing D ts [a]
  | more {ts comma us a as} (h : D ts a) (hc : comma.kind = .comma) (hs : Listing D us as) :
      Listing D (ts ++ comma :: us) (a :: as)

theorem names_listing {names : List Token} (h : Names ts names) :
    Listing (fun ts t => ts = [t] ∧ t.kind = .identifier) ts names := by
  induction h with
  | last ht => exact .last ⟨rfl, ht⟩
  | more ht hc hs ih => exact .more ⟨rfl, ht⟩ hc ih

theorem arguments_listing {ts : List Token} {es : List Expr} (h : Arguments ts es) :
    Listing Expression ts es := by
  cases h with
  | last h => exact .last h
  | more h hc hs => exact .more h hc (arguments_listing hs)

variable {D : List Token → α → Prop} {item : Reader α} {most : Nat} {tooMany : SyntaxFault}

theorem gives_listed (view : α → α) (follow : List TokenKind)
    (hitem : ∀ ts a rest, D ts a → ts.length ≤ most → Stops follow rest →
      Gives item (ts ++ rest) rest fun a' => view a' = view a)
    (hfollow : .comma ∉ follow) {as : List α} (h : Listing D ts as) (count : Nat)
    (hm : ts.length ≤ most) (hn : ts.length < n) (hcount : count + as.length ≤ 255)
    (hrest : Stops (.comma :: follow) rest) :
    Gives (listed tooMany item n count) (ts ++ rest) rest fun as' => as'.map view = as.map view := by
  induction h generalizing n count with
  | @last ts a h =>
    obtain ⟨n, rfl⟩ : ∃ m, n = m + 1 := ⟨n - 1, by omega⟩
    have hmax : ¬ maxListed ≤ count := by
      rw [List.length_singleton] at hcount
      unfold maxListed
      omega
    unfold listed
    simp only [if_neg hmax]
    apply Gives.bind (hitem ts a rest h hm (hrest.mono fun _ => List.mem_cons_of_mem _))
    intro a' ha
    refine .reject (hrest.mono fun k hk => by simp_all) (.pure ?_)
    simpa using ha
  | @more ts comma us a as h hc hs ih =>
    obtain ⟨n, rfl⟩ : ∃ m, n = m + 1 := ⟨n - 1, by omega⟩
    simp only [List.length_append, List.length_cons] at hm hn hcount
    have hmax : ¬ maxListed ≤ count := by
      unfold maxListed
      omega
    unfold listed
    simp only [if_neg hmax, List.append_assoc, List.cons_append]
    have hstop : Stops follow (comma :: (us ++ rest)) := stops_cons (by rw [hc]; exact hfollow)
    apply Gives.bind (hitem ts a _ h (by omega) hstop)
    intro a' ha
    refine .accept (by simp [hc]) ?_
    refine .bind (ih (count + 1) (by omega) (by omega) (by omega)) fun as' has => .pure ?_
    simp only [List.map_cons, ha, has]

end Lists

section Operators

/-- Operands of one kind with operators between them, grouped from the left. -/
inductive Chain (kinds : List TokenKind) (D : List Token → Expr → Prop) : List Token → Expr → Prop
  | first {ts e} (h : D ts e) : Chain kinds D ts e
  | step {ts us l r op} (hl : Chain kinds D ts l) (hop : op.kind ∈ kinds) (hr : D us r) :
      Chain kinds D (ts ++ op :: us) (.binary l op r)

theorem binary_chain : ∀ {all : List (List TokenKind)} {ts : List Token} {e : Expr},
    Binary all ts e → ∀ kinds levels, all = kinds :: levels → Chain kinds (Binary levels) ts e
  | _, _, _, .unary _, _, _, h => nomatch h
  | _, _, _, .tighter h, kinds, levels, he => by
    obtain ⟨rfl, rfl⟩ := List.cons.inj he
    exact .first h
  | _, _, _, .operator hl hop hr, kinds, levels, he => by
    obtain ⟨rfl, rfl⟩ := List.cons.inj he
    exact .step (binary_chain hl _ _ rfl) hop hr

theorem series_chain {ts : List Token} {e : Expr} (h : Series ts e) :
    Chain [.comma] Expression ts e := by
  cases h with
  | expression h => exact .first h
  | comma hl hc hr => exact .step (series_chain hl) (by simp [hc]) hr

variable {D : List Token → Expr → Prop} {kinds follow : List TokenKind} {operand : Reader Expr}
  {most : Nat}

/-- After the words of a chain the loop goes on with its tree, and has lost no more turns than there
are words. -/
theorem gives_chain (h : Completes operand D follow most) (hapart : ∀ k ∈ kinds, k ∉ follow)
    {e : Expr} (hc : Chain kinds D ts e) (hm : ts.length ≤ most) (hn : ts.length < n)
    {out : List Token} {R : Expr → Prop} (hrest : Stops follow rest)
    (hnext : ∀ m e', e'.bare = e.bare → n ≤ m + ts.length →
      Gives (operands kinds operand m e') rest out R) :
    Gives (leftAssociative n kinds operand) (ts ++ rest) out R := by
  induction hc generalizing rest with
  | @first ts e hd =>
    unfold leftAssociative
    exact .bind (h ts e rest hd hm hrest) fun e' he => hnext n e' he (Nat.le_add_right n _)
  | @step ts us l r op hl hop hr ih =>
    simp only [List.length_append, List.length_cons] at hm hn hnext
    rw [List.append_assoc, List.cons_append]
    apply ih (by omega) (by omega) (stops_cons (hapart _ hop))
    intro m l' hl' hlen
    obtain ⟨m, rfl⟩ : ∃ k, m = k + 1 := ⟨m - 1, by omega⟩
    unfold operands
    refine .accept hop (.bind (h us r rest hr (by omega) hrest) fun r' hr' => ?_)
    refine hnext m _ ?_ (by omega)
    simp only [Expr.bare, Expr.relabel] at hl' hr' ⊢
    rw [hl', hr']

theorem completes_leftAssociative (h : Completes operand D follow most)
    (hapart : ∀ k ∈ kinds, k ∉ follow) (hn : most < n) :
    Completes (leftAssociative n kinds operand) (Chain kinds D) (kinds ++ follow) most := by
  intro ts e rest hc hm hrest
  apply gives_chain h hapart hc hm (by omega) (hrest.mono fun _ => List.mem_append_right _)
  intro m e' he hlen
  obtain ⟨m, rfl⟩ : ∃ k, m = k + 1 := ⟨m - 1, by omega⟩
  unfold operands
  exact .reject (hrest.mono fun _ => List.mem_append_left _) (.pure he)

/-- What may go on with a call. -/
def callFollow : List TokenKind := [.leftParen, .dot]

def binaryFollow (levels : List (List TokenKind)) : List TokenKind := levels.flatten ++ callFollow

theorem completes_binary (h : Completes operand Unary callFollow most) (hn : most < n)
    (levels : List (List TokenKind)) (hnodup : (binaryFollow levels).Nodup) :
    Completes (levels.foldr (leftAssociative n) operand) (Binary levels) (binaryFollow levels)
      most := by
  induction levels with
  | nil =>
    intro ts e rest hb
    cases hb with
    | unary hu => exact h ts e rest hu
  | cons kinds levels ih =>
    have hsplit : binaryFollow (kinds :: levels) = kinds ++ binaryFollow levels := by
      unfold binaryFollow
      rw [List.flatten_cons, List.append_assoc]
    rw [hsplit, List.nodup_append] at hnodup
    rw [hsplit]
    intro ts e rest hb
    refine completes_leftAssociative (ih hnodup.2.1) ?_ hn ts e rest (binary_chain hb _ _ rfl)
    exact fun k hk hm => hnodup.2.2 k hk k hm rfl

end Operators

section Expressions

variable {expression : Reader Expr} {declarations : Reader (List Stmt)} {most : Nat}

def conditionalFollow : List TokenKind := .question :: binaryFollow precedence

def expressionFollow : List TokenKind := .equal :: conditionalFollow

theorem gives_noArguments {paren : Token} (hp : paren.kind = .rightParen) :
    Gives (listedOrNone n .tooManyArguments expression) (paren :: rest) (paren :: rest)
      (· = []) := by
  unfold listedOrNone
  refine .sees ?_
  have : (paren.kind == TokenKind.rightParen) = true := by rw [hp]; rfl
  simp only [List.head?_cons, Option.any_some, this, if_true]
  exact .pure rfl

theorem gives_arguments (hexpr : Completes expression Expression expressionFollow most)
    {es : List Expr} (h : Arguments ts es) (hm : ts.length ≤ most) (hn : ts.length < n)
    (hcount : es.length ≤ 255) {paren : Token} (hp : paren.kind = .rightParen) :
    Gives (listedOrNone n .tooManyArguments expression) (ts ++ paren :: rest) (paren :: rest)
      fun es' => Expr.bareAll es' = Expr.bareAll es := by
  unfold listedOrNone
  refine .sees ?_
  rw [sees_of_stops (((arguments_leads h).append _).stops (by decide))]
  apply (gives_listed Expr.bare expressionFollow hexpr (by decide) (arguments_listing h) 0 hm hn
    (by omega) (stops_cons (by rw [hp]; decide))).mono
  intro es' hes
  unfold Expr.bareAll
  rw [Expr.relabelAll_eq_map, Expr.relabelAll_eq_map]
  exact hes

theorem gives_parameters {params : List Token} (h : Parameters ts params) (hn : ts.length < n)
    {paren : Token} (hp : paren.kind = .rightParen) :
    Gives (listedOrNone n .tooManyParameters (expect .identifier .parameterName))
      (ts ++ paren :: rest) (paren :: rest) (· = params) := by
  unfold listedOrNone
  refine .sees ?_
  cases h with
  | none =>
    have : (paren.kind == TokenKind.rightParen) = true := by rw [hp]; rfl
    simp only [List.nil_append, List.head?_cons, Option.any_some, this, if_true]
    exact .pure rfl
  | some hs hcount =>
    have hstop : Stops [.rightParen] (ts ++ paren :: rest) := by
      cases hs <;> exact stops_cons (by simp [*])
    rw [sees_of_stops hstop]
    refine (gives_listed id [] ?_ (by decide) (names_listing hs) 0
      (Nat.le_refl _) hn (by omega) (stops_cons (by rw [hp]; decide))).mono fun names' h => by
        simpa using h
    rintro _ t rest ⟨rfl, ht⟩ _ _
    exact .accept (by simp [ht]) (.pure rfl)

/-- The declarations of a body are read up to its closing brace. -/
def CompletesBody (p : Reader (List Stmt)) (most : Nat) : Prop :=
  ∀ bs body right rest, Declarations false bs body → right.kind = .rightBrace → bs.length ≤ most →
    Gives p (bs ++ right :: rest) (right :: rest) (Stmt.bareAll · = Stmt.bareAll body)

theorem gives_lambda {role : FunctionRole} (hdecl : CompletesBody declarations most)
    {opener : Token} {f : Lambda} (h : Function (opener :: ts) f) (hm : ts.length ≤ most)
    (hn : ts.length < n) :
    Gives (lambda n role declarations) (ts ++ rest) rest (·.bare = f.bare) := by
  cases h with
  | mk ho hp hc hl hb hr =>
    simp only [List.length_append, List.length_cons] at hm hn
    simp only [List.append_assoc, List.cons_append, List.nil_append]
    unfold lambda
    refine .bind (gives_parameters hp (by omega) hc) ?_
    rintro _ rfl
    refine .expect hc (.expect hl ?_)
    apply Gives.bind (hdecl _ _ _ _ hb hr (by omega))
    intro body' hbody
    refine .expect hr (.pure ?_)
    simp only [Lambda.bare, Lambda.relabel, Stmt.bareAll] at hbody ⊢
    rw [hbody]

theorem gives_function {role : FunctionRole} (hdecl : CompletesBody declarations most)
    {name : Token} {f : Lambda} (hname : name.kind = .identifier) (h : Function ts f)
    (hm : ts.length ≤ most) (hn : ts.length < n) :
    Gives (function n role declarations) (name :: (ts ++ rest)) rest
      (·.bare = (FunctionDecl.mk name f).bare) := by
  obtain ⟨opener, us, rfl, ho⟩ := function_paren h
  simp only [List.length_cons] at hm hn
  unfold function
  refine .expect hname (.expect ho ?_)
  refine .bind (gives_lambda hdecl h (by omega) (by omega)) fun f' hf => .pure ?_
  simp only [FunctionDecl.bare, FunctionDecl.relabel, Lambda.bare] at hf ⊢
  rw [hf]

theorem gives_primary (hexpr : Completes expression Expression expressionFollow most)
    (hdecl : CompletesBody declarations most) {e : Expr} (h : Primary ts e)
    (hm : ts.length ≤ most + 1) (hn : ts.length ≤ n) :
    ∃ t us, ts = t :: us ∧ t.kind ∈ primaryKinds ∧
      ∀ rest, Gives (primaryFrom n expression declarations t) (us ++ rest) rest
        (·.bare = e.bare) := by
  cases h with
  | false ht | true ht | nil ht =>
    refine ⟨_, _, rfl, by rw [ht]; decide, fun rest => ?_⟩
    unfold primaryFrom
    simp only [ht]
    exact .pure rfl
  | literal ht =>
    rcases ht with ht | ht
    all_goals
      refine ⟨_, _, rfl, by rw [ht]; decide, fun rest => ?_⟩
      unfold primaryFrom
      simp only [ht]
      exact .pure rfl
  | @this ref ht =>
    refine ⟨_, _, rfl, by rw [ht]; decide, fun rest => ?_⟩
    unfold primaryFrom
    simp only [ht]
    refine .map (Gives.reference.mono fun r hr => ?_)
    simp only [Expr.bare, Expr.relabel, Reference.relabel, hr]
  | @super ref dot method ht hd hmethod =>
    refine ⟨_, _, rfl, by rw [ht]; decide, fun rest => ?_⟩
    unfold primaryFrom
    simp only [ht]
    unfold superExpression
    refine .expect hd (.expect hmethod (.bind .reference fun r hr => .pure ?_))
    simp only [Expr.bare, Expr.relabel, Reference.relabel, hr]
  | @«variable» ref ht =>
    refine ⟨_, _, rfl, by rw [ht]; decide, fun rest => ?_⟩
    unfold primaryFrom
    simp only [ht]
    refine .map (Gives.reference.mono fun r hr => ?_)
    simp only [Expr.bare, Expr.relabel, Reference.relabel, hr]
  | @grouping opener us e closer ho h hc =>
    simp only [List.length_append, List.length_cons, List.length_nil] at hm
    refine ⟨_, _, rfl, by rw [ho]; decide, fun rest => ?_⟩
    unfold primaryFrom
    simp only [ho, List.append_assoc, List.cons_append, List.nil_append]
    unfold groupingExpression
    apply Gives.bind (hexpr us e _ h (by omega) (stops_cons (by rw [hc]; decide)))
    intro e' he
    refine .expect hc (.pure ?_)
    simp only [Expr.bare, Expr.relabel] at he ⊢
    rw [he]
  | @lambda keyword us f hk h =>
    obtain ⟨opener, us, rfl, ho⟩ := function_paren h
    simp only [List.length_cons] at hm hn
    refine ⟨_, _, rfl, by rw [hk]; decide, fun rest => ?_⟩
    unfold primaryFrom
    simp only [hk, List.cons_append]
    unfold anonymousFunction
    refine .expect ho ?_
    refine .bind (gives_lambda hdecl h (by omega) (by omega)) fun f' hf => .pure ?_
    simp only [Expr.bare, Expr.relabel, Lambda.bare] at hf ⊢
    rw [hf]

/-- A primary expression, and what may follow it in a call. -/
def callFrom (n : Nat) (expression : Reader Expr) (declarations : Reader (List Stmt)) :
    Reader Expr := do
  match ← accept primaryKinds with
  | none => missing .expression
  | some t =>
    let callee ← primaryFrom n expression declarations t
    callTail expression n callee

/-- After the words of a call the loop goes on with its tree. -/
theorem gives_callFrom (hexpr : Completes expression Expression expressionFollow most)
    (hdecl : CompletesBody declarations most) : ∀ {ts : List Token} {e : Expr}, Call ts e →
    ts.length ≤ most + 1 → ts.length ≤ n →
    ∀ {rest out : List Token} {R : Expr → Prop},
    (∀ m e', e'.bare = e.bare → n < m + ts.length → Gives (callTail expression m e') rest out R) →
    Gives (callFrom n expression declarations) (ts ++ rest) out R
  | _, _, .primary h, hm, hn, rest, out, R, hnext => by
    obtain ⟨t, us, rfl, ht, hp⟩ := gives_primary hexpr hdecl h hm hn
    unfold callFrom
    refine .accept ht (.bind (hp rest) fun e' he => hnext n e' he ?_)
    rw [List.length_cons]
    omega
  | _, _, @Call.noArguments ts callee opener paren h ho hp, hm, hn, rest, out, R, hnext => by
    simp only [List.length_append, List.length_cons, List.length_nil] at hm hn hnext
    simp only [List.append_assoc, List.cons_append, List.nil_append]
    apply gives_callFrom hexpr hdecl h (by omega) (by omega)
    intro m callee' hcallee hlen
    obtain ⟨m, rfl⟩ : ∃ k, m = k + 1 := ⟨m - 1, by omega⟩
    unfold callTail
    refine .accept (by simp [ho]) ?_
    simp only [if_pos ho]
    refine .bind (gives_noArguments hp) ?_
    rintro _ rfl
    refine .expect hp (hnext m _ ?_ (by omega))
    simp only [Expr.bare, Expr.relabel] at hcallee ⊢
    rw [hcallee]
  | _, _, @Call.arguments ts us callee opener paren args h ho ha hcount hp, hm, hn, rest, out, R,
      hnext => by
    simp only [List.length_append, List.length_cons, List.length_nil] at hm hn hnext
    simp only [List.append_assoc, List.cons_append, List.nil_append]
    apply gives_callFrom hexpr hdecl h (by omega) (by omega)
    intro m callee' hcallee hlen
    obtain ⟨m, rfl⟩ : ∃ k, m = k + 1 := ⟨m - 1, by omega⟩
    have hpos := List.length_pos_iff.2 (call_leads h).ne_nil
    unfold callTail
    refine .accept (by simp [ho]) ?_
    simp only [if_pos ho]
    apply Gives.bind (gives_arguments hexpr ha (by omega) (by omega) hcount hp)
    intro args' hargs
    refine .expect hp (hnext m _ ?_ (by omega))
    simp only [Expr.bare, Expr.bareAll, Expr.relabel] at hcallee hargs ⊢
    rw [hcallee, hargs]
  | _, _, @Call.property ts object dot name h hd hname, hm, hn, rest, out, R, hnext => by
    simp only [List.length_append, List.length_cons, List.length_nil] at hm hn hnext
    simp only [List.append_assoc, List.cons_append, List.nil_append]
    apply gives_callFrom hexpr hdecl h (by omega) (by omega)
    intro m object' hobject hlen
    obtain ⟨m, rfl⟩ : ∃ k, m = k + 1 := ⟨m - 1, by omega⟩
    have hopener : ¬ dot.kind = .leftParen := by rw [hd]; decide
    unfold callTail
    refine .accept (by simp [hd]) ?_
    simp only [if_neg hopener]
    refine .expect hname (hnext m _ ?_ (by omega))
    simp only [Expr.bare, Expr.relabel] at hobject ⊢
    rw [hobject]

theorem completes_callFrom (hexpr : Completes expression Expression expressionFollow most)
    (hdecl : CompletesBody declarations most) (hn : most < n) :
    Completes (callFrom n expression declarations) Call callFollow (most + 1) := by
  intro ts e rest h hm hrest
  apply gives_callFrom hexpr hdecl h hm (by omega)
  intro m e' he hlen
  obtain ⟨m, rfl⟩ : ∃ k, m = k + 1 := ⟨m - 1, by omega⟩
  unfold callTail
  exact .reject hrest (.pure he)

/-- What a variable or a property becomes when a value is assigned to it. -/
theorem gives_assignment_variable {target value e : Expr} {equals name : Token} {id : NodeId}
    (ht : target.bare = (Expr.variable ⟨id, name⟩).bare) (hv : value.bare = e.bare) :
    Gives (assignment target equals value) rest rest
      (·.bare = (Expr.assign ⟨id, name⟩ e).bare) := by
  cases target with
  | «variable» ref =>
    simp only [Expr.bare, Expr.relabel, Reference.relabel, id_eq, Expr.variable.injEq,
      Reference.mk.injEq, true_and] at ht hv
    refine Gives.bind .reference fun r hr => .pure ?_
    simp only [Expr.bare, Expr.relabel, Reference.relabel, id_eq, hr, ht, hv]
  | _ => nomatch ht

theorem gives_assignment_property {target object value e : Expr} {equals name : Token}
    (ht : target.bare = (Expr.get object name).bare) (hv : value.bare = e.bare) :
    Gives (assignment target equals value) rest rest (·.bare = (Expr.set object name e).bare) := by
  cases target with
  | get object' name' =>
    simp only [Expr.bare, Expr.relabel, id_eq, Expr.get.injEq] at ht hv
    refine Gives.pure ?_
    simp only [Expr.bare, Expr.relabel, id_eq, ht, hv]
  | _ => nomatch ht

theorem completes_series (hexpr : Completes expression Expression expressionFollow most)
    (hn : most < n) : Completes (series n expression) Series (.comma :: expressionFollow) most := by
  have hoperand : Completes (seriesOperand expression) Expression expressionFollow most := by
    intro ts e rest h hm hrest
    unfold seriesOperand
    exact .reject (((expression_leads h).append _).stops (by decide)) (hexpr ts e rest h hm hrest)
  intro ts e rest h
  exact completes_leftAssociative hoperand (by decide) hn ts e rest (series_chain h)

end Expressions

section Statements

variable {expression : Reader Expr} {declarations : Reader (List Stmt)} {most : Nat}

/-- Before an `else` only a statement is read that would not take it. -/
def CompletesStatement (p : Reader Stmt) (inLoop : Bool) (most : Nat) : Prop :=
  ∀ dangles ts s rest, Statement inLoop dangles ts s → ts.length ≤ most →
    (dangles = true → Stops [.else] rest) → Gives p (ts ++ rest) rest (·.bare = s.bare)

theorem gives_methods (hdecl : CompletesBody declarations most) : ∀ {n : Nat} {ts : List Token}
    {own statics : List FunctionDecl}, Methods ts own statics → ts.length ≤ most → ts.length < n →
    ∀ {right : Token} {rest : List Token}, right.kind = .rightBrace →
    Gives (methods declarations n) (ts ++ right :: rest) (right :: rest) fun ms =>
      FunctionDecl.bareAll ms.1 = FunctionDecl.bareAll own ∧
        FunctionDecl.bareAll ms.2 = FunctionDecl.bareAll statics
  | 0, _, _, _, _, _, hn, _, _, _ => absurd hn (Nat.not_lt_zero _)
  | n + 1, _, _, _, .none, _, _, right, rest, hr => by
    unfold methods
    refine .ended ?_
    simp only [List.nil_append, List.head?_cons, Option.all_some, hr, List.mem_singleton,
      decide_true, if_true]
    exact .pure ⟨rfl, rfl⟩
  | n + 1, _, _, _, @Methods.own name fs f us own statics hname h hs, hm, hn, right, rest, hr => by
    simp only [List.length_cons, List.length_append] at hm hn
    unfold methods
    refine .ended ?_
    simp only [List.cons_append, List.append_assoc, List.head?_cons, Option.all_some, hname]
    refine .reject (stops_cons (by rw [hname]; decide)) ?_
    apply Gives.bind (gives_function hdecl hname h (by omega) (by omega))
    intro decl hd
    refine .bind (gives_methods hdecl hs (by omega) (by omega) hr) fun ms hms => .pure ?_
    simp only [FunctionDecl.bare, FunctionDecl.bareAll, FunctionDecl.relabelAll] at hd hms ⊢
    rw [hd, hms.1, hms.2]
    exact ⟨rfl, rfl⟩
  | n + 1, _, _, _, @Methods.static keyword name fs f us own statics hk hname h hs, hm, hn, right,
      rest, hr => by
    simp only [List.length_cons, List.length_append] at hm hn
    unfold methods
    refine .ended ?_
    simp only [List.cons_append, List.append_assoc, List.head?_cons, Option.all_some, hk]
    refine .accept (by simp [hk]) ?_
    apply Gives.bind (gives_function hdecl hname h (by omega) (by omega))
    intro decl hd
    refine .bind (gives_methods hdecl hs (by omega) (by omega) hr) fun ms hms => .pure ?_
    simp only [FunctionDecl.bare, FunctionDecl.bareAll, FunctionDecl.relabelAll] at hd hms ⊢
    rw [hd, hms.1, hms.2]
    exact ⟨rfl, rfl⟩

theorem gives_superclass {superclass? : Option Reference} (h : Superclass ts superclass?)
    (hrest : Stops [.less] rest) :
    Gives superclass (ts ++ rest) rest fun ref? =>
      ref?.map (·.relabel id fun _ => 0) = superclass?.map (·.relabel id fun _ => 0) := by
  unfold superclass
  cases h with
  | none => exact .reject hrest (.pure rfl)
  | some hl hr =>
    refine .accept (by simp [hl]) (.expect hr (.bind .reference fun ref href => .pure ?_))
    simp only [Option.map_some, Reference.relabel, id_eq, href]

theorem gives_classDeclaration (hdecl : CompletesBody declarations most) {name left right : Token}
    {ss ms : List Token} {superclass? : Option Reference} {own statics : List FunctionDecl}
    (hname : name.kind = .identifier) (hs : Superclass ss superclass?)
    (hl : left.kind = .leftBrace) (hms : Methods ms own statics) (hr : right.kind = .rightBrace)
    (hm : ms.length ≤ most) (hn : ms.length < n) :
    Gives (classDeclaration n declarations)
      (name :: (ss ++ left :: (ms ++ right :: rest))) rest
      (·.bare = (Stmt.class name superclass? own statics).bare) := by
  unfold classDeclaration
  refine .expect hname ?_
  apply Gives.bind (gives_superclass hs (stops_cons (by rw [hl]; decide)))
  intro ref? href
  refine .expect hl (.bind (gives_methods hdecl hms hm hn hr) fun decls hdecls => ?_)
  refine .expect hr (.pure ?_)
  simp only [FunctionDecl.bareAll, Stmt.bare, Stmt.relabel] at hdecls ⊢
  rw [href, hdecls.1, hdecls.2]

theorem gives_varDeclaration (hexpr : Completes expression Expression expressionFollow most)
    {s : Stmt} (h : Variable ts s) (hm : ts.length ≤ most) :
    Gives (varDeclaration expression) (ts ++ rest) rest (·.bare = s.bare) := by
  unfold varDeclaration
  cases h with
  | unassigned hname hs =>
    refine .expect hname ?_
    refine .reject (stops_cons (by rw [hs]; decide)) (.bind (R := (· = none)) (.pure rfl) ?_)
    rintro _ rfl
    exact .expect hs (.pure rfl)
  | @initialized name equals us e semicolon hname heq h hs =>
    simp only [List.length_append, List.length_cons] at hm
    simp only [List.cons_append, List.append_assoc, List.nil_append]
    refine .expect hname ?_
    have hvalue : Gives (some <$> expression) (us ++ semicolon :: rest) (semicolon :: rest)
        (Expr.bare? · = Expr.bare? (some e)) := by
      refine .map ((hexpr us e _ h (by omega) (stops_cons (by rw [hs]; decide))).mono ?_)
      exact fun e' he => congrArg some he
    refine .accept (by simp [heq]) (.bind hvalue fun value hv => ?_)
    refine .expect hs (.pure ?_)
    simp only [Expr.bare?, Stmt.bare, Stmt.relabel] at hv ⊢
    rw [hv]

theorem gives_unlessSees (closer : Token) (rest : List Token)
    (hexpr : Completes expression Expression expressionFollow most) {e? : Option Expr} (h : OptionalExpression ts e?) (hm : ts.length ≤ most)
    (hstart : closer.kind ∉ startKinds) (hfollow : closer.kind ∉ expressionFollow) :
    Gives (unlessSees closer.kind expression) (ts ++ closer :: rest) (closer :: rest)
      (Expr.bare? · = Expr.bare? e?) := by
  unfold unlessSees
  refine .sees ?_
  cases h with
  | none =>
    simp only [List.nil_append, List.head?_cons, Option.any_some, beq_self_eq_true, if_true]
    exact .pure rfl
  | some h =>
    have hstop : Stops [closer.kind] (ts ++ closer :: rest) :=
      ((expression_leads h).append _).stops fun k hk hmem => by
        rw [List.mem_singleton.1 hmem] at hk
        exact hstart hk
    rw [sees_of_stops hstop]
    refine .map ((hexpr ts _ _ h hm (stops_cons hfollow)).mono ?_)
    exact fun e' he => congrArg some he

theorem gives_closedSeries (hexpr : Completes expression Expression expressionFollow most)
    {what : Expected} {e : Expr} {semicolon : Token} {f : Expr → Stmt} {s : Stmt}
    (h : Series ts e) (hs : semicolon.kind = .semicolon) (hm : ts.length ≤ most) (hn : most < n)
    (hf : ∀ e' : Expr, e'.bare = e.bare → (f e').bare = s.bare) :
    Gives (do
        let e ← series n expression
        let _ ← expect .semicolon what
        pure (f e)) (ts ++ semicolon :: rest) rest (·.bare = s.bare) := by
  refine .bind (completes_series hexpr hn ts e _ h hm (stops_cons (by rw [hs]; decide))) ?_
  exact fun e' he => .expect hs (.pure (hf e' he))

theorem gives_expressionStatement (hexpr : Completes expression Expression expressionFollow most)
    {e : Expr} {semicolon : Token} (h : Series ts e) (hs : semicolon.kind = .semicolon)
    (hm : ts.length ≤ most) (hn : most < n) :
    Gives (expressionStatement n expression) (ts ++ semicolon :: rest) rest
      (·.bare = (Stmt.expression e).bare) :=
  gives_closedSeries hexpr h hs hm hn fun _ he => congrArg Stmt.expression he

theorem gives_printStatement (hexpr : Completes expression Expression expressionFollow most)
    {e : Expr} {semicolon : Token} (h : Series ts e) (hs : semicolon.kind = .semicolon)
    (hm : ts.length ≤ most) (hn : most < n) :
    Gives (printStatement n expression) (ts ++ semicolon :: rest) rest
      (·.bare = (Stmt.print e).bare) :=
  gives_closedSeries hexpr h hs hm hn fun _ he => congrArg Stmt.print he

theorem gives_returnStatement (hexpr : Completes expression Expression expressionFollow most)
    {value : Option Expr} {keyword semicolon : Token} (h : OptionalExpression ts value)
    (hs : semicolon.kind = .semicolon) (hm : ts.length ≤ most) :
    Gives (returnStatement keyword expression) (ts ++ semicolon :: rest) rest
      (·.bare = (Stmt.return keyword value).bare) := by
  unfold returnStatement
  have hvalue := gives_unlessSees semicolon rest hexpr h hm (by rw [hs]; decide)
    (by rw [hs]; decide)
  rw [hs] at hvalue
  refine .bind hvalue fun value' hv => .expect hs (.pure ?_)
  simp only [Expr.bare?, Stmt.bare, Stmt.relabel] at hv ⊢
  rw [hv]

theorem gives_forInitializer (hexpr : Completes expression Expression expressionFollow most)
    {initializer : Option Stmt} (h : ForInitializer ts initializer) (hm : ts.length ≤ most)
    (hn : most < n) :
    Gives (forInitializer n expression) (ts ++ rest) rest
      (Stmt.bare? · = Stmt.bare? initializer) := by
  unfold forInitializer
  cases h with
  | none hs =>
    refine .accept (by simp [hs]) ?_
    simp only [if_pos hs]
    exact .pure rfl
  | @var keyword us s hk h =>
    rw [List.length_cons] at hm
    have hsemicolon : ¬ keyword.kind = .semicolon := by rw [hk]; decide
    refine .accept (by simp [hk]) ?_
    simp only [if_neg hsemicolon]
    refine .map ((gives_varDeclaration hexpr h (by omega)).mono ?_)
    exact fun s' hs => congrArg some hs
  | @expression us e semicolon h hs =>
    rw [List.length_append] at hm
    rw [List.append_assoc]
    refine .reject (((series_leads h).append _).stops (by decide)) ?_
    refine .map ((gives_expressionStatement hexpr h hs (by omega) hn).mono ?_)
    exact fun s' hs => congrArg some hs

theorem bare_forLoop {initializer initializer' : Option Stmt} {condition condition' : Option Expr}
    {increment increment' : Option Expr} {body body' : Stmt}
    (hi : Stmt.bare? initializer' = Stmt.bare? initializer)
    (hc : Expr.bare? condition' = Expr.bare? condition)
    (hn : Expr.bare? increment' = Expr.bare? increment) (hb : body'.bare = body.bare) :
    (forLoop initializer' condition' increment' body').bare =
      (forLoop initializer condition increment body).bare := by
  have hcondition : (condition'.getD (.literal (.boolean true))).bare =
      (condition.getD (.literal (.boolean true))).bare := by
    cases condition' <;> cases condition
    · rfl
    · cases hc
    · cases hc
    · exact Option.some.inj hc
  simp only [Stmt.bare, Stmt.bare?, Expr.bare?, Expr.bare] at hi hn hb hcondition ⊢
  cases initializer' <;> cases initializer
  · simp only [forLoop, Stmt.relabel, hcondition, hn, hb]
  · cases hi
  · cases hi
  · simp only [Stmt.relabel?, Option.some.injEq] at hi
    simp only [forLoop, Stmt.relabel, Stmt.relabelAll, hcondition, hn, hb, hi]

variable {body : Reader Stmt} {inLoop dangles : Bool} {s : Stmt} {keyword : Token}

theorem gives_forStatement (hexpr : Completes expression Expression expressionFollow most)
    (hbody : CompletesStatement body true most) {opener semicolon closer : Token}
    {is cs ns bs : List Token} {initializer : Option Stmt} {condition increment : Option Expr}
    (ho : opener.kind = .leftParen) (hi : ForInitializer is initializer)
    (hc : OptionalExpression cs condition) (hs : semicolon.kind = .semicolon)
    (hi' : OptionalExpression ns increment) (hcl : closer.kind = .rightParen)
    (hb : Statement true dangles bs s) (hmi : is.length ≤ most) (hmc : cs.length ≤ most)
    (hmn : ns.length ≤ most) (hmb : bs.length ≤ most) (hn : most < n)
    (hrest : dangles = true → Stops [.else] rest) :
    Gives (forStatement n expression body)
      (opener :: (is ++ (cs ++ semicolon :: (ns ++ closer :: (bs ++ rest))))) rest
      (·.bare = (forLoop initializer condition increment s).bare) := by
  unfold forStatement
  have hcondition := gives_unlessSees semicolon (ns ++ closer :: (bs ++ rest)) hexpr hc hmc
    (by rw [hs]; decide) (by rw [hs]; decide)
  have hincrement := gives_unlessSees closer (bs ++ rest) hexpr hi' hmn (by rw [hcl]; decide)
    (by rw [hcl]; decide)
  rw [hs] at hcondition
  rw [hcl] at hincrement
  refine .expect ho (.bind (gives_forInitializer hexpr hi hmi hn) fun initializer' hinit => ?_)
  refine .bind hcondition fun condition' hcond => .expect hs ?_
  refine .bind hincrement fun increment' hinc => .expect hcl ?_
  refine .bind (hbody dangles bs s rest hb hmb hrest) fun body' hbody' => .pure ?_
  exact bare_forLoop hinit hcond hinc hbody'

theorem gives_whileStatement (hexpr : Completes expression Expression expressionFollow most)
    (hbody : CompletesStatement body true most) {opener closer : Token} {cs bs : List Token}
    {condition : Expr} (ho : opener.kind = .leftParen) (hc : Expression cs condition)
    (hcl : closer.kind = .rightParen) (hb : Statement true dangles bs s) (hmc : cs.length ≤ most)
    (hmb : bs.length ≤ most) (hrest : dangles = true → Stops [.else] rest) :
    Gives (whileStatement expression body) (opener :: (cs ++ closer :: (bs ++ rest))) rest
      (·.bare = (Stmt.loop condition s none).bare) := by
  unfold whileStatement
  refine .expect ho (.bind (hexpr cs condition _ hc hmc (stops_cons (by rw [hcl]; decide))) ?_)
  intro condition' hcond
  refine .expect hcl (.bind (hbody dangles bs s rest hb hmb hrest) fun body' hbody' => .pure ?_)
  simp only [Expr.bare, Stmt.bare, Stmt.relabel] at hcond hbody' ⊢
  rw [hcond, hbody']

theorem gives_ifStatement (hexpr : Completes expression Expression expressionFollow most)
    (hbody : CompletesStatement body inLoop most) {opener closer : Token} {cs ts : List Token}
    {condition : Expr} (ho : opener.kind = .leftParen) (hc : Expression cs condition)
    (hcl : closer.kind = .rightParen) (ht : Statement inLoop dangles ts s) (hmc : cs.length ≤ most)
    (hmt : ts.length ≤ most) (hrest : Stops [.else] rest) :
    Gives (ifStatement expression body) (opener :: (cs ++ closer :: (ts ++ rest))) rest
      (·.bare = (Stmt.ite condition s none).bare) := by
  unfold ifStatement
  refine .expect ho (.bind (hexpr cs condition _ hc hmc (stops_cons (by rw [hcl]; decide))) ?_)
  intro condition' hcond
  refine .expect hcl (.bind (hbody dangles ts s rest ht hmt fun _ => hrest) fun branch hbranch => ?_)
  refine .reject hrest (.pure ?_)
  simp only [Expr.bare, Stmt.bare, Stmt.relabel, Stmt.relabel?] at hcond hbranch ⊢
  rw [hcond, hbranch]

/-- The first branch dangles no `if`, so the `else` that follows it is read with this one. -/
theorem gives_ifElseStatement (hexpr : Completes expression Expression expressionFollow most)
    (hbody : CompletesStatement body inLoop most) {opener closer middle : Token}
    {cs ts es : List Token} {condition : Expr} {elseBranch : Stmt} (ho : opener.kind = .leftParen)
    (hc : Expression cs condition) (hcl : closer.kind = .rightParen)
    (ht : Statement inLoop false ts s) (hmid : middle.kind = .else)
    (he : Statement inLoop dangles es elseBranch) (hmc : cs.length ≤ most)
    (hmt : ts.length ≤ most) (hme : es.length ≤ most) (hrest : dangles = true → Stops [.else] rest) :
    Gives (ifStatement expression body)
      (opener :: (cs ++ closer :: (ts ++ middle :: (es ++ rest)))) rest
      (·.bare = (Stmt.ite condition s (some elseBranch)).bare) := by
  unfold ifStatement
  refine .expect ho (.bind (hexpr cs condition _ hc hmc (stops_cons (by rw [hcl]; decide))) ?_)
  intro condition' hcond
  refine .expect hcl (.bind (hbody false ts s _ ht hmt nofun) fun branch hbranch => ?_)
  refine .accept (by simp [hmid]) ?_
  refine .bind (hbody dangles es elseBranch rest he hme hrest) fun other hother => .pure ?_
  simp only [Expr.bare, Stmt.bare, Stmt.relabel, Stmt.relabel?] at hcond hbranch hother ⊢
  rw [hcond, hbranch, hother]

end Statements

/-- What holds of the readers that call one another, given the fuel for a number of words. -/
structure Complete (n : Nat) : Prop where
  expression : ∀ most, 16 * most + 3 ≤ n →
    Completes (expression n) Expression expressionFollow most
  conditional : ∀ most, 16 * most + 2 ≤ n →
    Completes (conditional n) Conditional conditionalFollow most
  unary : ∀ most, 16 * most + 1 ≤ n → Completes (unary n) Unary callFollow most
  declarations : ∀ inLoop closers ts body rest, Declarations inLoop ts body →
    16 * ts.length + 6 ≤ n → (∀ k ∈ closers, k = .rightBrace) →
    rest.head?.all (·.kind ∈ closers) = true →
    Gives (declarations n inLoop closers) (ts ++ rest) rest (Stmt.bareAll · = Stmt.bareAll body)
  declaration : ∀ inLoop ts s rest, Declaration inLoop ts s → 16 * ts.length + 5 ≤ n →
    Stops [.else] rest → Gives (declaration n inLoop) (ts ++ rest) rest (·.bare = s.bare)
  statement : ∀ inLoop most, 16 * most + 4 ≤ n →
    CompletesStatement (statement n inLoop) inLoop most

namespace Complete

theorem body (h : Complete n) (most : Nat) (hn : 16 * most + 6 ≤ n) :
    CompletesBody (Reader.declarations n false [.rightBrace]) most := by
  intro bs body right rest hb hr hm
  refine h.declarations false _ bs body _ hb (by omega) (by simp) ?_
  simp [hr]

theorem unary_succ (h : Complete n) {most : Nat} (hn : 16 * most + 1 ≤ n + 1) :
    Completes (Reader.unary (n + 1)) Unary callFollow most := by
  intro ts e rest hu hm hrest
  have hpos := List.length_pos_iff.2 (unary_leads hu).ne_nil
  obtain ⟨most, rfl⟩ : ∃ k, most = k + 1 := ⟨most - 1, by omega⟩
  unfold Reader.unary
  cases hu with
  | @operator op us e hop h' =>
    rw [List.length_cons] at hm
    refine .accept (by simpa using hop) ?_
    refine .bind (h.unary most (by omega) us e rest h' (by omega) hrest) fun e' he => .pure ?_
    simp only [Expr.bare, Expr.relabel, id_eq] at he ⊢
    rw [he]
  | call h' =>
    refine .reject (call_stops h' rest) ?_
    exact completes_callFrom (h.expression most (by omega)) (h.body most (by omega)) (by omega) ts e rest
      h' hm hrest

theorem conditional_succ (h : Complete n) {most : Nat} (hn : 16 * most + 2 ≤ n + 1) :
    Completes (Reader.conditional (n + 1)) Conditional conditionalFollow most := by
  have hbinary : Completes (binary n (Reader.unary n)) (Binary precedence)
      (binaryFollow precedence) most :=
    completes_binary (h.unary most (by omega)) (by omega) precedence (by decide)
  intro ts e rest hc hm hrest
  unfold Reader.conditional
  cases hc with
  | binary hb =>
    refine .bind (hbinary ts e rest hb hm (hrest.mono fun _ => List.mem_cons_of_mem _)) ?_
    intro e' he
    exact .reject (hrest.mono (by simp [conditionalFollow])) (.pure he)
  | @conditional ts us vs c t f question colon hb hq ht hco hf =>
    simp only [List.length_append, List.length_cons] at hm
    simp only [List.append_assoc, List.cons_append]
    apply Gives.bind (hbinary ts c _ hb (by omega) (stops_cons (by rw [hq]; decide)))
    intro c' hc'
    refine .accept (by simp [hq]) ?_
    refine .bind (h.conditional us.length (by omega) us t _ ht (Nat.le_refl _)
      (stops_cons (by rw [hco]; decide))) fun t' ht' => .expect hco ?_
    refine .bind (h.conditional vs.length (by omega) vs f rest hf (Nat.le_refl _) hrest)
      fun f' hf' => .pure ?_
    simp only [Expr.bare, Expr.relabel] at hc' ht' hf' ⊢
    rw [hc', ht', hf']

theorem expression_succ (h : Complete n) {most : Nat} (hn : 16 * most + 3 ≤ n + 1) :
    Completes (Reader.expression (n + 1)) Expression expressionFollow most := by
  intro ts e rest he hm hrest
  unfold Reader.expression
  cases he with
  | conditional hc =>
    apply Gives.bind (h.conditional most (by omega) ts e rest hc hm (hrest.mono fun _ =>
      List.mem_cons_of_mem _))
    intro e' he
    exact .reject (hrest.mono (by simp [expressionFollow])) (.pure he)
  | @assign ref equals us value hr heq hv =>
    simp only [List.length_cons] at hm
    have htarget : Conditional [ref.name] (.variable ref) :=
      .binary (.of_call (.primary (.variable hr)))
    apply Gives.bind (h.conditional 1 (by omega) [ref.name] _ _ htarget (Nat.le_refl _) (stops_cons
      (by rw [heq]; decide)))
    intro target ht
    refine .accept (by simp [heq]) ?_
    refine .bind (h.expression us.length (by omega) us value rest hv (Nat.le_refl _) hrest) ?_
    exact fun value' hv' => gives_assignment_variable ht hv'
  | @set os object dot name equals us value ho hd hname heq hv =>
    simp only [List.length_cons, List.length_append] at hm
    have htarget : Conditional (os ++ [dot, name]) (.get object name) :=
      .binary (.of_call (.property ho hd hname))
    have hlen : (os ++ [dot, name]).length ≤ most := by
      simp only [List.length_append, List.length_cons, List.length_nil]
      omega
    have hwords : os ++ dot :: name :: equals :: us ++ rest =
        os ++ [dot, name] ++ equals :: (us ++ rest) := by simp
    rw [hwords]
    refine .bind (h.conditional most (by omega) _ _ _ htarget hlen
      (stops_cons (by rw [heq]; decide))) fun target ht => ?_
    refine .accept (by simp [heq]) ?_
    refine .bind (h.expression us.length (by omega) us value rest hv (Nat.le_refl _) hrest) ?_
    exact fun value' hv' => gives_assignment_property ht hv'

theorem declarations_succ (h : Complete n) {inLoop : Bool} {closers : List TokenKind}
    {body : List Stmt} (hb : Declarations inLoop ts body) (hn : 16 * ts.length + 6 ≤ n + 1)
    (hclosers : ∀ k ∈ closers, k = .rightBrace)
    (hrest : rest.head?.all (·.kind ∈ closers) = true) :
    Gives (Reader.declarations (n + 1) inLoop closers) (ts ++ rest) rest
      (Stmt.bareAll · = Stmt.bareAll body) := by
  unfold Reader.declarations
  cases hb with
  | nil =>
    refine .ended ?_
    rw [List.nil_append, hrest]
    exact .pure rfl
  | @cons _ ts us s body hs hbody =>
    obtain ⟨hne, hstop⟩ := declaration_stops hs (us ++ rest)
    have hpos := List.length_pos_iff.2 hne
    rw [List.length_append] at hn
    rw [List.append_assoc]
    have hmore : ¬ (ts ++ (us ++ rest)).head?.all (·.kind ∈ closers) = true := by
      cases ts with
      | nil => exact absurd rfl hne
      | cons t ts =>
        intro hmem
        have ht : t.kind ∈ closers := by simpa using hmem
        exact hstop t rfl (by rw [hclosers _ ht]; decide)
    have helse : Stops [.else] (us ++ rest) := by
      cases hbody with
      | nil =>
        cases rest with
        | nil => exact stops_nil _
        | cons t rest =>
          have ht : t.kind ∈ closers := by simpa using hrest
          exact stops_cons (by rw [hclosers _ ht]; decide)
      | cons hs' _ =>
        rw [List.append_assoc]
        exact (declaration_stops hs' _).2.mono (by simp)
    refine .ended ?_
    rw [if_neg hmore]
    refine .bind (h.declaration inLoop ts s _ hs (by omega) helse).recovering ?_
    rintro _ ⟨s', rfl, hs'⟩
    refine .bind (h.declarations inLoop closers us body rest hbody (by omega) hclosers hrest) ?_
    intro body' hbody'
    refine .pure ?_
    simp only [Stmt.bare, Stmt.bareAll, Option.toList_some, List.cons_append, List.nil_append,
      Stmt.relabelAll] at hs' hbody' ⊢
    rw [hs', hbody']

theorem declaration_succ (h : Complete n) {inLoop : Bool} {s : Stmt} (hs : Declaration inLoop ts s)
    (hn : 16 * ts.length + 5 ≤ n + 1) (hrest : Stops [.else] rest) :
    Gives (Reader.declaration (n + 1) inLoop) (ts ++ rest) rest (·.bare = s.bare) := by
  unfold Reader.declaration
  cases hs with
  | @«class» _ keyword name ss superclass left ms own statics right hk hname hss hl hms hr =>
    simp only [List.length_cons, List.length_append] at hn
    simp only [List.cons_append, List.append_assoc, List.nil_append]
    refine .noFunction (namesNoFunction_cons (by rw [hk]; decide)) (.accept (by simp [hk]) ?_)
    simp only [if_pos hk]
    exact gives_classDeclaration (h.body ms.length (by omega)) hname hss hl hms hr
      (Nat.le_refl _) (by omega)
  | @function _ keyword name us f hk hname hf =>
    simp only [List.length_cons] at hn
    simp only [List.cons_append]
    refine .namedFunction hk hname (.accept (by simp [hk]) ?_)
    refine .bind (gives_function (h.body us.length (by omega)) hname hf (Nat.le_refl _)
      (by omega)) fun decl hd => .pure ?_
    simp only [FunctionDecl.bare, Stmt.bare, Stmt.relabel] at hd ⊢
    rw [hd]
  | @var _ keyword us s hk hv =>
    simp only [List.length_cons] at hn
    simp only [List.cons_append]
    refine .noFunction (namesNoFunction_cons (by rw [hk]; decide)) (.accept (by simp [hk]) ?_)
    have hclass : ¬ keyword.kind = .class := by rw [hk]; decide
    simp only [if_neg hclass]
    exact gives_varDeclaration (h.expression us.length (by omega)) hv (Nat.le_refl _)
  | @statement _ dangles ts s hs =>
    obtain ⟨hfun, hstop⟩ := statement_first hs rest
    refine .noFunction hfun (.reject hstop ?_)
    exact h.statement inLoop ts.length (by omega) dangles ts s rest hs (Nat.le_refl _) fun _ => hrest

theorem statement_succ (h : Complete n) {inLoop : Bool} {most : Nat}
    (hn : 16 * most + 4 ≤ n + 1) :
    CompletesStatement (Reader.statement (n + 1) inLoop) inLoop most := by
  intro dangles ts s rest hs hm hrest
  have hexpr := h.expression most (by omega)
  have hbody (l : Bool) (hpos : 0 < most) := h.statement l (most - 1) (by omega)
  unfold Reader.statement
  cases hs with
  | @expression _ us e semicolon h' hs =>
    rw [List.append_assoc]
    refine .reject (((series_leads h').append _).stops (by decide)) ?_
    rw [List.length_append] at hm
    exact gives_expressionStatement hexpr h' hs (by omega) (by omega)
  | @print _ keyword us e semicolon hk h' hs =>
    simp only [List.length_cons, List.length_append] at hm
    simp only [List.cons_append, List.append_assoc, List.nil_append]
    refine .accept (by simp [hk]) ?_
    simp only [hk]
    exact gives_printStatement hexpr h' hs (by omega) (by omega)
  | @«for» _ _ keyword opener is i cs c semicolon ns inc closer bs body hk ho hi hc hs hn' hcl hb =>
    simp only [List.length_cons, List.length_append] at hm
    simp only [List.cons_append, List.append_assoc]
    refine .accept (by simp [hk]) ?_
    simp only [hk]
    exact gives_forStatement (h.expression (most - 1) (by omega)) (hbody true (by omega)) ho hi hc hs hn' hcl hb
      (by omega) (by omega) (by omega) (by omega) (by omega) hrest
  | @«while» _ _ keyword opener cs c closer bs body hk ho hc hcl hb =>
    simp only [List.length_cons, List.length_append] at hm
    simp only [List.cons_append, List.append_assoc]
    refine .accept (by simp [hk]) ?_
    simp only [hk]
    exact gives_whileStatement (h.expression (most - 1) (by omega)) (hbody true (by omega)) ho hc hcl hb
      (by omega) (by omega) hrest
  | @«if» _ dangles keyword opener cs c closer bs branch hk ho hc hcl hb =>
    simp only [List.length_cons, List.length_append] at hm
    simp only [List.cons_append, List.append_assoc]
    refine .accept (by simp [hk]) ?_
    simp only [hk]
    exact gives_ifStatement (h.expression (most - 1) (by omega)) (hbody inLoop (by omega)) ho hc hcl hb
      (by omega) (by omega) (hrest rfl)
  | @ifElse _ dangles keyword opener cs c closer bs branch middle es other hk ho hc hcl hb hmid he =>
    simp only [List.length_cons, List.length_append] at hm
    simp only [List.cons_append, List.append_assoc]
    refine .accept (by simp [hk]) ?_
    simp only [hk]
    exact gives_ifElseStatement (h.expression (most - 1) (by omega)) (hbody inLoop (by omega)) ho hc hcl hb hmid
      he (by omega) (by omega) (by omega) hrest
  | @«return» _ keyword vs value semicolon hk hv hs =>
    simp only [List.length_cons, List.length_append] at hm
    simp only [List.cons_append, List.append_assoc, List.nil_append]
    refine .accept (by simp [hk]) ?_
    simp only [hk]
    exact gives_returnStatement hexpr hv hs (by omega)
  | @«break» keyword semicolon hk hs =>
    simp only [List.cons_append, List.nil_append]
    refine .accept (by simp [hk]) ?_
    simp only [hk]
    unfold breakStatement
    exact .expect hs (.pure rfl)
  | @«continue» keyword semicolon hk hs =>
    simp only [List.cons_append, List.nil_append]
    refine .accept (by simp [hk]) ?_
    simp only [hk]
    unfold continueStatement
    exact .expect hs (.pure rfl)
  | @block _ left bs body right hl hb hr =>
    simp only [List.length_cons, List.length_append] at hm
    simp only [List.cons_append, List.append_assoc, List.nil_append]
    refine .accept (by simp [hl]) ?_
    simp only [hl]
    refine .bind (h.declarations inLoop _ bs body _ hb (by omega) (by simp) (by simp [hr])) ?_
    intro body' hbody'
    refine .expect hr (.pure ?_)
    simp only [Stmt.bareAll, Stmt.bare, Stmt.relabel] at hbody' ⊢
    rw [hbody']

end Complete

theorem complete (n : Nat) : Complete n := by
  induction n with
  | zero => constructor <;> intros <;> omega
  | succ n ih =>
    exact ⟨fun _ => ih.expression_succ, fun _ => ih.conditional_succ, fun _ => ih.unary_succ,
      fun _ _ _ _ _ => ih.declarations_succ, fun _ _ _ _ => ih.declaration_succ,
      fun _ _ => ih.statement_succ⟩

end Lox.Reader
