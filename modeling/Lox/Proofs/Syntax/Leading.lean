import Lox.Proofs.Syntax.Phrase

/-!
The words that phrases begin with. One word decides between the alternatives of every rule, apart
from `fun`, where the next word tells a declaration from an expression.
-/

namespace Lox.Phrase

/-- What comes next is none of these. -/
def Stops (kinds : List TokenKind) (rest : List Token) : Prop := ∀ t ∈ rest.head?, t.kind ∉ kinds

theorem stops_nil (kinds : List TokenKind) : Stops kinds [] := nofun

theorem stops_cons {kinds : List TokenKind} {t : Token} {rest : List Token} (h : t.kind ∉ kinds) :
    Stops kinds (t :: rest) := by
  intro u hu
  obtain rfl := Option.some.inj hu
  exact h

theorem Stops.mono {kinds kinds' : List TokenKind} {rest : List Token} (h : Stops kinds rest)
    (hk : ∀ k ∈ kinds', k ∈ kinds) : Stops kinds' rest :=
  fun t ht hm => h t ht (hk _ hm)

/-- The kinds of token that begin an expression. -/
def startKinds : List TokenKind :=
  [.false, .true, .nil, .number, .string, .super, .this, .identifier, .fun, .leftParen, .bang,
    .minus]

/-- The words begin an expression. With `fun` in front no name follows. -/
def Leads (ts : List Token) : Prop :=
  ∃ t us, ts = t :: us ∧ t.kind ∈ startKinds ∧
    (t.kind = .fun → ∃ u vs, us = u :: vs ∧ u.kind = .leftParen)

theorem Leads.append {ts : List Token} (h : Leads ts) (us : List Token) : Leads (ts ++ us) := by
  obtain ⟨t, vs, rfl, ht, hfun⟩ := h
  refine ⟨t, vs ++ us, rfl, ht, fun hk => ?_⟩
  obtain ⟨u, ws, rfl, hu⟩ := hfun hk
  exact ⟨u, ws ++ us, rfl, hu⟩

theorem leads_of_kind {t : Token} {us : List Token} (ht : t.kind ∈ startKinds)
    (hfun : t.kind ≠ .fun) : Leads (t :: us) :=
  ⟨t, us, rfl, ht, fun h => absurd h hfun⟩

theorem Leads.ne_nil {ts : List Token} (h : Leads ts) : ts ≠ [] := by
  obtain ⟨t, us, rfl, _⟩ := h
  exact List.cons_ne_nil t us

theorem Leads.stops {ts : List Token} {kinds : List TokenKind} (h : Leads ts)
    (hk : ∀ k ∈ startKinds, k ∉ kinds) : Stops kinds ts := by
  obtain ⟨t, us, rfl, ht, _⟩ := h
  exact stops_cons (hk _ ht)

theorem function_paren {ts : List Token} {f : Lambda} (h : Function ts f) :
    ∃ u us, ts = u :: us ∧ u.kind = .leftParen := by
  cases h with
  | mk ho hp hc hl hb hr => exact ⟨_, _, rfl, ho⟩

theorem primary_leads {ts : List Token} {e : Expr} (h : Primary ts e) : Leads ts := by
  cases h with
  | lambda hk h =>
    obtain ⟨u, us, rfl, hu⟩ := function_paren h
    exact ⟨_, _, rfl, by rw [hk]; decide, fun _ => ⟨u, us, rfl, hu⟩⟩
  | literal ht => rcases ht with ht | ht <;> exact leads_of_kind (by rw [ht]; decide) (by rw [ht]; decide)
  | super ht hd hm => exact leads_of_kind (by rw [ht]; decide) (by rw [ht]; decide)
  | grouping ht h hc => exact leads_of_kind (by rw [ht]; decide) (by rw [ht]; decide)
  | «variable» ht => exact leads_of_kind (by rw [ht]; decide) (by rw [ht]; decide)
  | _ ht => exact leads_of_kind (by rw [ht]; decide) (by rw [ht]; decide)

theorem call_leads {ts : List Token} {e : Expr} (h : Call ts e) : Leads ts := by
  cases h with
  | primary h => exact primary_leads h
  | noArguments h _ _ => exact (call_leads h).append _
  | arguments h _ _ _ _ => exact (call_leads h).append _
  | property h _ _ => exact (call_leads h).append _

theorem primary_stops {ts : List Token} {e : Expr} (h : Primary ts e) (us : List Token) :
    Stops [.bang, .minus] (ts ++ us) := by
  cases h with
  | literal ht => rcases ht with ht | ht <;> exact stops_cons (by rw [ht]; decide)
  | super ht hd hm => exact stops_cons (by rw [ht]; decide)
  | grouping ht h hc => exact stops_cons (by rw [ht]; decide)
  | lambda ht h => exact stops_cons (by rw [ht]; decide)
  | «variable» ht => exact stops_cons (by rw [ht]; decide)
  | _ ht => exact stops_cons (by rw [ht]; decide)

/-- A call begins with no operator, so that `-` and `!` apply to the whole of it. -/
theorem call_stops : ∀ {ts : List Token} {e : Expr}, Call ts e → ∀ us : List Token,
    Stops [.bang, .minus] (ts ++ us)
  | _, _, .primary h, us => primary_stops h us
  | _, _, .noArguments h _ _, us => by
    rw [List.append_assoc]
    exact call_stops h _
  | _, _, .arguments h _ _ _ _, us => by
    rw [List.append_assoc]
    exact call_stops h _
  | _, _, .property h _ _, us => by
    rw [List.append_assoc]
    exact call_stops h _

theorem unary_leads {ts : List Token} {e : Expr} (h : Unary ts e) : Leads ts := by
  cases h with
  | operator hop h =>
    rcases hop with hop | hop <;> exact leads_of_kind (by rw [hop]; decide) (by rw [hop]; decide)
  | call h => exact call_leads h

theorem binary_leads : ∀ {levels : List (List TokenKind)} {ts : List Token} {e : Expr},
    Binary levels ts e → Leads ts
  | _, _, _, .unary h => unary_leads h
  | _, _, _, .tighter h => binary_leads h
  | _, _, _, .operator hl _ _ => (binary_leads hl).append _

theorem conditional_leads {ts : List Token} {e : Expr} (h : Conditional ts e) : Leads ts := by
  cases h with
  | binary h => exact binary_leads h
  | conditional hc hq ht hco hf => exact (binary_leads hc).append _

theorem expression_leads {ts : List Token} {e : Expr} (h : Expression ts e) : Leads ts := by
  cases h with
  | conditional h => exact conditional_leads h
  | assign hr heq h => exact leads_of_kind (by rw [hr]; decide) (by rw [hr]; decide)
  | set ho hd hn heq h => exact (call_leads ho).append _

theorem series_leads {ts : List Token} {e : Expr} (h : Series ts e) : Leads ts := by
  cases h with
  | expression h => exact expression_leads h
  | comma hl _ _ => exact (series_leads hl).append _

theorem arguments_leads {ts : List Token} {es : List Expr} (h : Arguments ts es) : Leads ts := by
  cases h with
  | last h => exact expression_leads h
  | more h hc hs => exact (expression_leads h).append _

/-- The kinds of token that begin a statement which is no expression. -/
def statementStartKinds : List TokenKind :=
  [.print, .for, .while, .if, .return, .break, .continue, .leftBrace]

theorem statement_leads {inLoop dangles : Bool} {ts : List Token} {s : Stmt}
    (h : Statement inLoop dangles ts s) :
    (∃ t us, ts = t :: us ∧ t.kind ∈ statementStartKinds) ∨ Leads ts := by
  cases h with
  | expression h hs => exact .inr ((series_leads h).append _)
  | «return» hk hv hs => exact .inl ⟨_, _, rfl, by rw [hk]; decide⟩
  | «break» hk hs => exact .inl ⟨_, _, rfl, by rw [hk]; decide⟩
  | «continue» hk hs => exact .inl ⟨_, _, rfl, by rw [hk]; decide⟩
  | «for» hk => exact .inl ⟨_, _, rfl, by rw [hk]; decide⟩
  | «while» hk => exact .inl ⟨_, _, rfl, by rw [hk]; decide⟩
  | «if» hk => exact .inl ⟨_, _, rfl, by rw [hk]; decide⟩
  | ifElse hk => exact .inl ⟨_, _, rfl, by rw [hk]; decide⟩
  | print hk => exact .inl ⟨_, _, rfl, by rw [hk]; decide⟩
  | block hk => exact .inl ⟨_, _, rfl, by rw [hk]; decide⟩

/-- No function declaration begins here. -/
def NamesNoFunction (ts : List Token) : Prop :=
  ∀ t u us, ts = t :: u :: us → t.kind = .fun → u.kind ≠ .identifier

theorem namesNoFunction_cons {t : Token} {ts : List Token} (h : t.kind ≠ .fun) :
    NamesNoFunction (t :: ts) := by
  intro t' u us heq hk
  obtain ⟨rfl, _⟩ := List.cons.inj heq
  exact absurd hk h

theorem Leads.namesNoFunction {ts : List Token} (h : Leads ts) : NamesNoFunction ts := by
  obtain ⟨t, us, rfl, _, hfun⟩ := h
  intro t' u vs heq hk
  obtain ⟨rfl, rfl⟩ := List.cons.inj heq
  obtain ⟨u', vs', heq', hu⟩ := hfun hk
  obtain ⟨rfl, _⟩ := List.cons.inj heq'
  rw [hu]
  decide

/-- A statement begins with no word that begins another declaration. -/
theorem statement_first {inLoop dangles : Bool} {ts : List Token} {s : Stmt}
    (h : Statement inLoop dangles ts s) (us : List Token) :
    NamesNoFunction (ts ++ us) ∧ Stops [.class, .var] (ts ++ us) := by
  rcases statement_leads h with ⟨t, vs, rfl, ht⟩ | hl
  · have hk : t.kind ≠ .fun ∧ t.kind ∉ [TokenKind.class, .var] := by
      revert ht
      generalize t.kind = k
      revert k
      decide
    exact ⟨namesNoFunction_cons hk.1, stops_cons hk.2⟩
  · exact ⟨(hl.append us).namesNoFunction, (hl.append us).stops (by decide)⟩

/-- A declaration begins with no token that closes a block or goes on with an `if`. -/
theorem declaration_stops {inLoop : Bool} {ts : List Token} {s : Stmt}
    (h : Declaration inLoop ts s) (us : List Token) :
    ts ≠ [] ∧ Stops [.rightBrace, .else] (ts ++ us) := by
  cases h with
  | «class» hk => exact ⟨List.cons_ne_nil _ _, stops_cons (by rw [hk]; decide)⟩
  | function hk => exact ⟨List.cons_ne_nil _ _, stops_cons (by rw [hk]; decide)⟩
  | var hk => exact ⟨List.cons_ne_nil _ _, stops_cons (by rw [hk]; decide)⟩
  | statement h =>
    rcases statement_leads h with ⟨t, vs, rfl, ht⟩ | hl
    · refine ⟨List.cons_ne_nil _ _, stops_cons fun hm => ?_⟩
      revert ht hm
      generalize t.kind = k
      revert k
      decide
    · exact ⟨hl.ne_nil, (hl.append us).stops (by decide)⟩

end Lox.Phrase
