import Lox.Proofs.Syntax.Locality

/-!
A text may be read as a phrase, which is a script or a single series that no semicolon closes. Either
way the same is read of it: a script has the same statements and the same diagnostics, and a series
lacks nothing but the semicolon. A phrase is an expression exactly if one series fills the text.
-/

namespace Lox

open Phrase Reader

namespace Reader

variable {c d : Cursor} {n m : Nat}

theorem accept_eq_ok {α : Type} {kinds : List TokenKind} {f : Option Token → Reader α} {a : α}
    (h : (accept kinds >>= f) c = .ok a d) :
    (Stops kinds c.rest ∧ f none c = .ok a d) ∨
      ∃ t rest, c.rest = t :: rest ∧ t.kind ∈ kinds ∧ f (some t) { c with rest } = .ok a d := by
  cases hr : c.rest with
  | nil =>
    have hs : Stops kinds c.rest := hr ▸ stops_nil kinds
    exact .inl ⟨stops_nil kinds, by rwa [accept_not_mem hs] at h⟩
  | cons t rest =>
    by_cases ht : t.kind ∈ kinds
    · exact .inr ⟨t, rest, rfl, ht, by rwa [accept_mem hr ht] at h⟩
    · have hs : Stops kinds c.rest := hr ▸ stops_cons ht
      exact .inl ⟨stops_cons ht, by rwa [accept_not_mem hs] at h⟩

section Opening

variable {ts : List Token}

/-- No word begins here that only a declaration or another statement begins with. -/
structure OpensSeries (ts : List Token) : Prop where
  some_word : ts ≠ []
  no_statement : Stops statementKinds ts
  no_function : NamesNoFunction ts

theorem opensSeries_cons {t : Token} (h : t.kind ∉ statementKinds) (hf : t.kind ≠ .fun) :
    OpensSeries (t :: ts) := ⟨by simp, stops_cons h, namesNoFunction_cons hf⟩

/-- A result is given only where a series may open. -/
def OnSeries (p : Reader Expr) : Prop := ∀ c e d, p c = .ok e d → OpensSeries c.rest

theorem OnSeries.bind {p : Reader Expr} {f : Expr → Reader Expr} (h : OnSeries p) :
    OnSeries (p >>= f) := by
  intro c e d hok
  obtain ⟨a, c', hp, _⟩ := bind_eq_ok hok
  exact h c a c' hp

theorem onSeries_unary : OnSeries (unary n) := by
  intro c e d h
  cases n with
  | zero => cases h
  | succ n =>
    rw [unary] at h
    rcases accept_eq_ok h with ⟨_, h⟩ | ⟨t, rest, hc, ht, _⟩
    · rcases accept_eq_ok h with ⟨_, h⟩ | ⟨t, rest, hc, ht, h⟩
      · cases h
      have hstatement : t.kind ∉ statementKinds := by
        revert ht
        generalize t.kind = k
        revert k
        decide
      rw [hc]
      by_cases hfun : t.kind = .fun
      · -- Without a name the next word is the parenthesis of the parameters.
        obtain ⟨callee, c', hcallee, _⟩ := bind_eq_ok h
        simp only [primaryFrom, hfun] at hcallee
        obtain ⟨paren, c'', hparen, _⟩ := bind_eq_ok hcallee
        refine ⟨by simp, stops_cons hstatement, ?_⟩
        intro t' u us hus _ hu
        obtain ⟨rfl, rfl⟩ := List.cons.inj hus
        rcases accept_eq_ok hparen with ⟨_, h⟩ | ⟨v, vs, hv, hkind, _⟩
        · cases h
        · obtain ⟨rfl, rfl⟩ := List.cons.inj hv
          simp [hu] at hkind
      · exact opensSeries_cons hstatement hfun
    · rw [hc]
      apply opensSeries_cons <;> (revert ht; generalize t.kind = k; revert k; decide)

theorem onSeries_binary {operand : Reader Expr} (h : OnSeries operand) : OnSeries (binary n operand) := by
  unfold binary
  generalize operatorLevels = levels
  induction levels with
  | nil => exact h
  | cons kinds levels ih => exact ih.bind

theorem onSeries_expression : OnSeries (expression n) := by
  have hconditional (n : Nat) : OnSeries (conditional n) := by
    intro c e d h
    cases n with
    | zero => cases h
    | succ n =>
      rw [conditional] at h
      exact (onSeries_binary onSeries_unary).bind c e d h
  intro c e d h
  cases n with
  | zero => cases h
  | succ n =>
    rw [expression] at h
    exact (hconditional n).bind c e d h

/-- A series is read only where one may open. -/
theorem onSeries_series : OnSeries (series n (expression m)) := by
  have hoperand : OnSeries (seriesOperand (expression m)) := by
    intro c e d h
    rcases accept_eq_ok h with ⟨_, h⟩ | ⟨t, rest, hc, ht, _⟩
    · exact onSeries_expression c e d h
    · rw [hc]
      apply opensSeries_cons <;> (revert ht; generalize t.kind = k; revert k; decide)
  exact hoperand.bind

end Opening

section Entry

/-- Whether a named function begins here is seen from two words. -/
theorem sees_function (c : Cursor) :
    ∃ b, seesNamedFunction c = .ok b c ∧ (b = true ↔ ¬ NamesNoFunction c.rest) := by
  obtain ⟨rest, last, nextId, log⟩ := c
  match rest with
  | [] => exact ⟨false, rfl, by simp [NamesNoFunction]⟩
  | [t] => exact ⟨false, rfl, by simp [NamesNoFunction]⟩
  | t :: u :: us => exact ⟨_, rfl, by simp [NamesNoFunction]⟩

/-- Elsewhere a phrase begins with a declaration. -/
theorem entry_declaration (hne : c.rest ≠ []) (h : ¬ OpensSeries c.rest) :
    entry n c = (do return .inl (← declaration n false) : Reader (Stmt ⊕ Expr)) c := by
  obtain ⟨b, hb, hfun⟩ := sees_function c
  obtain ⟨t, ts, hc⟩ := List.exists_cons_of_ne_nil hne
  have hhere : c.here = t := by simp [Cursor.here, hc]
  have hstart : t.kind ∈ statementKinds ∨ b = true := by
    by_cases ht : t.kind ∈ statementKinds
    · exact .inl ht
    · exact .inr (hfun.2 fun hf => h ⟨hne, hc ▸ stops_cons ht, hf⟩)
  unfold entry
  rw [bind_of_ok (show here c = .ok t c by rw [← hhere]; rfl), bind_of_ok hb, if_pos hstart]

/-- What may follow a series: a semicolon, or nothing. -/
def seriesEnd (e : Expr) : Reader (Stmt ⊕ Expr) := do
  match ← accept [.semicolon] with
  | some _ => pure (.inl (.expression e))
  | none => if ← ended [] then pure (.inr e) else missing .semicolonAfterExpression

theorem entry_series (h : OpensSeries c.rest) :
    entry n c = (do seriesEnd (← series n (expression n)) : Reader (Stmt ⊕ Expr)) c := by
  obtain ⟨b, hb, hfun⟩ := sees_function c
  obtain ⟨t, ts, hc⟩ := List.exists_cons_of_ne_nil h.some_word
  have hhere : c.here = t := by simp [Cursor.here, hc]
  have hstart : ¬ (t.kind ∈ statementKinds ∨ b = true) := by
    rw [not_or, hfun]
    exact ⟨h.no_statement t (by simp [hc]), fun hn => hn h.no_function⟩
  unfold entry
  rw [bind_of_ok (show here c = .ok t c by rw [← hhere]; rfl), bind_of_ok hb, if_neg hstart]
  rfl

theorem declaration_series (h : OpensSeries c.rest) :
    declaration (n + 2) false c = expressionStatement n (expression n) c := by
  obtain ⟨b, hb, hfun⟩ := sees_function c
  have hb' : b = false := by
    cases b with
    | false => rfl
    | true => exact absurd h.no_function (hfun.1 rfl)
  have hfirst : Stops [.class, .var] c.rest := h.no_statement.mono (by decide)
  have hsecond : Stops [.for, .if, .while, .return, .break, .continue, .leftBrace, .print] c.rest :=
    h.no_statement.mono (by decide)
  rw [declaration, bind_of_ok hb, hb']
  simp only [Bool.false_eq_true, if_false]
  rw [accept_not_mem hfirst]
  show statement (n + 1) false c = _
  rw [statement, accept_not_mem hsecond]

/-- The fault of a series that fills the text of a script. -/
abbrev unclosed : SyntaxFault := .missing .semicolonAfterExpression

theorem series_same (hnm : n ≤ m)
    (h : ∀ d, series n (expression n) c ≠ .error .outOfFuel d) :
    series m (expression m) c = series n (expression n) c :=
  Follows.same (fun s => follows_series s.quiet_false (followed hnm).expression hnm) (fun e => e.relabel_id) h

theorem series_fuel (hn : 16 * c.rest.length + 3 ≤ n) (hnm : n ≤ m) :
    series m (expression m) c = series n (expression n) c := by
  have hread : Reads c 1 Series (series n (expression n)) :=
    reads_series (fun c' hc' => (sound n).expression c' (by omega)) (by omega)
  exact series_same hnm hread.not_outOfFuel

theorem declaration_fuel (hn : 16 * c.rest.length + 5 ≤ n) (hnm : n ≤ m) :
    declaration m false c = declaration n false c :=
  Follows.same (fun _ => (followed hnm).declaration false) (fun s => s.relabel_id)
    ((sound n).declaration c false hn).not_outOfFuel

/-- A phrase and a script begin alike, but for a series that fills the text. -/
theorem entry_agrees (hne : c.rest ≠ []) (hn : 16 * c.rest.length + 5 ≤ n) (hnm : n ≤ m) :
    match entry m c with
    | .ok (.inl s) d => declaration n false c = .ok s d
    | .ok (.inr _) d =>
      d.rest = [] ∧ declaration n false c = .error .syntaxError (d.report d.last unclosed)
    | .error stop d => declaration n false c = .error stop d := by
  by_cases hopens : OpensSeries c.rest
  · obtain ⟨k, rfl⟩ : ∃ k, n = k + 2 := ⟨n - 2, by omega⟩
    rw [entry_series hopens, declaration_series hopens]
    have hseries : series m (expression m) c = series k (expression k) c :=
      series_fuel (by omega) (by omega)
    unfold expressionStatement
    cases hs : series k (expression k) c with
    | error stop d => rw [bind_of_error (hseries.trans hs), bind_of_error hs]
    | ok e d =>
      rw [bind_of_ok (hseries.trans hs), bind_of_ok hs]
      obtain ⟨rest, last, nextId, log⟩ := d
      unfold seriesEnd expect
      cases rest with
      | nil => exact ⟨rfl, rfl⟩
      | cons t rest =>
        simp only [bind_assoc]
        by_cases ht : t.kind ∈ [TokenKind.semicolon]
        · rw [accept_mem rfl ht, accept_mem rfl ht]
          rfl
        · have hs : Stops [.semicolon] (Cursor.rest ⟨t :: rest, last, nextId, log⟩) := stops_cons ht
          rw [accept_not_mem hs, accept_not_mem hs]
          rfl
  · rw [entry_declaration hne hopens]
    have hfuel := declaration_fuel hn hnm
    cases hd : declaration n false c with
    | error stop d => rw [bind_of_error (hfuel.trans hd)]
    | ok s d =>
      rw [bind_of_ok (hfuel.trans hd)]
      rfl

theorem seriesEnd_expression {e e' : Expr} :
    seriesEnd e' c = .ok (.inr e) d ↔ e' = e ∧ c = d ∧ d.rest = [] := by
  obtain ⟨rest, last, nextId, log⟩ := c
  unfold seriesEnd
  cases rest with
  | nil =>
    constructor
    · intro h
      cases h
      exact ⟨rfl, rfl, rfl⟩
    · rintro ⟨rfl, rfl, _⟩
      rfl
  | cons t rest =>
    constructor
    · intro h
      rcases accept_eq_ok h with ⟨_, h⟩ | ⟨_, _, _, _, h⟩
      · cases h
      · cases h
    · rintro ⟨_, rfl, hrest⟩
      cases hrest

/-- A phrase begins with an expression that ends it exactly where one series fills the text. -/
theorem entry_expression (hne : c.rest ≠ []) {e : Expr} :
    entry n c = .ok (.inr e) d ↔ series n (expression n) c = .ok e d ∧ d.rest = [] := by
  by_cases hopens : OpensSeries c.rest
  · rw [entry_series hopens]
    constructor
    · intro h
      obtain ⟨e', d', hs, hend⟩ := bind_eq_ok h
      obtain ⟨rfl, rfl, hrest⟩ := seriesEnd_expression.1 hend
      exact ⟨hs, hrest⟩
    · rintro ⟨hs, hrest⟩
      rw [bind_of_ok hs]
      exact seriesEnd_expression.2 ⟨rfl, rfl, hrest⟩
  · constructor
    · intro h
      rw [entry_declaration hne hopens] at h
      obtain ⟨s, d', _, h⟩ := bind_eq_ok h
      cases h
    · rintro ⟨hs, _⟩
      exact absurd (onSeries_series c e d hs) hopens

/-- A series is read without a report exactly where it is one by the grammar. -/
theorem series_clean (hn : 16 * c.rest.length + 3 ≤ n) :
    (∃ e d, series n (expression n) c = .ok e d ∧ d.rest = [] ∧ d.log.length = c.log.length) ↔
      ∃ e, Series c.rest e := by
  constructor
  · rintro ⟨e, d, hs, hrest, hlog⟩
    have hread : Reads c 1 Series (series n (expression n)) :=
      reads_series (fun c' hc' => (sound n).expression c' (by omega)) (by omega)
    obtain ⟨ts, adv, _, clean⟩ := hread.of_ok hs
    refine ⟨e, ?_⟩
    rw [adv.rest, hrest, List.append_nil]
    exact clean hlog
  · rintro ⟨e, he⟩
    have hexpr := (complete n).expression c.rest.length hn
    have hlen : c.rest.length < n := by omega
    obtain ⟨rest, last, nextId, log⟩ := c
    obtain ⟨e', k, hs, _⟩ := completes_series hexpr hlen rest e [] he (Nat.le_refl _) (stops_nil _)
      last nextId log
    rw [List.append_nil] at hs
    exact ⟨e', ⟨[], last, k, log⟩, hs, rfl, rfl⟩

end Entry

end Reader

section Parse

variable {c d : Cursor} {n : Nat}

/-- The program that a list of declarations is. -/
def script (n : Nat) (first : List Stmt) : Reader Program := do
  return .statements (first ++ (← declarations n false []))

theorem program_script : Reader.program n false c = script n [] c := rfl

theorem program_empty (h : c.rest = []) : Reader.program n true c = script n [] c := by
  have hend : c.rest.head?.all (·.kind ∈ ([] : List TokenKind)) = true := by simp [h]
  unfold Reader.program
  show (if _ then _ else _ : Reader Program) c = _
  simp only [hend]
  rfl

theorem program_phrase (h : c.rest ≠ []) :
    Reader.program n true c = (do
      match ← recovering (entry n) with
      | some (.inr e) => pure (.expression e)
      | some (.inl first) => script n [first]
      | none => script n [] : Reader Program) c := by
  have hmore : c.rest.head?.all (·.kind ∈ ([] : List TokenKind)) = false := by
    obtain ⟨t, ts, hc⟩ := List.exists_cons_of_ne_nil h
    simp [hc]
  unfold Reader.program
  show (if _ then _ else _ : Reader Program) c = _
  simp only [hmore]
  rfl

theorem script_more (h : c.rest ≠ []) :
    script (n + 1) [] c = (do
      let first ← recovering (declaration n false)
      script n first.toList : Reader Program) c := by
  have hcongr {p q : Reader (List Stmt)} {f : List Stmt → Reader Program} (hpq : p c = q c) :
      (p >>= f) c = (q >>= f) c := by
    show EStateM.bind p f c = EStateM.bind q f c
    unfold EStateM.bind
    rw [hpq]
  unfold script
  rw [hcongr (declarations_more h)]
  simp only [bind_assoc, pure_bind, List.nil_append]

theorem script_end {first : List Stmt} (h : c.rest = []) :
    script (n + 1) first c = .ok (.statements first) c := by
  unfold script
  rw [bind_of_ok (declarations_end h), List.append_nil]
  rfl

theorem script_statements {first : List Stmt} {e : Expr} :
    script n first c ≠ .ok (.expression e) d := by
  intro h
  obtain ⟨body, d', _, h⟩ := bind_eq_ok h
  cases h

theorem script_ok {first : List Stmt} (hn : 16 * c.rest.length + 6 ≤ n) (hnm : n ≤ m) :
    ∃ body d, script n first c = .ok (.statements body) d ∧
      script m first c = .ok (.statements body) d := by
  obtain ⟨body, d, h⟩ := @declarations_ok c n false [] hn
  exact ⟨first ++ body, d, bind_of_ok h, bind_of_ok (declarations_fuel hnm h)⟩

theorem recovering_eq_some {α : Type} {p : Reader α} {a : α} :
    recovering p c = .ok (some a) d ↔ p c = .ok a d := by
  unfold recovering
  cases hp : p c with
  | ok b e => simp
  | error stop e => cases stop <;> simp

/-- A fault in a phrase is met as it is in a script, and reading goes on from the same place. -/
theorem recovering_agrees (hne : c.rest ≠ []) (hn : 16 * c.rest.length + 5 ≤ n) (hnm : n ≤ m) :
    match recovering (entry m) c with
    | .ok (some (.inl s)) d => recovering (declaration n false) c = .ok (some s) d
    | .ok (some (.inr _)) d =>
      d.rest = [] ∧ recovering (declaration n false) c = .ok none (d.report d.last unclosed)
    | .ok none d => recovering (declaration n false) c = .ok none d
    | .error stop d => recovering (declaration n false) c = .error stop d := by
  have hagrees := entry_agrees hne hn hnm
  unfold recovering
  cases he : entry m c with
  | ok first d =>
    rw [he] at hagrees
    rcases first with s | e
    · simp only [hagrees]
    · obtain ⟨hrest, hd⟩ := hagrees
      have hresume : (d.report d.last unclosed).resume = d.report d.last unclosed := by
        unfold Cursor.resume
        rw [show (d.report d.last unclosed).rest = [] from hrest]
      simp only [hd, hresume]
      exact ⟨hrest, trivial⟩
  | error stop d =>
    rw [he] at hagrees
    cases stop with
    | syntaxError => simp only [hagrees]
    | outOfFuel => simp only [hagrees]

theorem recovering_ok (hne : c.rest ≠ []) (hn : 16 * c.rest.length + 5 ≤ n) :
    ∃ first d, recovering (declaration n false) c = .ok first d ∧
      d.rest.length ≤ c.rest.length := by
  have hread := reads_recovering ((sound n).declaration c false hn) hne
  obtain ⟨first, d, h⟩ := ok_of_reads hread recovering_no_fault
  obtain ⟨taken, adv, _⟩ := hread.of_ok h
  have hlen := adv.length
  exact ⟨first, d, h, by omega⟩

/-- With enough fuel: a phrase of statements is read as a script is, and one that is an expression
lacks a semicolon as a script. -/
theorem phrase_agrees (hn : 16 * c.rest.length + 7 ≤ n) :
    match Reader.program n true c with
    | .ok (.statements body) d => Reader.program n false c = .ok (.statements body) d
    | .ok (.expression _) d =>
      Reader.program n false c = .ok (.statements []) (d.report d.last unclosed)
    | .error _ _ => False := by
  obtain ⟨k, rfl⟩ : ∃ k, n = k + 2 := ⟨n - 2, by omega⟩
  rw [program_script]
  by_cases hne : c.rest = []
  · rw [program_empty hne, script_end hne]
  · have hk : 16 * c.rest.length + 5 ≤ k + 1 := by omega
    have hagrees := recovering_agrees hne hk (Nat.le_succ (k + 1))
    obtain ⟨first, d, hfirst, hlen⟩ := recovering_ok hne hk
    rw [program_phrase hne, script_more hne, bind_of_ok hfirst]
    cases hentry : recovering (entry (k + 2)) c with
    | error stop e =>
      rw [hentry, hfirst] at hagrees
      cases hagrees
    | ok first' e =>
      rw [hentry, hfirst] at hagrees
      rw [bind_of_ok hentry]
      rcases first' with _ | s | e'
      · obtain ⟨rfl, rfl⟩ : first = none ∧ d = e := by simpa using hagrees
        obtain ⟨body, e', h, h'⟩ := @script_ok d (k + 1) (k + 2) [] (by omega) (Nat.le_succ _)
        simp only [h', Option.toList_none, h]
      · obtain ⟨rfl, rfl⟩ : first = some s ∧ d = e := by simpa using hagrees
        obtain ⟨body, e', h, h'⟩ := @script_ok d (k + 1) (k + 2) [s] (by omega) (Nat.le_succ _)
        simp only [h', Option.toList_some, h]
      · obtain ⟨hrest, rfl, rfl⟩ : e.rest = [] ∧ first = none ∧ d = e.report e.last unclosed := by
          simpa using hagrees
        exact script_end hrest

/-- A phrase is an expression exactly where one series fills the text. -/
theorem program_expression {e : Expr} (hn : 16 * c.rest.length + 7 ≤ n) :
    Reader.program n true c = .ok (.expression e) d ↔
      series n (expression n) c = .ok e d ∧ d.rest = [] := by
  by_cases hne : c.rest = []
  · constructor
    · intro h
      obtain ⟨k, rfl⟩ : ∃ k, n = k + 1 := ⟨n - 1, by omega⟩
      rw [program_empty hne, script_end hne] at h
      cases h
    · rintro ⟨hs, _⟩
      exact absurd hne (onSeries_series c e d hs).some_word
  · rw [program_phrase hne, ← entry_expression hne]
    constructor
    · intro h
      obtain ⟨first, d', hfirst, h⟩ := bind_eq_ok h
      rcases first with _ | s | e'
      · exact absurd h script_statements
      · exact absurd h script_statements
      · obtain ⟨rfl, rfl⟩ : e' = e ∧ d' = d := by simpa [Pure.pure, EStateM.pure] using h
        exact recovering_eq_some.1 hfirst
    · intro h
      rw [bind_of_ok (recovering_eq_some.2 h)]
      rfl

/-- The end of a text is the place where its words have run out. -/
theorem place_last (tokens : List Token) (nextId : NodeId) :
    (Cursor.ofTokens tokens nextId).last.place = .atEnd := by
  have hkind : (Cursor.ofTokens tokens nextId).last.kind = .eof := by
    unfold Cursor.ofTokens
    simp only
    cases hmark : tokens.find? (fun t => !(t.kind != .eof)) with
    | none => rfl
    | some mark => simpa using List.find?_some hmark
  unfold Token.place
  rw [if_pos hkind]

theorem text_unclosed (line : Nat) :
    Diagnostic.text ⟨line, .atEnd, .syntactic unclosed⟩ =
      "[line " ++ toString line ++ "] Error at end: Expect ';' after expression." := by
  have hmessage : "] Error" ++ (" at end" ++ (": " ++ "Expect ';' after expression.")) =
      "] Error at end: Expect ';' after expression." := by decide
  have htext : (Problem.syntactic unclosed).message = "Expect ';' after expression." := by decide
  unfold Diagnostic.text
  rw [htext, ← hmessage]
  simp only [String.append_assoc]
  rfl

/-- A phrase is read as a script is, with the same diagnostics. Only a series that fills the text is
an expression, and as a script it lacks the semicolon at the end. -/
theorem phrase_or_script (tokens : List Token) (nextId : NodeId) :
    let start := Cursor.ofTokens tokens nextId
    let phrase := parse tokens true nextId
    let lacking : Diagnostic := ⟨start.last.line, .atEnd, .syntactic unclosed⟩
    parse tokens false nextId =
      (match phrase.program with
        | .statements _ => phrase
        | .expression _ => ⟨.statements [], phrase.diagnostics ++ [lacking], phrase.nextId⟩) ∧
      lacking.text =
        "[line " ++ toString start.last.line ++ "] Error at end: Expect ';' after expression." ∧
      (∀ e, phrase.program = .expression e ↔
        ∃ n d, series n (expression n) start = .ok e d ∧ d.rest = []) ∧
      ((∃ e, phrase.program = .expression e) ∧ phrase.diagnostics = [] ↔
        ∃ e, Series start.rest e) := by
  intro start phrase lacking
  let n := fuelPerToken * (start.rest.length + 1)
  have hn : 16 * start.rest.length + 7 ≤ n := show _ ≤ 16 * _ by omega
  obtain ⟨p, d, hp⟩ : ∃ p d, Reader.program n true start = .ok p d := program_ok (by omega)
  have hphrase : phrase = ⟨p, d.log.reverse, d.nextId⟩ := parse_of_ok hp
  have hexpression (e : Expr) : p = .expression e ↔
      ∃ m d, series m (expression m) start = .ok e d ∧ d.rest = [] := by
    constructor
    · rintro rfl
      exact ⟨n, d, (program_expression hn).1 hp⟩
    · rintro ⟨m, d', hs, hrest⟩
      have hm : series (max n m) (expression (max n m)) start = .ok e d' := by
        rw [← hs]
        exact series_same (Nat.le_max_right n m) (by rw [hs]; nofun)
      rw [series_fuel (by omega) (Nat.le_max_left n m)] at hm
      have he := (program_expression hn).2 ⟨hm, hrest⟩
      rw [hp] at he
      cases he
      rfl
  refine ⟨?_, text_unclosed _, fun e => ?_, ?_⟩
  · have hagrees := phrase_agrees hn
    rw [hp] at hagrees
    rw [hphrase]
    cases p with
    | statements body => exact parse_of_ok hagrees
    | expression e =>
      have hread : Reads start 0 Whole (Reader.program n true) := reads_program (by omega)
      obtain ⟨_, adv, _⟩ := hread.of_ok hp
      have hlog : (d.report d.last unclosed).log = lacking :: d.log := by
        show Diagnostic.atToken d.last _ :: d.log = _
        rw [adv.last, Diagnostic.atToken, place_last tokens nextId]
      rw [parse_of_ok hagrees, hlog, List.reverse_cons]
      rfl
  · rw [hphrase]
    exact hexpression e
  · rw [hphrase, ← series_clean (show 16 * start.rest.length + 3 ≤ n by omega)]
    have hstart : start.log = [] := rfl
    constructor
    · rintro ⟨⟨e, rfl⟩, hclean⟩
      have hlog : d.log = [] := by simpa using hclean
      obtain ⟨hs, hrest⟩ := (program_expression hn).1 hp
      exact ⟨e, d, hs, hrest, by rw [hlog, hstart]⟩
    · rintro ⟨e, d', hs, hrest, hlog⟩
      have he := (program_expression hn).2 ⟨hs, hrest⟩
      rw [hp] at he
      cases he
      rw [hstart] at hlog
      exact ⟨⟨e, rfl⟩, by simpa using hlog⟩

end Parse

end Lox
