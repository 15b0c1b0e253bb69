import Lox.Proofs.Syntax.Parsing
import Lox.Proofs.Syntax.Rendering

/-!
Reading undoes rendering. What a renderable tree is written as, on whatever lines, is a phrase of the
grammar for the tree.
-/

namespace Lox

open Phrase

/-- The same words, possibly on other lines. -/
def Alike (ts us : List Token) : Prop := ts.map Token.unlined = us.map Token.unlined

section Alike

variable {ts us vs : List Token} {t u : Token}

theorem kind_of_unlined (h : t.unlined = u.unlined) : t.kind = u.kind := (Token.mk.inj h).1

theorem literal_of_unlined (h : t.unlined = u.unlined) : t.literal = u.literal :=
  (Token.mk.inj h).2.2.1

theorem alike_nil : Alike ts [] ↔ ts = [] := List.map_eq_nil_iff

theorem alike_cons :
    Alike ts (u :: us) ↔ ∃ t rest, ts = t :: rest ∧ t.unlined = u.unlined ∧ Alike rest us := by
  unfold Alike
  rw [List.map_cons, List.map_eq_cons_iff]

theorem alike_append :
    Alike ts (us ++ vs) ↔ ∃ front back, ts = front ++ back ∧ Alike front us ∧ Alike back vs := by
  unfold Alike
  rw [List.map_append, List.map_eq_append_iff]

end Alike

/-! The trees without their lines and node numbers. -/

def Expr.plain : Expr → Expr := Expr.relabel Token.unlined fun _ => 0

def Expr.plainAll : List Expr → List Expr := Expr.relabelAll Token.unlined fun _ => 0

def Expr.plain? : Option Expr → Option Expr := Expr.relabel? Token.unlined fun _ => 0

def Stmt.plain : Stmt → Stmt := Stmt.relabel Token.unlined fun _ => 0

def Stmt.plainAll : List Stmt → List Stmt := Stmt.relabelAll Token.unlined fun _ => 0

def FunctionDecl.plain : FunctionDecl → FunctionDecl := FunctionDecl.relabel Token.unlined fun _ => 0

def FunctionDecl.plainAll : List FunctionDecl → List FunctionDecl :=
  FunctionDecl.relabelAll Token.unlined fun _ => 0

def Lambda.plain : Lambda → Lambda := Lambda.relabel Token.unlined fun _ => 0

section Levels

/-- The phrases of a level. -/
def AtLevel : Nat → List Token → Expr → Prop
  | 0 => Series
  | 1 => Expression
  | 2 => Conditional
  | 10 => Call
  | 11 => Primary
  | n + 3 => Binary (precedence.drop n)

variable {ts : List Token} {e : Expr} {k l : Nat}

theorem AtLevel.looser (h : AtLevel (k + 1) ts e) (hk : k ≤ 10) : AtLevel k ts e := by
  match k, hk with
  | 0, _ => exact .expression h
  | 1, _ => exact .conditional h
  | 2, _ => exact .binary h
  | 3, _ => exact .tighter h
  | 4, _ => exact .tighter h
  | 5, _ => exact .tighter h
  | 6, _ => exact .tighter h
  | 7, _ => exact .tighter h
  | 8, _ => exact .tighter h
  | 9, _ => exact .of_call h
  | 10, _ => exact .primary h

theorem AtLevel.mono (h : AtLevel k ts e) (hl : l ≤ k) (hk : k ≤ 11) : AtLevel l ts e := by
  induction k with
  | zero => rwa [Nat.le_zero.1 hl]
  | succ k ih =>
    rcases Nat.lt_or_eq_of_le hl with hlt | rfl
    · exact ih (h.looser (by omega)) (by omega) (by omega)
    · exact h

theorem atLevel_binary {i : Nat} (hi : i ≤ 6) : AtLevel (3 + i) = Binary (precedence.drop i) := by
  match i, hi with
  | 0, _ | 1, _ | 2, _ | 3, _ | 4, _ | 5, _ | 6, _ => rfl

theorem AtLevel.operator {us : List Token} {left right l r : Expr} {operator op : Token}
    (hop : op.kind = operator.kind)
    (hlevel : (Expr.binary left operator right).level < 9)
    (hl : AtLevel (Expr.binary left operator right).level ts l)
    (hr : AtLevel ((Expr.binary left operator right).level + 1) us r) :
    AtLevel (Expr.binary left operator right).level (ts ++ op :: us) (.binary l op r) := by
  unfold Expr.level at hlevel hl hr ⊢
  simp only at hlevel hl hr ⊢
  rw [← hop] at hlevel hl hr ⊢
  by_cases hcomma : op.kind = .comma
  · simp only [if_pos hcomma] at hl hr ⊢
    exact .comma hl hcomma hr
  · simp only [if_neg hcomma] at hlevel hl hr ⊢
    generalize hi : precedence.findIdx (fun kinds => op.kind ∈ kinds) = i at hlevel hl hr ⊢
    have hlt : i < precedence.length := by
      have : precedence.length = 6 := rfl
      omega
    have hmem : op.kind ∈ precedence[i] := by
      subst hi
      simpa using @List.findIdx_getElem _ (fun kinds => decide (op.kind ∈ kinds)) precedence hlt
    rw [Nat.add_assoc] at hr
    rw [atLevel_binary (by omega)] at hl hr ⊢
    rw [List.drop_eq_getElem_cons hlt] at hl ⊢
    exact .operator hl hmem hr

theorem binary_nil (h : Binary [] ts e) : Unary ts e := by
  cases h with
  | unary h => exact h

/-- A literal is read from its token, whatever the line. -/
theorem primary_literal {value : Literal} {t : Token} (ht : t.unlined = value.token.unlined) :
    Primary [t] (.literal value) := by
  have hkind := kind_of_unlined ht
  have hliteral := literal_of_unlined ht
  match value with
  | .nil => exact .nil hkind
  | .boolean true => exact .true hkind
  | .boolean false => exact .false hkind
  | .number value =>
    have hp : Primary [t] (.literal (t.literal.getD .nil)) := .literal (.inl hkind)
    rwa [hliteral] at hp
  | .string text =>
    have hp : Primary [t] (.literal (t.literal.getD .nil)) := .literal (.inr hkind)
    rwa [hliteral] at hp

end Levels

section Parts

/-- A declaration, which is a statement where only statements may stand. -/
structure Written (inLoop declares dangles : Bool) (words : List Token) (s : Stmt) : Prop where
  declaration : Declaration inLoop words s
  statement : declares = false → Statement inLoop dangles words s

variable {inLoop declares dangles : Bool} {words : List Token} {s : Stmt}

theorem Written.of (h : Statement inLoop dangles words s) : Written inLoop declares dangles words s :=
  ⟨.statement h, fun _ => h⟩

theorem Written.of_declares (hd : declares = true) (h : Declaration inLoop words s) :
    Written inLoop declares dangles words s := by
  refine ⟨h, fun hf => ?_⟩
  rw [hd] at hf
  nomatch hf

theorem superclass_phrase {superclass : Option Reference}
    (h : superclass.all (·.name.kind == .identifier) = true)
    (hw : Alike words ((superclass.map fun ref => [Token.fixed .less "<", ref.name]).getD [])) :
    ∃ superclass', Superclass words superclass' ∧
      superclass'.map (·.relabel Token.unlined fun _ => 0) =
        superclass.map (·.relabel Token.unlined fun _ => 0) := by
  cases superclass with
  | none =>
    obtain rfl := alike_nil.1 hw
    exact ⟨none, .none, rfl⟩
  | some ref =>
    simp only [Option.map_some, Option.getD_some, alike_cons, alike_nil] at hw
    obtain ⟨less, _, rfl, hl, name, _, rfl, hn, rfl⟩ := hw
    have hkind : ref.name.kind = .identifier := by simpa using h
    have hs := @Superclass.some less ⟨ref.id, name⟩ (kind_of_unlined hl)
      ((kind_of_unlined hn).trans hkind)
    refine ⟨_, hs, ?_⟩
    simp only [Option.map_some, Reference.relabel, hn]

theorem names_phrase {params : List Token} (h : params.all (·.kind == .identifier) = true)
    (hne : params ≠ []) (hw : Alike words (commaSeparated (params.map fun t => [t]))) :
    ∃ names, Names words names ∧ names.map Token.unlined = params.map Token.unlined := by
  induction params generalizing words with
  | nil => exact absurd rfl hne
  | cons t rest ih =>
    rw [List.all_cons, Bool.and_eq_true, beq_iff_eq] at h
    cases rest with
    | nil =>
      simp only [List.map_cons, List.map_nil, commaSeparated, alike_cons, alike_nil] at hw
      obtain ⟨n, _, rfl, hn, rfl⟩ := hw
      exact ⟨[n], .last ((kind_of_unlined hn).trans h.1), congrArg (fun t => [t]) hn⟩
    | cons u rest =>
      simp only [List.map_cons, commaSeparated, List.cons_append, List.nil_append, alike_cons] at hw
      obtain ⟨n, _, rfl, hn, comma, us, rfl, hc, hus⟩ := hw
      obtain ⟨names, hs, hs'⟩ := ih h.2 (List.cons_ne_nil u rest) hus
      refine ⟨n :: names, .more ((kind_of_unlined hn).trans h.1) (kind_of_unlined hc) hs, ?_⟩
      rw [List.map_cons, List.map_cons, hn, hs']

theorem parameters_phrase {params : List Token} (h : params.all (·.kind == .identifier) = true)
    (hlen : params.length ≤ 255) (hw : Alike words (commaSeparated (params.map fun t => [t]))) :
    ∃ names, Parameters words names ∧ names.map Token.unlined = params.map Token.unlined := by
  by_cases hne : params = []
  · subst hne
    obtain rfl := alike_nil.1 hw
    exact ⟨[], .none, rfl⟩
  · obtain ⟨names, hn, hn'⟩ := names_phrase h hne hw
    have hl := congrArg List.length hn'
    rw [List.length_map, List.length_map] at hl
    exact ⟨names, .some hn (by omega), hn'⟩

end Parts

mutual

theorem Expr.phrase : ∀ (e : Expr) {least : Nat} {words : List Token}, e.renderable least = true →
    Alike words e.render → ∃ e', AtLevel least words e' ∧ e'.plain = e.plain
  | .literal value, least, words, h, hw => by
    simp only [Expr.renderable, decide_eq_true_eq] at h
    simp only [Expr.render, alike_cons, alike_nil] at hw
    obtain ⟨t, _, rfl, ht, rfl⟩ := hw
    exact ⟨_, AtLevel.mono (k := 11) (primary_literal ht) h (Nat.le_refl _), rfl⟩
  | .grouping inner, least, words, h, hw => by
    simp only [Expr.renderable, Bool.and_eq_true, decide_eq_true_eq] at h
    simp only [Expr.render, alike_cons, alike_append, alike_nil] at hw
    obtain ⟨left, _, rfl, hleft, ts, _, rfl, hts, right, _, rfl, hright, rfl⟩ := hw
    obtain ⟨e', he, he'⟩ := Expr.phrase inner h.2 hts
    have hp : Primary _ _ := .grouping (kind_of_unlined hleft) he (kind_of_unlined hright)
    refine ⟨_, AtLevel.mono (k := 11) hp h.1 (Nat.le_refl _), ?_⟩
    simp only [Expr.plain, Expr.relabel] at he' ⊢
    rw [he']
  | .unary operator right, least, words, h, hw => by
    simp only [Expr.renderable, Bool.and_eq_true, Bool.or_eq_true, decide_eq_true_eq,
      beq_iff_eq] at h
    simp only [Expr.render, alike_cons] at hw
    obtain ⟨op, ts, rfl, hop, hts⟩ := hw
    obtain ⟨e', he, he'⟩ := Expr.phrase right h.2 hts
    have hkind := kind_of_unlined hop
    rw [← hkind] at h
    have hu : Unary _ _ := .operator h.1.2 (binary_nil he)
    refine ⟨_, AtLevel.mono (k := 9) (.unary hu) h.1.1 (by decide), ?_⟩
    simp only [Expr.plain, Expr.relabel] at he' ⊢
    rw [he', hop]
  | .binary left operator right, least, words, h, hw => by
    simp only [Expr.renderable, Bool.and_eq_true, decide_eq_true_eq] at h
    obtain ⟨⟨⟨hleast, hlevel⟩, hl⟩, hr⟩ := h
    simp only [Expr.render, alike_append, alike_cons] at hw
    obtain ⟨ls, _, rfl, hls, op, rs, rfl, hop, hrs⟩ := hw
    obtain ⟨l, hl, hl'⟩ := Expr.phrase left hl hls
    obtain ⟨r, hr, hr'⟩ := Expr.phrase right hr hrs
    refine ⟨.binary l op r, ?_, ?_⟩
    · exact (AtLevel.operator (kind_of_unlined hop) hlevel hl hr).mono hleast (by omega)
    · simp only [Expr.plain, Expr.relabel] at hl' hr' ⊢
      rw [hl', hr', hop]
  | .binaryError _ _, _, _, h, _ => nomatch h
  | .conditional condition thenBranch elseBranch, least, words, h, hw => by
    simp only [Expr.renderable, Bool.and_eq_true, decide_eq_true_eq] at h
    obtain ⟨⟨⟨hleast, hc⟩, ht⟩, hf⟩ := h
    simp only [Expr.render, alike_append, alike_cons] at hw
    obtain ⟨cs, _, rfl, hcs, question, _, rfl, hq, ts, _, rfl, hts, colon, fs, rfl, hco, hfs⟩ := hw
    obtain ⟨c, hc, hc'⟩ := Expr.phrase condition hc hcs
    obtain ⟨t, ht, ht'⟩ := Expr.phrase thenBranch ht hts
    obtain ⟨f, hf, hf'⟩ := Expr.phrase elseBranch hf hfs
    have hp : Conditional _ _ :=
      .conditional hc (kind_of_unlined hq) ht (kind_of_unlined hco) hf
    refine ⟨_, AtLevel.mono (k := 2) hp hleast (by decide), ?_⟩
    simp only [Expr.plain, Expr.relabel] at hc' ht' hf' ⊢
    rw [hc', ht', hf']
  | .variable ref, least, words, h, hw => by
    simp only [Expr.renderable, Bool.and_eq_true, decide_eq_true_eq, beq_iff_eq] at h
    simp only [Expr.render, alike_cons, alike_nil] at hw
    obtain ⟨t, _, rfl, ht, rfl⟩ := hw
    have hp := @Primary.variable ⟨ref.id, t⟩ ((kind_of_unlined ht).trans h.2)
    refine ⟨_, AtLevel.mono (k := 11) hp h.1 (Nat.le_refl _), ?_⟩
    simp only [Expr.plain, Expr.relabel, Reference.relabel, ht]
  | .assign target value, least, words, h, hw => by
    simp only [Expr.renderable, Bool.and_eq_true, decide_eq_true_eq, beq_iff_eq] at h
    simp only [Expr.render, alike_cons] at hw
    obtain ⟨t, _, rfl, ht, equals, ts, rfl, heq, hts⟩ := hw
    obtain ⟨e', he, he'⟩ := Expr.phrase value h.2 hts
    have hp := @Expression.assign ⟨target.id, t⟩ _ _ _ ((kind_of_unlined ht).trans h.1.2)
      (kind_of_unlined heq) he
    refine ⟨_, AtLevel.mono (k := 1) hp h.1.1 (by decide), ?_⟩
    simp only [Expr.plain, Expr.relabel, Reference.relabel] at he' ⊢
    rw [he', ht]
  | .call callee paren arguments, least, words, h, hw => by
    simp only [Expr.renderable, Bool.and_eq_true, decide_eq_true_eq, beq_iff_eq] at h
    obtain ⟨⟨⟨⟨hleast, hc⟩, hparen⟩, hlen⟩, hargs⟩ := h
    simp only [Expr.render, alike_append, alike_cons, alike_nil] at hw
    obtain ⟨cs, _, rfl, hcs, opener, _, rfl, ho, as, _, rfl, has, p, _, rfl, hp, rfl⟩ := hw
    obtain ⟨c, hc, hc'⟩ := Expr.phrase callee hc hcs
    have hpk := (kind_of_unlined hp).trans hparen
    obtain ⟨args, hcall, hargs'⟩ : ∃ args, Call (cs ++ opener :: (as ++ [p])) (.call c p args) ∧
        Expr.plainAll args = Expr.plainAll arguments := by
      rcases Expr.phrase_all arguments hargs has with ⟨rfl, rfl⟩ | ⟨args, ha, ha', hl⟩
      · exact ⟨[], .noArguments hc (kind_of_unlined ho) hpk, rfl⟩
      · exact ⟨args, .arguments hc (kind_of_unlined ho) ha (by omega) hpk, ha'⟩
    refine ⟨_, AtLevel.mono (k := 10) hcall hleast (by decide), ?_⟩
    simp only [Expr.plain, Expr.plainAll, Expr.relabel] at hc' hargs' ⊢
    rw [hc', hargs', hp]
  | .get object name, least, words, h, hw => by
    simp only [Expr.renderable, Bool.and_eq_true, decide_eq_true_eq, beq_iff_eq] at h
    simp only [Expr.render, alike_append, alike_cons, alike_nil] at hw
    obtain ⟨os, _, rfl, hos, dot, _, rfl, hd, n, _, rfl, hn, rfl⟩ := hw
    obtain ⟨o, ho, ho'⟩ := Expr.phrase object h.1.2 hos
    have hp : Call _ _ := .property ho (kind_of_unlined hd) ((kind_of_unlined hn).trans h.2)
    refine ⟨_, AtLevel.mono (k := 10) hp h.1.1 (by decide), ?_⟩
    simp only [Expr.plain, Expr.relabel] at ho' ⊢
    rw [ho', hn]
  | .set object name value, least, words, h, hw => by
    simp only [Expr.renderable, Bool.and_eq_true, decide_eq_true_eq, beq_iff_eq] at h
    obtain ⟨⟨⟨hleast, ho⟩, hname⟩, hv⟩ := h
    simp only [Expr.render, alike_append, alike_cons] at hw
    obtain ⟨os, _, rfl, hos, dot, _, rfl, hd, n, _, rfl, hn, equals, vs, rfl, heq, hvs⟩ := hw
    obtain ⟨o, ho, ho'⟩ := Expr.phrase object ho hos
    obtain ⟨v, hv, hv'⟩ := Expr.phrase value hv hvs
    have hp : Expression _ _ := .set ho (kind_of_unlined hd) ((kind_of_unlined hn).trans hname)
      (kind_of_unlined heq) hv
    refine ⟨_, AtLevel.mono (k := 1) hp hleast (by decide), ?_⟩
    simp only [Expr.plain, Expr.relabel] at ho' hv' ⊢
    rw [ho', hv', hn]
  | .this ref, least, words, h, hw => by
    simp only [Expr.renderable, Bool.and_eq_true, decide_eq_true_eq, beq_iff_eq] at h
    simp only [Expr.render, alike_cons, alike_nil] at hw
    obtain ⟨t, _, rfl, ht, rfl⟩ := hw
    have hp := @Primary.this ⟨ref.id, t⟩ ((kind_of_unlined ht).trans h.2)
    refine ⟨_, AtLevel.mono (k := 11) hp h.1 (Nat.le_refl _), ?_⟩
    simp only [Expr.plain, Expr.relabel, Reference.relabel, ht]
  | .super ref method, least, words, h, hw => by
    simp only [Expr.renderable, Bool.and_eq_true, decide_eq_true_eq, beq_iff_eq] at h
    simp only [Expr.render, alike_cons, alike_nil] at hw
    obtain ⟨t, _, rfl, ht, dot, _, rfl, hd, m, _, rfl, hm, rfl⟩ := hw
    have hp := @Primary.super ⟨ref.id, t⟩ _ _ ((kind_of_unlined ht).trans h.1.2)
      (kind_of_unlined hd) ((kind_of_unlined hm).trans h.2)
    refine ⟨_, AtLevel.mono (k := 11) hp h.1.1 (Nat.le_refl _), ?_⟩
    simp only [Expr.plain, Expr.relabel, Reference.relabel, ht, hm]
  | .lambda function, least, words, h, hw => by
    simp only [Expr.renderable, Bool.and_eq_true, decide_eq_true_eq] at h
    simp only [Expr.render, alike_cons] at hw
    obtain ⟨keyword, ts, rfl, hk, hts⟩ := hw
    obtain ⟨f, hf, hf'⟩ := Lambda.phrase function h.2 hts
    have hp : Primary _ _ := .lambda (kind_of_unlined hk) hf
    refine ⟨_, AtLevel.mono (k := 11) hp h.1 (Nat.le_refl _), ?_⟩
    simp only [Expr.plain, Lambda.plain, Expr.relabel] at hf' ⊢
    rw [hf']

/-- No arguments, or some with commas between them. -/
theorem Expr.phrase_all : ∀ (es : List Expr) {words : List Token}, Expr.renderableAll es = true →
    Alike words (commaSeparated (Expr.renderAll es)) →
    (words = [] ∧ es = []) ∨ ∃ es', Arguments words es' ∧ Expr.plainAll es' = Expr.plainAll es ∧
      es'.length = es.length
  | [], _, _, hw => .inl ⟨alike_nil.1 hw, rfl⟩
  | [e], words, h, hw => by
    simp only [Expr.renderableAll, Bool.and_true] at h
    simp only [Expr.renderAll, commaSeparated] at hw
    obtain ⟨e', he, he'⟩ := Expr.phrase e h hw
    refine .inr ⟨[e'], .last he, ?_, rfl⟩
    simp only [Expr.plain, Expr.plainAll, Expr.relabelAll] at he' ⊢
    rw [he']
  | e :: e₂ :: rest, words, h, hw => by
    rw [Expr.renderableAll, Bool.and_eq_true] at h
    simp only [Expr.renderAll, commaSeparated, alike_append, alike_cons] at hw
    obtain ⟨ts, _, rfl, hts, comma, us, rfl, hc, hus⟩ := hw
    obtain ⟨e', he, he'⟩ := Expr.phrase e h.1 hts
    rcases Expr.phrase_all (e₂ :: rest) h.2 hus with ⟨_, hnil⟩ | ⟨es', hes, hes', hl⟩
    · nomatch hnil
    · refine .inr ⟨e' :: es', .more he (kind_of_unlined hc) hes, ?_, by simpa using hl⟩
      simp only [Expr.plain, Expr.plainAll, Expr.relabelAll] at he' hes' ⊢
      rw [he', hes']

theorem Expr.phrase? : ∀ (e? : Option Expr) {words : List Token}, Expr.renderable? e? = true →
    Alike words (Expr.render? e?) →
    ∃ e?', OptionalExpression words e?' ∧ Expr.plain? e?' = Expr.plain? e?
  | none, _, _, hw => by
    obtain rfl := alike_nil.1 hw
    exact ⟨none, .none, rfl⟩
  | some e, _, h, hw => by
    obtain ⟨e', he, he'⟩ := Expr.phrase e h hw
    exact ⟨some e', .some he, congrArg some he'⟩

theorem Stmt.phrase : ∀ (s : Stmt) {inLoop declares : Bool} {words : List Token},
    s.renderable inLoop declares = true → Alike words s.render →
    ∃ s', Written inLoop declares s.dangles words s' ∧ s'.plain = s.plain
  | .expression e, inLoop, declares, words, h, hw => by
    simp only [Stmt.render, alike_append, alike_cons, alike_nil] at hw
    obtain ⟨ts, _, rfl, hts, semicolon, _, rfl, hs, rfl⟩ := hw
    obtain ⟨e', he, he'⟩ := Expr.phrase e h hts
    exact ⟨_, .of (.expression he (kind_of_unlined hs)), congrArg Stmt.expression he'⟩
  | .print e, inLoop, declares, words, h, hw => by
    simp only [Stmt.render, alike_append, alike_cons, alike_nil] at hw
    obtain ⟨keyword, _, rfl, hk, ts, _, rfl, hts, semicolon, _, rfl, hs, rfl⟩ := hw
    obtain ⟨e', he, he'⟩ := Expr.phrase e h hts
    exact ⟨_, .of (.print (kind_of_unlined hk) he (kind_of_unlined hs)), congrArg Stmt.print he'⟩
  | .breakError _, _, _, _, h, _ | .continueError _, _, _, _, h, _ => nomatch h
  | .var name none, inLoop, declares, words, h, hw => by
    simp only [Stmt.renderable, Bool.and_eq_true, beq_iff_eq] at h
    simp only [Stmt.render, alike_cons, alike_nil] at hw
    obtain ⟨keyword, _, rfl, hk, n, _, rfl, hn, semicolon, _, rfl, hs, rfl⟩ := hw
    have hv : Variable _ _ := .unassigned ((kind_of_unlined hn).trans h.1.2) (kind_of_unlined hs)
    refine ⟨_, .of_declares h.1.1 (.var (kind_of_unlined hk) hv), ?_⟩
    exact congrArg (Stmt.var · none) hn
  | .var name (some e), inLoop, declares, words, h, hw => by
    simp only [Stmt.renderable, Bool.and_eq_true, beq_iff_eq] at h
    simp only [Stmt.render, alike_append, alike_cons, alike_nil] at hw
    obtain ⟨keyword, _, rfl, hk, n, _, rfl, hn, equals, _, rfl, heq, ts, _, rfl, hts, semicolon, _,
      rfl, hs, rfl⟩ := hw
    obtain ⟨e', he, he'⟩ := Expr.phrase e h.2 hts
    have hv : Variable _ _ := .initialized ((kind_of_unlined hn).trans h.1.2) (kind_of_unlined heq)
      he (kind_of_unlined hs)
    refine ⟨_, .of_declares h.1.1 (.var (kind_of_unlined hk) hv), ?_⟩
    simp only [Expr.plain, Stmt.plain, Stmt.relabel, Expr.relabel?] at he' ⊢
    rw [he', hn]
  | .function decl, inLoop, declares, words, h, hw => by
    rw [Stmt.renderable, Bool.and_eq_true] at h
    simp only [Stmt.render, alike_cons] at hw
    obtain ⟨keyword, _, rfl, hk, hts⟩ := hw
    obtain ⟨n, f, fs, rfl, hn, hf, hf'⟩ := FunctionDecl.phrase decl h.2 hts
    refine ⟨_, .of_declares h.1 (.function (kind_of_unlined hk) hn hf), ?_⟩
    exact congrArg Stmt.function hf'
  | .class name superclass methods statics, inLoop, declares, words, h, hw => by
    simp only [Stmt.renderable, Bool.and_eq_true, beq_iff_eq] at h
    obtain ⟨⟨⟨⟨hdeclares, hname⟩, hsuper⟩, hm⟩, hst⟩ := h
    simp only [Stmt.render, alike_append, alike_cons, alike_nil] at hw
    obtain ⟨keyword, _, rfl, hk, n, _, rfl, hn, ss, _, rfl, hss, left, _, rfl, hl, ms, _, rfl, hms,
      sts, _, rfl, hsts, right, _, rfl, hr, rfl⟩ := hw
    obtain ⟨superclass', hs, hs'⟩ := superclass_phrase hsuper hss
    obtain ⟨statics', hstatics, hstatics'⟩ := FunctionDecl.phrase_statics statics hst hsts
    obtain ⟨methods', hmethods, hmethods'⟩ := FunctionDecl.phrase_all methods hm hms hstatics
    have hp : Declaration inLoop _ _ := .class (kind_of_unlined hk)
      ((kind_of_unlined hn).trans hname) hs (kind_of_unlined hl) hmethods (kind_of_unlined hr)
    refine ⟨.class n superclass' methods' statics', .of_declares hdeclares (by simpa using hp), ?_⟩
    simp only [FunctionDecl.plainAll, Stmt.plain, Stmt.relabel] at hmethods' hstatics' ⊢
    rw [hn, hs', hmethods', hstatics']
  | .block body, inLoop, declares, words, h, hw => by
    simp only [Stmt.render, alike_append, alike_cons, alike_nil] at hw
    obtain ⟨left, _, rfl, hl, ts, _, rfl, hts, right, _, rfl, hr, rfl⟩ := hw
    obtain ⟨body', hb, hb'⟩ := Stmt.phrase_all body h hts
    exact ⟨_, .of (.block (kind_of_unlined hl) hb (kind_of_unlined hr)), congrArg Stmt.block hb'⟩
  | .ite condition thenBranch none, inLoop, declares, words, h, hw => by
    rw [Stmt.renderable, Bool.and_eq_true] at h
    simp only [Stmt.render, alike_append, alike_cons] at hw
    obtain ⟨keyword, _, rfl, hk, opener, _, rfl, ho, cs, _, rfl, hcs, closer, ts, rfl, hcl, hts⟩ :=
      hw
    obtain ⟨c, hc, hc'⟩ := Expr.phrase condition h.1 hcs
    obtain ⟨t, ht, ht'⟩ := Stmt.phrase thenBranch h.2 hts
    have hs := Statement.if (kind_of_unlined hk) (kind_of_unlined ho) hc (kind_of_unlined hcl)
      (ht.statement rfl)
    refine ⟨_, .of hs, ?_⟩
    simp only [Expr.plain, Stmt.plain, Stmt.relabel, Stmt.relabel?] at hc' ht' ⊢
    rw [hc', ht']
  | .ite condition thenBranch (some elseBranch), inLoop, declares, words, h, hw => by
    simp only [Stmt.renderable, Bool.and_eq_true, Bool.not_eq_true'] at h
    obtain ⟨⟨⟨hc, ht⟩, hdangles⟩, he⟩ := h
    simp only [Stmt.render, alike_append, alike_cons] at hw
    obtain ⟨keyword, _, rfl, hk, opener, _, rfl, ho, cs, _, rfl, hcs, closer, _, rfl, hcl, ts, _,
      rfl, hts, middle, es, rfl, hm, hes⟩ := hw
    obtain ⟨c, hc, hc'⟩ := Expr.phrase condition hc hcs
    obtain ⟨t, ht, ht'⟩ := Stmt.phrase thenBranch ht hts
    obtain ⟨e, he, he'⟩ := Stmt.phrase elseBranch he hes
    rw [hdangles] at ht
    have hs := Statement.ifElse (kind_of_unlined hk) (kind_of_unlined ho) hc (kind_of_unlined hcl)
      (ht.statement rfl) (kind_of_unlined hm) (he.statement rfl)
    refine ⟨_, .of hs, ?_⟩
    simp only [Expr.plain, Stmt.plain, Stmt.relabel, Stmt.relabel?] at hc' ht' he' ⊢
    rw [hc', ht', he']
  | .loop condition body none, inLoop, declares, words, h, hw => by
    simp only [Stmt.renderable, Bool.and_eq_true] at h
    simp only [Stmt.render, alike_append, alike_cons] at hw
    obtain ⟨keyword, _, rfl, hk, opener, _, rfl, ho, cs, _, rfl, hcs, closer, bs, rfl, hcl, hbs⟩ :=
      hw
    obtain ⟨c, hc, hc'⟩ := Expr.phrase condition h.1.1 hcs
    obtain ⟨b, hb, hb'⟩ := Stmt.phrase body h.1.2 hbs
    have hs : Statement inLoop _ _ _ := .while (kind_of_unlined hk) (kind_of_unlined ho) hc
      (kind_of_unlined hcl) (hb.statement rfl)
    refine ⟨_, .of hs, ?_⟩
    simp only [Expr.plain, Stmt.plain, Stmt.relabel] at hc' hb' ⊢
    rw [hc', hb']
  | .loop condition body (some increment), inLoop, declares, words, h, hw => by
    simp only [Stmt.renderable, Expr.renderable?, Bool.and_eq_true] at h
    simp only [Stmt.render, alike_append, alike_cons] at hw
    obtain ⟨keyword, _, rfl, hk, opener, _, rfl, ho, first, _, rfl, hf, cs, _, rfl, hcs, semicolon,
      _, rfl, hs, is, _, rfl, his, closer, bs, rfl, hcl, hbs⟩ := hw
    obtain ⟨c, hc, hc'⟩ := Expr.phrase condition h.1.1 hcs
    obtain ⟨i, hi, hi'⟩ := Expr.phrase increment h.2 his
    obtain ⟨b, hb, hb'⟩ := Stmt.phrase body h.1.2 hbs
    have hs : Statement inLoop _ _ _ := .for (kind_of_unlined hk) (kind_of_unlined ho)
      (.none (kind_of_unlined hf)) (.some hc) (kind_of_unlined hs) (.some hi) (kind_of_unlined hcl)
      (hb.statement rfl)
    refine ⟨_, .of hs, ?_⟩
    simp only [forLoop, Option.getD_some, Expr.plain, Stmt.plain, Stmt.relabel, Expr.relabel?]
      at hc' hi' hb' ⊢
    rw [hc', hi', hb']
  | .break keyword, inLoop, declares, words, h, hw => by
    simp only [Stmt.renderable, Bool.and_eq_true, beq_iff_eq] at h
    simp only [Stmt.render, alike_cons, alike_nil] at hw
    obtain ⟨k, _, rfl, hk, semicolon, _, rfl, hs, rfl⟩ := hw
    obtain rfl := h.1
    refine ⟨_, .of (.break ((kind_of_unlined hk).trans h.2) (kind_of_unlined hs)), ?_⟩
    exact congrArg Stmt.break hk
  | .continue keyword, inLoop, declares, words, h, hw => by
    simp only [Stmt.renderable, Bool.and_eq_true, beq_iff_eq] at h
    simp only [Stmt.render, alike_cons, alike_nil] at hw
    obtain ⟨k, _, rfl, hk, semicolon, _, rfl, hs, rfl⟩ := hw
    obtain rfl := h.1
    refine ⟨_, .of (.continue ((kind_of_unlined hk).trans h.2) (kind_of_unlined hs)), ?_⟩
    exact congrArg Stmt.continue hk
  | .return keyword value, inLoop, declares, words, h, hw => by
    simp only [Stmt.renderable, Bool.and_eq_true, beq_iff_eq] at h
    simp only [Stmt.render, alike_append, alike_cons, alike_nil] at hw
    obtain ⟨k, _, rfl, hk, vs, _, rfl, hvs, semicolon, _, rfl, hs, rfl⟩ := hw
    obtain ⟨v, hv, hv'⟩ := Expr.phrase? value h.2 hvs
    refine ⟨_, .of (.return ((kind_of_unlined hk).trans h.1) hv (kind_of_unlined hs)), ?_⟩
    simp only [Expr.plain?, Stmt.plain, Stmt.relabel] at hv' ⊢
    rw [hv', hk]

theorem Stmt.phrase_all : ∀ (body : List Stmt) {inLoop : Bool} {words : List Token},
    Stmt.renderableAll inLoop body = true → Alike words (Stmt.renderAll body) →
    ∃ body', Declarations inLoop words body' ∧ Stmt.plainAll body' = Stmt.plainAll body
  | [], _, _, _, hw => by
    obtain rfl := alike_nil.1 hw
    exact ⟨[], .nil, rfl⟩
  | s :: rest, inLoop, words, h, hw => by
    rw [Stmt.renderableAll, Bool.and_eq_true] at h
    rw [Stmt.renderAll, alike_append] at hw
    obtain ⟨ts, us, rfl, hts, hus⟩ := hw
    obtain ⟨s', hs, hs'⟩ := Stmt.phrase s h.1 hts
    obtain ⟨rest', hrest, hrest'⟩ := Stmt.phrase_all rest h.2 hus
    refine ⟨s' :: rest', .cons hs.declaration hrest, ?_⟩
    simp only [Stmt.plain, Stmt.plainAll, Stmt.relabelAll] at hs' hrest' ⊢
    rw [hs', hrest']

theorem FunctionDecl.phrase : ∀ (decl : FunctionDecl) {words : List Token},
    decl.renderable = true → Alike words decl.render →
    ∃ name f ts, words = name :: ts ∧ name.kind = .identifier ∧ Function ts f ∧
      (FunctionDecl.mk name f).plain = decl.plain
  | .mk name function, words, h, hw => by
    simp only [FunctionDecl.renderable, Bool.and_eq_true, beq_iff_eq] at h
    simp only [FunctionDecl.render, alike_cons] at hw
    obtain ⟨n, ts, rfl, hn, hts⟩ := hw
    obtain ⟨f, hf, hf'⟩ := Lambda.phrase function h.2 hts
    refine ⟨n, f, ts, rfl, (kind_of_unlined hn).trans h.1, hf, ?_⟩
    simp only [Lambda.plain, FunctionDecl.plain, FunctionDecl.relabel] at hf' ⊢
    rw [hf', hn]

theorem FunctionDecl.phrase_statics : ∀ (decls : List FunctionDecl) {words : List Token},
    FunctionDecl.renderableAll decls = true →
    Alike words (FunctionDecl.renderAll [.fixed .class "class"] decls) →
    ∃ decls', Methods words [] decls' ∧ FunctionDecl.plainAll decls' = FunctionDecl.plainAll decls
  | [], _, _, hw => by
    obtain rfl := alike_nil.1 hw
    exact ⟨[], .none, rfl⟩
  | decl :: rest, words, h, hw => by
    rw [FunctionDecl.renderableAll, Bool.and_eq_true] at h
    simp only [FunctionDecl.renderAll, alike_append, alike_cons, alike_nil] at hw
    obtain ⟨_, _, rfl, ⟨keyword, _, rfl, hk, rfl⟩, ts, us, rfl, hts, hus⟩ := hw
    obtain ⟨n, f, fs, rfl, hn, hf, hf'⟩ := FunctionDecl.phrase decl h.1 hts
    obtain ⟨rest', hrest, hrest'⟩ := FunctionDecl.phrase_statics rest h.2 hus
    refine ⟨.mk n f :: rest', .static (kind_of_unlined hk) hn hf hrest, ?_⟩
    simp only [FunctionDecl.plain, FunctionDecl.plainAll, FunctionDecl.relabelAll] at hf' hrest' ⊢
    rw [hf', hrest']

/-- The methods of the instances come before those of the class. -/
theorem FunctionDecl.phrase_all : ∀ (decls : List FunctionDecl) {words us : List Token}
    {statics : List FunctionDecl}, FunctionDecl.renderableAll decls = true →
    Alike words (FunctionDecl.renderAll [] decls) → Methods us [] statics →
    ∃ decls', Methods (words ++ us) decls' statics ∧
      FunctionDecl.plainAll decls' = FunctionDecl.plainAll decls
  | [], _, _, _, _, hw, hs => by
    obtain rfl := alike_nil.1 hw
    exact ⟨[], hs, rfl⟩
  | decl :: rest, words, us, statics, h, hw, hs => by
    rw [FunctionDecl.renderableAll, Bool.and_eq_true] at h
    simp only [FunctionDecl.renderAll, List.nil_append, alike_append] at hw
    obtain ⟨ts, vs, rfl, hts, hvs⟩ := hw
    obtain ⟨n, f, fs, rfl, hn, hf, hf'⟩ := FunctionDecl.phrase decl h.1 hts
    obtain ⟨rest', hrest, hrest'⟩ := FunctionDecl.phrase_all rest h.2 hvs hs
    refine ⟨.mk n f :: rest', by simpa using Methods.own hn hf hrest, ?_⟩
    simp only [FunctionDecl.plain, FunctionDecl.plainAll, FunctionDecl.relabelAll] at hf' hrest' ⊢
    rw [hf', hrest']

theorem Lambda.phrase : ∀ (f : Lambda) {words : List Token}, f.renderable = true →
    Alike words f.render → ∃ f', Function words f' ∧ f'.plain = f.plain
  | .mk params body, words, h, hw => by
    simp only [Lambda.renderable, Bool.and_eq_true, decide_eq_true_eq] at h
    simp only [Lambda.render, alike_append, alike_cons, alike_nil] at hw
    obtain ⟨opener, _, rfl, ho, ps, _, rfl, hps, closer, _, rfl, hc, left, _, rfl, hl, bs, _, rfl,
      hbs, right, _, rfl, hr, rfl⟩ := hw
    obtain ⟨names, hn, hn'⟩ := parameters_phrase h.1.1 h.1.2 hps
    obtain ⟨body', hb, hb'⟩ := Stmt.phrase_all body h.2 hbs
    refine ⟨_, .mk (kind_of_unlined ho) hn (kind_of_unlined hc) (kind_of_unlined hl) hb
      (kind_of_unlined hr), ?_⟩
    simp only [Stmt.plainAll, Lambda.plain, Lambda.relabel] at hb' ⊢
    rw [hb', hn']

end

theorem plainAll_of_bareAll {body body' : List Stmt} (h : Stmt.bareAll body' = Stmt.bareAll body) :
    Stmt.plainAll body' = Stmt.plainAll body := by
  have hplain (ss : List Stmt) : Stmt.plainAll (Stmt.bareAll ss) = Stmt.plainAll ss :=
    Stmt.relabelAll_relabelAll id Token.unlined (fun _ => 0) (fun _ => 0) ss
  rw [← hplain body', h, hplain]

/-- A renderable program, written on whatever lines, is read back up to lines and node numbers. -/
theorem parse_render {body : List Stmt} {words : List Token} {mark : Token} {nextId : NodeId}
    (h : Stmt.renderableAll false body = true) (hw : Alike words (Stmt.renderAll body))
    (hm : mark.kind = .eof) :
    (parse (words ++ [mark]) false nextId).diagnostics = [] ∧
      ∃ body', (parse (words ++ [mark]) false nextId).program = .statements body' ∧
        Stmt.plainAll body' = Stmt.plainAll body := by
  obtain ⟨body₁, hphrase, hbody₁⟩ := Stmt.phrase_all body h hw
  have hrest := rest_ofTokens hphrase.endFree hm nextId
  rw [← hrest] at hphrase
  obtain ⟨hclean, body₂, hprogram, hbody₂⟩ := parse_declarations hphrase
  exact ⟨hclean, body₂, hprogram, (plainAll_of_bareAll hbody₂).trans hbody₁⟩

/-- The tree of `for (; a; b.c = -d) break;`. -/
def countingLoop : Stmt :=
  .loop (.variable ⟨0, .synthetic .identifier "a" 1⟩) (.break (.synthetic .break "break" 2))
    (some (.set (.variable ⟨1, .synthetic .identifier "b" 1⟩) (.synthetic .identifier "c" 1)
      (.unary (.synthetic .minus "-" 1) (.variable ⟨2, .synthetic .identifier "d" 1⟩))))

theorem parse_render_loop :
    let read := parse (Stmt.renderAll [countingLoop] ++ [.synthetic .eof "" 2]) false 7
    read.diagnostics = [] ∧
      ∃ body, read.program = .statements body ∧
        Stmt.plainAll body = Stmt.plainAll [countingLoop] :=
  parse_render (by decide) rfl rfl

end Lox
