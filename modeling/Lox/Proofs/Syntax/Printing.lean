import Lox.Proofs.Syntax.Entry

/-!
A series that fills a text, and the same words in a print statement. Nothing goes on with a series
where a semicolon stands, so that it is read in front of one as it is read at the end.
-/

namespace Lox

open Phrase

namespace Phrase

/-- The last word is not one that a name may make the beginning of a function. -/
def Settled (ts : List Token) : Prop := ∃ us t, ts = us ++ [t] ∧ t.kind ≠ .fun

namespace Settled

variable {ts : List Token}

theorem of_last (us : List Token) {t : Token} (ht : t.kind ≠ .fun) : Settled (us ++ [t]) :=
  ⟨us, t, rfl, ht⟩

theorem prepend (h : Settled ts) (us : List Token) : Settled (us ++ ts) := by
  obtain ⟨vs, t, rfl, ht⟩ := h
  rw [← List.append_assoc]
  exact .of_last _ ht

theorem cons (h : Settled ts) (t : Token) : Settled (t :: ts) := h.prepend [t]

theorem of_closes (h : Closes ts) : Settled ts := by
  obtain ⟨us, t, rfl, ht⟩ := h
  refine of_last us fun hfun => ?_
  rw [hfun] at ht
  exact absurd ht (by decide)

end Settled

theorem primary_settled {ts : List Token} {e : Expr} (h : Primary ts e) : Settled ts := by
  have hsingle {t : Token} {kind : TokenKind} (ht : t.kind = kind) (hkind : kind ≠ .fun) :
      Settled [t] := .of_last [] (ht ▸ hkind)
  cases h with
  | false ht | true ht | nil ht => exact hsingle ht (by decide)
  | literal ht => rcases ht with ht | ht <;> exact hsingle ht (by decide)
  | this ht | «variable» ht => exact hsingle ht (by decide)
  | super _ _ hm => exact ((hsingle hm (by decide)).cons _).cons _
  | grouping _ _ hc => exact ((hsingle hc (by decide)).prepend _).cons _
  | lambda _ h => exact (Settled.of_closes (function_closes h)).cons _

theorem call_settled {ts : List Token} {e : Expr} (h : Call ts e) : Settled ts := by
  have hsingle {t : Token} {kind : TokenKind} (ht : t.kind = kind) (hkind : kind ≠ .fun) :
      Settled [t] := .of_last [] (ht ▸ hkind)
  cases h with
  | primary h => exact primary_settled h
  | noArguments _ _ hp => exact ((hsingle hp (by decide)).cons _).prepend _
  | arguments _ _ _ _ hp => exact (((hsingle hp (by decide)).prepend _).cons _).prepend _
  | property _ _ hn => exact ((hsingle hn (by decide)).cons _).prepend _

theorem unary_settled {ts : List Token} {e : Expr} (h : Unary ts e) : Settled ts := by
  cases h with
  | operator _ h => exact (unary_settled h).cons _
  | call h => exact call_settled h

theorem binary_settled {levels : List (List TokenKind)} {ts : List Token} {e : Expr}
    (h : Binary levels ts e) : Settled ts := by
  cases h with
  | unary h => exact unary_settled h
  | tighter h => exact binary_settled h
  | operator _ _ hr => exact ((binary_settled hr).cons _).prepend _

theorem conditional_settled {ts : List Token} {e : Expr} (h : Conditional ts e) : Settled ts := by
  cases h with
  | binary h => exact binary_settled h
  | conditional _ _ _ _ hf =>
    exact ((((conditional_settled hf).cons _).prepend _).cons _).prepend _

theorem expression_settled {ts : List Token} {e : Expr} (h : Expression ts e) : Settled ts := by
  cases h with
  | conditional h => exact conditional_settled h
  | assign _ _ h => exact ((expression_settled h).cons _).cons _
  | set _ _ _ _ h => exact ((((expression_settled h).cons _).cons _).cons _).prepend _

theorem series_settled {ts : List Token} {e : Expr} (h : Series ts e) : Settled ts := by
  cases h with
  | expression h => exact expression_settled h
  | comma _ _ hr => exact ((expression_settled hr).cons _).prepend _

end Phrase

namespace Reader

variable {c d : Cursor} {n m : Nat} {e : Expr} {semicolon mark : Token}

/-- In front of a semicolon a series is read that is read to the end of a text. -/
theorem series_closed (hn : 16 * c.rest.length + 3 ≤ n) (hnm : n ≤ m)
    (h : series n (expression n) c = .ok e d) (hrest : d.rest = []) (hlog : d.log = c.log)
    (hs : semicolon.kind = .semicolon) :
    series m (expression m) { c with rest := c.rest ++ [semicolon], last := mark } =
      .ok e { d with rest := [semicolon], last := mark } := by
  let s : Setting := ⟨0, 0, [semicolon], mark, []⟩
  have hwithin (c : Cursor) :
      c.within s = { c with rest := c.rest ++ [semicolon], last := mark } := by
    have htoken : s.token = id := Token.down_zero_eq_id
    have hdiagnostic : s.diagnostic = id := rfl
    simp [Cursor.within, htoken, hdiagnostic, s, Setting.number]
  have hexpr : s.expr e = e := e.relabel_id
  have hfollowing : ∀ t ∈ s.following.head?, t.kind = .semicolon := by simp [s, hs]
  have hquiet : s.Quiet true := fun _ => hfollowing
  have hsure : s.Sure c := by
    obtain ⟨e', he'⟩ := (series_clean hn).1 ⟨e, d, h, hrest, by rw [hlog]⟩
    obtain ⟨us, t, hwords, ht⟩ := Phrase.series_settled he'
    refine .inr fun u hu => ?_
    rw [hwords, List.getLast?_concat] at hu
    exact Option.some.inj hu ▸ ht
  have hfollows := follows_series hquiet ((followed hnm).firmExpression hquiet) hnm c hsure
  rw [h] at hfollows
  obtain ⟨_, _, _, hq⟩ := hfollows
  have hends : s.Ends true d := by
    refine .inr (.inr ⟨rfl, fun t ht => ?_⟩)
    rw [hfollowing t ht]
    decide
  have hd : d.within s = { d with rest := [semicolon], last := mark } := by
    rw [hwithin, hrest]
    rfl
  rw [← hwithin, hq hends, hexpr, hd]

/-- The statement is the series between the keyword and the semicolon. -/
theorem declaration_print {keyword : Token} {rest : List Token} (hk : keyword.kind = .print)
    (hs : semicolon.kind = .semicolon) (hc : c.rest = keyword :: rest)
    (h : series n (expression n) { c with rest } = .ok e { d with rest := [semicolon] }) :
    declaration (n + 2) false c = .ok (.print e) { d with rest := [] } := by
  obtain ⟨b, hb, hfun⟩ := sees_function c
  have hb' : b = false := by
    have hnone : NamesNoFunction c.rest := by
      rw [hc]
      exact namesNoFunction_cons (by simp [hk])
    cases b with
    | false => rfl
    | true => exact absurd hnone (hfun.1 rfl)
  have hfirst : Stops [.class, .var] c.rest := by
    rw [hc]
    exact stops_cons (by simp [hk])
  have hclosed : expect .semicolon .semicolonAfterPrinted { d with rest := [semicolon] } =
      .ok semicolon { d with rest := [] } := by
    unfold expect
    rw [accept_mem rfl (by simp [hs])]
    rfl
  rw [declaration, bind_of_ok hb, hb']
  simp only [Bool.false_eq_true, if_false]
  rw [accept_not_mem hfirst]
  show statement (n + 1) false c = _
  rw [statement, accept_mem hc (by simp [hk])]
  simp only [hk]
  unfold printStatement
  rw [bind_of_ok h, bind_of_ok hclosed]
  rfl

end Reader

section Parse

variable {words : List Token} {mark mark' keyword semicolon : Token} {first next : NodeId} {e : Expr}

open Reader

/-- A text that is read as an expression without a fault is read as the same expression in a print
statement, with the same numbers. -/
theorem parse_print (hw : EndFree words) (hm : mark.kind = .eof) (hm' : mark'.kind = .eof)
    (hk : keyword.kind = .print) (hs : semicolon.kind = .semicolon)
    (h : parse (words ++ [mark]) true first = ⟨.expression e, [], next⟩) :
    parse (keyword :: words ++ [semicolon, mark']) false first = ⟨.statements [.print e], [], next⟩ := by
  let c : Cursor := ⟨words, mark, first, []⟩
  let n := fuelPerToken * (words.length + 1)
  have hn : 16 * c.rest.length + 7 ≤ n := show 16 * words.length + 7 ≤ 16 * _ by omega
  obtain ⟨p, d, hp⟩ : ∃ p d, Reader.program n true c = .ok p d := program_ok (by omega)
  have hparse : parse (words ++ [mark]) true first = ⟨p, d.log.reverse, d.nextId⟩ :=
    parse_of_ok (by rw [ofTokens_words hw hm]; exact hp)
  rw [h] at hparse
  obtain ⟨rfl, hlog, rfl⟩ : .expression e = p ∧ [] = d.log.reverse ∧ next = d.nextId := by
    simpa using hparse
  have hlog : d.log = [] := List.reverse_eq_nil_iff.1 hlog.symm
  obtain ⟨hseries, hrest⟩ := (program_expression hn).1 hp
  -- The print statement takes every word of the script.
  let printing : Cursor := ⟨keyword :: (words ++ [semicolon]), mark', first, []⟩
  let m := 16 * words.length + 45
  have hclosed : series m (expression m) { printing with rest := words ++ [semicolon] } =
      .ok e { d with rest := [semicolon], last := mark' } :=
    series_closed (Nat.le_trans (by omega) hn) (show 16 * (words.length + 1) ≤ m by omega) hseries
      hrest hlog hs
  have hprint : declaration (m + 2) false printing = .ok (.print e) { d with rest := [], last := mark' } :=
    declaration_print (d := { d with last := mark' }) hk hs rfl hclosed
  have hscript : Reader.program (m + 3) false printing =
      .ok (.statements [.print e]) { d with rest := [], last := mark' } := by
    rw [program_script, script_more (List.cons_ne_nil _ _), bind_of_ok (recovering_eq_some.2 hprint)]
    exact script_end rfl
  have hfree : EndFree (keyword :: (words ++ [semicolon])) := by simp [hk, hs, hw]
  have htokens : keyword :: words ++ [semicolon, mark'] =
      keyword :: (words ++ [semicolon]) ++ [mark'] := by simp
  have hfuel : fuelPerToken * ((keyword :: (words ++ [semicolon])).length + 1) = m + 3 := by
    simp only [List.length_cons, List.length_append, List.length_nil, fuelPerToken, m]
    omega
  rw [htokens, parse_of_ok (by rw [ofTokens_words hfree hm', hfuel]; exact hscript), hlog]
  rfl

end Parse

end Lox
