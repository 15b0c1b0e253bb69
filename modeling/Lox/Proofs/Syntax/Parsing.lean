import Lox.Proofs.Syntax.Completeness
import Lox.Proofs.Syntax.EndFree
import Lox.Proofs.Syntax.Soundness

/-!
A script that is read without a diagnostic, and the grammar.
-/

namespace Lox

open Phrase Reader

/-- A script is read as declarations. -/
theorem parse_script (tokens : List Token) (nextId : NodeId) :
    parse tokens false nextId =
      match declarations (fuelPerToken * ((Cursor.ofTokens tokens nextId).rest.length + 1)) false []
        (Cursor.ofTokens tokens nextId) with
      | .ok body d => Parse.mk (.statements body) d.log.reverse d.nextId
      | .error _ d => Parse.mk (.statements []) d.log.reverse d.nextId := by
  unfold parse
  have hprogram (n : Nat) (c : Cursor) : Reader.program n false c =
      (do return Program.statements (← declarations n false []) : Reader Program) c := rfl
  simp only [hprogram]
  generalize fuelPerToken * _ = n
  cases hd : declarations n false [] (Cursor.ofTokens tokens nextId) with
  | ok body d =>
    rw [bind_of_ok hd]
    rfl
  | error stop d => rw [bind_of_error hd]

/-- A text that is read without a diagnostic is made of declarations, word for word. -/
theorem parse_phrase {tokens : List Token} {nextId : NodeId}
    (h : (parse tokens false nextId).diagnostics = []) :
    ∃ body, (parse tokens false nextId).program = .statements body ∧
      Declarations false (Cursor.ofTokens tokens nextId).rest body := by
  let c := Cursor.ofTokens tokens nextId
  have hread := (sound (fuelPerToken * (c.rest.length + 1))).declarations c false [] (by
    unfold fuelPerToken
    omega)
  rw [parse_script] at h ⊢
  cases hd : declarations (fuelPerToken * (c.rest.length + 1)) false [] c with
  | error stop d =>
    rw [hd] at h
    have hlog : d.log = [] := by simpa using h
    cases stop with
    | outOfFuel => exact absurd hd (hread.not_outOfFuel d)
    | syntaxError =>
      obtain ⟨_, _, hlt⟩ := hread.of_fault hd
      rw [hlog] at hlt
      exact absurd hlt (Nat.not_lt_zero _)
  | ok body d =>
    rw [hd] at h
    have hlog : d.log = [] := by simpa using h
    obtain ⟨ts, adv, _, clean⟩ := hread.of_ok hd
    have hrest : d.rest = [] := by
      have := declarations_ended hd
      cases hr : d.rest with
      | nil => rfl
      | cons t ts => simp [hr] at this
    have hts : c.rest = ts := by rw [adv.rest, hrest, List.append_nil]
    refine ⟨body, rfl, ?_⟩
    rw [hts]
    refine clean ?_
    rw [hlog]
    rfl

/-- Declarations are read without a diagnostic, and as their tree up to node numbers. -/
theorem parse_declarations {tokens : List Token} {nextId : NodeId} {body : List Stmt}
    (h : Declarations false (Cursor.ofTokens tokens nextId).rest body) :
    (parse tokens false nextId).diagnostics = [] ∧
      ∃ body', (parse tokens false nextId).program = .statements body' ∧
        Stmt.bareAll body' = Stmt.bareAll body := by
  let c := Cursor.ofTokens tokens nextId
  have hgives := (complete (fuelPerToken * (c.rest.length + 1))).declarations false [] c.rest body []
    h (by unfold fuelPerToken; omega) nofun rfl
  obtain ⟨body', k, hp, hbody⟩ := hgives c.last nextId []
  rw [List.append_nil] at hp
  rw [parse_script, show declarations _ false [] (Cursor.ofTokens tokens nextId) = _ from hp]
  exact ⟨rfl, body', rfl, hbody⟩

/-- The words of a whole text: declarations, or one series. -/
def Whole (ts : List Token) : Program → Prop
  | .statements body => Declarations false ts body
  | .expression e => Series ts e

/-- The words of an entry. -/
def WholeEntry (ts : List Token) : Stmt ⊕ Expr → Prop
  | .inl s => Declaration false ts s
  | .inr e => Series ts e

theorem reads_entry {n : Nat} {c : Cursor} (hn : 16 * c.rest.length + 5 ≤ n) :
    Reads c 1 WholeEntry (entry n) := by
  have h := sound n
  have hhere : Reads c 0 (fun ts _ => ts = []) here :=
    ⟨[], .refl c, Nat.le_refl _, fun _ => rfl⟩
  unfold entry
  apply hhere.bind
  intro t d us hd hus
  have hsees : Reads d 0 (fun ts _ => ts = []) seesNamedFunction := by
    obtain ⟨rest, last, nextId, log⟩ := d
    match rest with
    | [] | [_] | _ :: _ :: _ => exact ⟨[], .refl _, Nat.le_refl _, fun _ => rfl⟩
  apply hsees.bind
  intro b e vs he hvs
  split
  · refine (h.declaration e false (by omega)).bind fun s f ws hf hws => .pure ?_
    rintro hs rfl rfl
    simp only [List.append_nil, List.nil_append]
    exact hs
  · apply (reads_series (fun c' hc' => h.expression c' (by omega)) (by omega)).bind
    intro e' f ws hf hws
    refine .accept ?_ fun semicolon g hg hsemicolon => ?_
    · apply Reads.ended.bind
      intro b g xs hg _
      cases b with
      | true =>
        refine .pure ?_
        rintro rfl he' rfl rfl
        simp only [List.append_nil, List.nil_append]
        exact he'
      | false => exact .missing
    · refine .pure ?_
      rintro he' rfl rfl
      have hs : Declaration false (ws ++ [semicolon]) (.expression e') :=
        .statement (.expression he' (by simpa using hsemicolon))
      exact hs

theorem reads_program {n : Nat} {c : Cursor} {allowExpression : Bool}
    (hn : 16 * c.rest.length + 6 ≤ n) :
    Reads c 0 Whole (program n allowExpression) := by
  have h := sound n
  have hdecls (d : Cursor) (hd : d.rest.length ≤ c.rest.length) :
      Reads d 0 Whole (do return Program.statements (← declarations n false [])) := by
    refine (h.declarations d false [] (by omega)).bind fun body e us he _ => .pure fun hb => ?_
    rw [List.append_nil]
    exact hb
  unfold program
  cases allowExpression with
  | false => exact hdecls c (Nat.le_refl _)
  | true =>
    refine reads_ended ?_
    cases hend : c.rest.head?.all (·.kind ∈ ([] : List TokenKind)) with
    | true => exact hdecls c (Nat.le_refl _)
    | false =>
      have hne : c.rest ≠ [] := by
        intro hr
        simp [hr] at hend
      apply (reads_recovering (reads_entry (by omega)) hne).bind
      intro first d ts hd hts
      match first with
      | none =>
        refine (hdecls d (by omega)).mono (Nat.zero_le _) ?_
        rintro us p hp ⟨_, hnone, _⟩
        nomatch hnone
      | some (.inr e) =>
        refine .pure ?_
        rintro ⟨first, hfirst, he⟩
        obtain rfl := Option.some.inj hfirst
        rw [List.append_nil]
        exact he
      | some (.inl s) =>
        refine (h.declarations d false [] (by omega)).bind fun body e us he _ => .pure ?_
        rintro hbody ⟨first, hfirst, hs⟩
        obtain rfl := Option.some.inj hfirst
        rw [List.append_nil]
        exact .cons hs hbody

section NoFault

variable {c d : Cursor} {n : Nat} {inLoop allowExpression : Bool} {closers : List TokenKind}

theorem pure_no_fault {α : Type} (a : α) :
    ∀ c d, (pure a : Reader α) c ≠ .error .syntaxError d := by
  intro c d h
  cases h

theorem ended_no_fault : ∀ c d, ended closers c ≠ .error .syntaxError d := by
  intro c d h
  cases h

theorem recovering_no_fault {α : Type} {p : Reader α} :
    ∀ c d, recovering p c ≠ .error .syntaxError d := by
  intro c d h
  unfold recovering at h
  split at h <;> cases h

theorem bind_no_fault {α β : Type} {p : Reader α} {f : α → Reader β}
    (hp : ∀ c d, p c ≠ .error .syntaxError d) (hf : ∀ a c d, f a c ≠ .error .syntaxError d) :
    ∀ c d, (p >>= f) c ≠ .error .syntaxError d := by
  intro c d h
  cases hpc : p c with
  | ok a e =>
    rw [bind_of_ok hpc] at h
    exact hf a e d h
  | error stop e =>
    rw [bind_of_error hpc] at h
    obtain ⟨rfl, rfl⟩ : stop = .syntaxError ∧ e = d := by simpa using h
    exact hp c e hpc

/-- Faults are caught one declaration at a time. -/
theorem declarations_no_fault :
    ∀ c d, declarations n inLoop closers c ≠ .error .syntaxError d := by
  induction n with
  | zero =>
    intro c d h
    cases h
  | succ n ih =>
    unfold declarations
    refine bind_no_fault ended_no_fault fun b => ?_
    cases b with
    | true => exact pure_no_fault []
    | false =>
      refine bind_no_fault recovering_no_fault fun first => ?_
      exact bind_no_fault ih fun others => pure_no_fault (first.toList ++ others)

theorem program_no_fault : ∀ c d, program n allowExpression c ≠ .error .syntaxError d := by
  have hbody (first : List Stmt) : ∀ c d, (do
      return Program.statements (first ++ (← declarations n false [])) : Reader Program) c ≠
        .error .syntaxError d :=
    bind_no_fault declarations_no_fault fun _ => pure_no_fault _
  unfold program
  cases allowExpression with
  | false => exact hbody []
  | true =>
    refine bind_no_fault ended_no_fault fun b => ?_
    cases b with
    | true => exact hbody []
    | false =>
      refine bind_no_fault recovering_no_fault fun first => ?_
      rcases first with _ | s | e
      · exact hbody []
      · exact hbody [s]
      · exact pure_no_fault _

/-- A reader that has the fuel for the words and reports no fault to its caller gives a result. -/
theorem ok_of_reads {α : Type} {p : Reader α} {k : Nat} {given : List Token → α → Prop}
    (hp : Reads c k given p) (hfault : ∀ c d, p c ≠ .error .syntaxError d) :
    ∃ a d, p c = .ok a d := by
  cases hpc : p c with
  | ok a d => exact ⟨a, d, rfl⟩
  | error stop d =>
    cases stop with
    | outOfFuel => exact absurd hpc (hp.not_outOfFuel d)
    | syntaxError => exact absurd hpc (hfault c d)

/-- A script is always read as a list of declarations. -/
theorem declarations_ok (hn : 16 * c.rest.length + 6 ≤ n) :
    ∃ body d, declarations n inLoop closers c = .ok body d :=
  ok_of_reads ((sound n).declarations c inLoop closers hn) declarations_no_fault

/-- Reading a program always comes to a result. -/
theorem program_ok (hn : 16 * c.rest.length + 6 ≤ n) :
    ∃ p d, program n allowExpression c = .ok p d :=
  ok_of_reads (reads_program hn) program_no_fault

theorem parse_of_ok {tokens : List Token} {nextId : NodeId} {p : Program}
    (h : program (fuelPerToken * ((Cursor.ofTokens tokens nextId).rest.length + 1)) allowExpression
      (Cursor.ofTokens tokens nextId) = .ok p d) :
    parse tokens allowExpression nextId = ⟨p, d.log.reverse, d.nextId⟩ := by
  unfold parse
  simp only
  rw [h]

end NoFault

theorem rest_ofTokens_subset (tokens : List Token) (nextId : NodeId) :
    (Cursor.ofTokens tokens nextId).rest ⊆ tokens := (List.takeWhile_sublist _).subset

/-- What is read without a diagnostic is made of the words that the text begins with. -/
theorem parse_whole {tokens : List Token} {allowExpression : Bool} {nextId : NodeId}
    (h : (parse tokens allowExpression nextId).diagnostics = []) :
    ∃ ts, ts <+: (Cursor.ofTokens tokens nextId).rest ∧
      Whole ts (parse tokens allowExpression nextId).program := by
  let c := Cursor.ofTokens tokens nextId
  have hread : Reads c 0 Whole (program (fuelPerToken * (c.rest.length + 1)) allowExpression) :=
    reads_program (by unfold fuelPerToken; omega)
  unfold parse at h ⊢
  simp only at h ⊢
  cases hp : program (fuelPerToken * (c.rest.length + 1)) allowExpression c with
  | error stop d =>
    rw [hp] at h
    have hlog : d.log = [] := by simpa using h
    cases stop with
    | outOfFuel => exact absurd hp (hread.not_outOfFuel d)
    | syntaxError =>
      obtain ⟨_, _, hlt⟩ := hread.of_fault hp
      rw [hlog] at hlt
      exact absurd hlt (Nat.not_lt_zero _)
  | ok p d =>
    rw [hp] at h
    have hlog : d.log = [] := by simpa using h
    obtain ⟨ts, adv, _, clean⟩ := hread.of_ok hp
    have hclean : d.log.length = c.log.length := by rw [hlog]; rfl
    exact ⟨ts, ⟨_, adv.rest.symm⟩, clean hclean⟩

/-- The words before the only end mark are all the words there are. -/
theorem rest_ofTokens {words : List Token} {mark : Token} (hw : EndFree words)
    (hm : mark.kind = .eof) (nextId : NodeId) :
    (Cursor.ofTokens (words ++ [mark]) nextId).rest = words := by
  have hmark : (mark.kind != TokenKind.eof) = false := by simp [hm]
  have hwords : ∀ t ∈ words, (t.kind != TokenKind.eof) = true := fun t ht => by simpa using hw t ht
  unfold Cursor.ofTokens
  simp only [List.takeWhile_append_of_pos hwords, List.takeWhile_cons, hmark]
  simp

/-- A script without diagnostics is one phrase of the grammar up to its end mark, and the program is
the only tree of that phrase. -/
theorem clean_parse_derives {words : List Token} {mark : Token} {nextId : NodeId}
    (hw : ∀ t ∈ words, t.kind ≠ .eof) (hm : mark.kind = .eof)
    (h : (parse (words ++ [mark]) false nextId).diagnostics = []) :
    ∃ body, (parse (words ++ [mark]) false nextId).program = .statements body ∧
      Declarations false words body ∧
      ∀ body', Declarations false words body' → Stmt.bareAll body' = Stmt.bareAll body := by
  obtain ⟨body, hprogram, hbody⟩ := parse_phrase h
  rw [rest_ofTokens hw hm] at hbody
  refine ⟨body, hprogram, hbody, fun body' hbody' => ?_⟩
  rw [← rest_ofTokens hw hm nextId] at hbody'
  obtain ⟨_, body'', hprogram', hbare⟩ := parse_declarations hbody'
  obtain rfl := Program.statements.inj (hprogram.symm.trans hprogram')
  exact hbare.symm

/-- The words of `while (a) b.c = -d;`. -/
def loopWords : List Token :=
  [.synthetic .while "while" 1, .synthetic .leftParen "(" 1, .synthetic .identifier "a" 1,
    .synthetic .rightParen ")" 1, .synthetic .identifier "b" 2, .synthetic .dot "." 2,
    .synthetic .identifier "c" 2, .synthetic .equal "=" 2, .synthetic .minus "-" 2,
    .synthetic .identifier "d" 2, .synthetic .semicolon ";" 2]

theorem clean_parse_derives_loop :
    ∃ body, (parse (loopWords ++ [.synthetic .eof "" 2]) false 0).program = .statements body ∧
      Declarations false loopWords body ∧
      ∀ body', Declarations false loopWords body' → Stmt.bareAll body' = Stmt.bareAll body :=
  clean_parse_derives (by decide) rfl (by decide +kernel)

end Lox
