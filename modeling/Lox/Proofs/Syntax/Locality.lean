import Lox.Proofs.Syntax.EmbeddedReading
import Lox.Proofs.Syntax.Parsing

/-!
What a text is read as depends on nothing around it: not on the fuel, as long as it suffices, not on
the line and the node number where it begins, and not on the declarations before it.
-/

namespace Lox

open Phrase Reader

namespace Setting

def entry (s : Setting) : Stmt ⊕ Expr → Stmt ⊕ Expr
  | .inl stmt => .inl (s.stmt stmt)
  | .inr e => .inr (s.expr e)

def program (s : Setting) : Program → Program := Program.relabel s.token s.number

/-- Nothing is around the text. -/
def alone (c : Cursor) : Setting := ⟨0, 0, [], c.last, []⟩

end Setting

namespace Reader

variable {α β : Type} {s : Setting} {n m : Nat} {c d : Cursor}

section Program

theorem follows_entry (hnm : n ≤ m) :
    Follows s false 0 (Setting.entry s) (entry n) (entry m) := by
  have h : Followed s n m := followed hnm
  unfold Reader.entry
  refine .here fun t => .seesNamedFunction (by simp) fun b => ?_
  by_cases ht : t.kind ∈ statementKinds ∨ b = true
  · have ht' : (s.token t).kind ∈ statementKinds ∨ b = true := ht
    simp only [if_pos ht, if_pos ht']
    exact .loose (h.declaration false) fun stmt => .pure rfl
  · have ht' : ¬ ((s.token t).kind ∈ statementKinds ∨ b = true) := ht
    simp only [if_neg ht, if_neg ht']
    refine .loose (follows_series s.quiet_false h.expression hnm) fun e => .choice ?_ fun _ _ => .pure rfl
    apply Follows.ended
    intro b
    cases b with
    | true => exact .pure rfl
    | false => exact .missing

theorem follows_program (allowExpression : Bool) (hnm : n ≤ m) :
    Follows s false 0 (Setting.program s) (program n allowExpression)
      (program m allowExpression) := by
  have h : Followed s n m := followed hnm
  have hbody : Follows s false 0 (Setting.program s)
      (do return Program.statements (← declarations n false []))
      (do return Program.statements (← declarations m false [])) :=
    .loose (h.declarations false []) fun body =>
      .pure (congrArg Program.statements (Stmt.relabelAll_eq_map _ _ body))
  unfold Reader.program
  cases allowExpression with
  | false => exact hbody
  | true =>
    apply Follows.ended
    intro b
    cases b with
    | true => exact hbody
    | false =>
      refine .loose (follows_entry hnm).recovering fun first => ?_
      match first with
      | none => exact hbody
      | some (.inr e) => exact .pure rfl
      | some (.inl stmt) =>
        exact .loose (h.declarations false []) fun body =>
          .pure (congrArg Program.statements (Stmt.relabelAll_eq_map _ _ (stmt :: body)))

end Program

section Fuel

theorem within_alone (hlast : d.last = c.last) : d.within (Setting.alone c) = d := by
  have htoken : (Setting.alone c).token = id := Token.down_zero_eq_id
  have hdiagnostic : (Setting.alone c).diagnostic = id := rfl
  obtain ⟨rest, last, nextId, log⟩ := d
  obtain rfl : last = c.last := hlast
  simp only [Cursor.within, htoken, hdiagnostic, List.map_id]
  simp [Setting.alone, Setting.number]

theorem closed_alone (hlast : d.last = c.last) : (Setting.alone c).Closed d :=
  ⟨rfl, hlast.symm⟩

/-- A reader with fuel to spare does the same with more. -/
theorem Follows.same {p q : Reader α} {φ : Setting → α → α} {firm : Bool} {k : Nat}
    (h : ∀ s, Follows s firm k (φ s) p q) (hφ : ∀ a, φ (Setting.alone c) a = a)
    (hp : ∀ d, p c ≠ .error .outOfFuel d) : q c = p c := by
  have hc := h (Setting.alone c) c (.inl rfl)
  rw [within_alone rfl] at hc
  cases hpc : p c with
  | error stop d =>
    rw [hpc] at hc
    cases stop with
    | outOfFuel => exact absurd hpc (hp d)
    | syntaxError =>
      obtain ⟨taken, adv, _, hq⟩ := hc
      rw [hq (.inr (.inl (closed_alone adv.last))), within_alone adv.last]
  | ok a d =>
    rw [hpc] at hc
    obtain ⟨taken, adv, _, hq⟩ := hc
    rw [hq (.inr (.inl (closed_alone adv.last))), within_alone adv.last, hφ]

theorem map_alone_stmt (body : List Stmt) : body.map (Setting.alone c).stmt = body := by
  have hstmt : (Setting.alone c).stmt = id := funext Stmt.relabel_id
  rw [hstmt, List.map_id]

theorem program_alone (p : Program) : Setting.program (Setting.alone c) p = p := p.relabel_id

theorem declarations_fuel {inLoop : Bool} {closers : List TokenKind} {body : List Stmt}
    (hnm : n ≤ m) (h : declarations n inLoop closers c = .ok body d) :
    declarations m inLoop closers c = .ok body d := by
  rw [← h]
  refine Follows.same (fun s => (followed hnm).declarations inLoop closers) map_alone_stmt ?_
  rw [h]
  nofun

/-- With enough fuel it does not matter how much it is. -/
theorem program_fuel {allowExpression : Bool} (hn : 16 * c.rest.length + 6 ≤ n) (hnm : n ≤ m) :
    program m allowExpression c = program n allowExpression c := by
  have hread : Reads c 0 Whole (program n allowExpression) := reads_program hn
  exact Follows.same (fun s => follows_program allowExpression hnm) program_alone hread.not_outOfFuel

end Fuel

section Join

/-- The place is closed here. -/
theorem declarations_closed {inLoop : Bool} {closers : List TokenKind}
    (h : c.rest.head?.all (·.kind ∈ closers) = true) :
    declarations (n + 1) inLoop closers c = .ok [] c := by
  rw [declarations]
  show (if _ then _ else _ : Reader (List Stmt)) c = _
  rw [if_pos h]
  rfl

theorem declarations_end {inLoop : Bool} {closers : List TokenKind} (h : c.rest = []) :
    declarations (n + 1) inLoop closers c = .ok [] c := declarations_closed (by simp [h])

/-- Nothing closes the place here. -/
theorem declarations_next {inLoop : Bool} {closers : List TokenKind}
    (h : c.rest.head?.all (·.kind ∈ closers) = false) :
    declarations (n + 1) inLoop closers c = (do
      let first ← recovering (declaration n inLoop)
      let others ← declarations n inLoop closers
      pure (first.toList ++ others) : Reader (List Stmt)) c := by
  rw [declarations]
  show (if _ then _ else _ : Reader (List Stmt)) c = _
  rw [if_neg (by simp [h])]

theorem declarations_more {inLoop : Bool} (h : c.rest ≠ []) :
    declarations (n + 1) inLoop [] c = (do
      let first ← recovering (declaration n inLoop)
      let others ← declarations n inLoop []
      pure (first.toList ++ others) : Reader (List Stmt)) c := by
  refine declarations_next ?_
  cases hr : c.rest with
  | nil => exact absurd hr h
  | cons t rest => simp

/-- A declaration that is read without a diagnostic does not begin with a closing brace. -/
theorem declaration_opens {inLoop : Bool} {closers : List TokenKind} {first : Stmt}
    (hn : 16 * c.rest.length + 5 ≤ n) (hclosers : ∀ k ∈ closers, k = .rightBrace)
    (h : declaration n inLoop c = .ok first d) (hclean : d.log.length = c.log.length) :
    c.rest.head?.all (·.kind ∈ closers) = false := by
  obtain ⟨taken, adv, _, hphrase⟩ := ((sound n).declaration c inLoop hn).of_ok h
  obtain ⟨hword, hstops⟩ := declaration_stops (hphrase hclean) d.rest
  rw [← adv.rest] at hstops
  cases hr : c.rest with
  | nil => exact absurd (List.append_eq_nil_iff.1 (adv.rest.symm.trans hr)).1 hword
  | cons t rest =>
    have ht : t.kind ∉ [TokenKind.rightBrace, .else] := hstops t (by rw [hr]; rfl)
    have hnot : t.kind ∉ closers := fun hmem => ht (by simp [hclosers _ hmem])
    simpa using hnot

/-- What is read without a diagnostic up to the end is also read before other declarations, up to a
brace that closes their place. -/
theorem declarations_join {inLoop : Bool} {closers : List TokenKind} {body others : List Stmt}
    {e : Cursor} (hn : 16 * c.rest.length + 6 ≤ n) (h : declarations n inLoop [] c = .ok body d)
    (hclean : d.log.length = c.log.length) (hsure : s.Sure c)
    (helse : ∀ t ∈ s.following.head?, t.kind ≠ .else) (hclosers : ∀ k ∈ closers, k = .rightBrace)
    (hothers : declarations m inLoop closers (d.within s) = .ok others e) :
    declarations (n + m) inLoop closers (c.within s) = .ok (body.map s.stmt ++ others) e := by
  induction n generalizing c body with
  | zero => cases h
  | succ n ih =>
    by_cases hr : c.rest = []
    · rw [declarations_end hr] at h
      obtain ⟨rfl, rfl⟩ : [] = body ∧ c = d := by simpa using h
      exact declarations_fuel (Nat.le_add_left m (n + 1)) hothers
    · rw [declarations_more hr] at h
      obtain ⟨first?, c₁, hfirst, h⟩ := bind_eq_ok h
      obtain ⟨rest, d', hrest, h⟩ := bind_eq_ok h
      obtain ⟨rfl, rfl⟩ : first?.toList ++ rest = body ∧ d' = d := by
        simpa [Pure.pure, EStateM.pure] using h
      have hread := (followed (s := s) (Nat.le_add_right n m)).declaration inLoop c hsure
      have hlater (c₁ : Cursor) (h : s.Sure c₁) (hc₁ : declarations n inLoop [] c₁ = .ok rest d') :
          c₁.log.length ≤ d'.log.length := by
        have hloose := (followed (s := s) (Nat.le_refl n)).declarations inLoop [] c₁ h
        rw [hc₁] at hloose
        obtain ⟨_, adv, _⟩ := hloose
        exact adv.log
      unfold recovering at hfirst
      cases hd : declaration n inLoop c with
      | ok first c₂ =>
        rw [hd] at hfirst hread
        obtain ⟨rfl, rfl⟩ : some first = first? ∧ c₂ = c₁ := by simpa using hfirst
        obtain ⟨taken, adv, hpos, hfirst'⟩ := hread
        have hsure' := hsure.later adv
        have hle := hlater c₂ hsure' hrest
        have hends : s.Ends true c₂ := .inr (.inr ⟨rfl, helse⟩)
        have hrec : recovering (declaration (n + m) inLoop) (c.within s) =
            .ok (some (s.stmt first)) (c₂.within s) := by
          unfold recovering
          rw [hfirst' hends]
        have hlog := adv.log
        have hlen := adv.length
        have hopen : (c.within s).rest.head?.all (·.kind ∈ closers) = false := by
          have hopens := declaration_opens (by omega) hclosers hd (by omega)
          cases hc : c.rest with
          | nil => exact absurd hc hr
          | cons t ts =>
            rw [Setting.rest_within_cons hc]
            rw [hc] at hopens
            exact hopens
        rw [Nat.add_right_comm n 1 m, declarations_next hopen, bind_of_ok hrec,
          bind_of_ok (ih (by omega) hrest (by omega) hsure')]
        simp [Pure.pure, EStateM.pure]
      | error stop c₂ =>
        rw [hd] at hfirst hread
        cases stop with
        | outOfFuel => cases hfirst
        | syntaxError =>
          -- A declaration that is left out has been reported.
          obtain ⟨taken, adv, hlog, _⟩ := hread
          obtain ⟨rfl, rfl⟩ : none = first? ∧ c₂.resume = c₁ := by simpa using hfirst
          obtain ⟨dropped, adv', _⟩ := advance_resume c₂
          have hle := hlater _ ((hsure.later adv).later adv') hrest
          have hle' := adv'.log
          omega

end Join

end Reader

namespace Phrase

/-- The last word is a semicolon or a brace. -/
def Closes (ts : List Token) : Prop :=
  ∃ us t, ts = us ++ [t] ∧ t.kind ∈ [TokenKind.semicolon, .rightBrace]

theorem Closes.of_last (us : List Token) {t : Token} (ht : t.kind ∈ [TokenKind.semicolon, .rightBrace]) :
    Closes (us ++ [t]) := ⟨us, t, rfl, ht⟩

theorem Closes.prepend {ts : List Token} (h : Closes ts) (us : List Token) : Closes (us ++ ts) := by
  obtain ⟨vs, t, rfl, ht⟩ := h
  rw [← List.append_assoc]
  exact .of_last _ ht

theorem Closes.cons {ts : List Token} (h : Closes ts) (t : Token) : Closes (t :: ts) := h.prepend [t]

theorem statement_closes {inLoop dangles : Bool} {ts : List Token} {stmt : Stmt}
    (h : Statement inLoop dangles ts stmt) : Closes ts := by
  cases h with
  | expression _ hs => exact .of_last _ (by simp [hs])
  | print _ _ hs => exact (Closes.of_last _ (by simp [hs])).cons _
  | «for» _ _ _ _ _ _ _ hb =>
    exact (((((((statement_closes hb).cons _).prepend _).cons _).prepend _).prepend _).cons _).cons _
  | «while» _ _ _ _ hb => exact ((((statement_closes hb).cons _).prepend _).cons _).cons _
  | «if» _ _ _ _ hb => exact ((((statement_closes hb).cons _).prepend _).cons _).cons _
  | ifElse _ _ _ _ _ _ he =>
    exact ((((((statement_closes he).cons _).prepend _).cons _).prepend _).cons _).cons _
  | «return» _ _ hs => exact (Closes.of_last _ (by simp [hs])).cons _
  | @«break» keyword _ _ hs => exact .of_last [keyword] (by simp [hs])
  | @«continue» keyword _ _ hs => exact .of_last [keyword] (by simp [hs])
  | block _ _ hr => exact (Closes.of_last _ (by simp [hr])).cons _
termination_by ts.length

theorem function_closes {ts : List Token} {f : Lambda} (h : Function ts f) : Closes ts := by
  cases h with
  | mk _ _ _ _ _ hr =>
    exact ((((Closes.of_last _ (by simp [hr])).cons _).cons _).prepend _).cons _

theorem variable_closes {ts : List Token} {stmt : Stmt} (h : Variable ts stmt) : Closes ts := by
  cases h with
  | @unassigned name _ _ hs => exact .of_last [name] (by simp [hs])
  | initialized _ _ _ hs => exact ((Closes.of_last _ (by simp [hs])).cons _).cons _

theorem declaration_closes {inLoop : Bool} {ts : List Token} {stmt : Stmt}
    (h : Declaration inLoop ts stmt) : Closes ts := by
  cases h with
  | «class» _ _ _ _ _ hr =>
    exact ((((Closes.of_last _ (by simp [hr])).cons _).prepend _).cons _).cons _
  | function _ _ h => exact ((function_closes h).cons _).cons _
  | var _ h => exact (variable_closes h).cons _
  | statement h => exact statement_closes h

theorem declarations_close {inLoop : Bool} {ts : List Token} {body : List Stmt}
    (h : Declarations inLoop ts body) : ts = [] ∨ Closes ts := by
  induction body generalizing ts with
  | nil =>
    cases h
    exact .inl rfl
  | cons stmt body ih =>
    cases h with
    | @cons _ us vs _ _ h hs =>
      right
      rcases ih hs with rfl | hvs
      · rw [List.append_nil]
        exact declaration_closes h
      · exact hvs.prepend us

end Phrase

section Parse

variable {k j : Nat} {tokens words words' : List Token} {mark mark' : Token} {nextId : NodeId}

theorem ofTokens_words (hw : EndFree words) (hm : mark.kind = .eof) (nextId : NodeId) :
    Cursor.ofTokens (words ++ [mark]) nextId = ⟨words, mark, nextId, []⟩ := by
  have hnot : (mark.kind != TokenKind.eof) = false := by simp [hm]
  have hfind : (words ++ [mark]).find? (fun t => !(t.kind != .eof)) = some mark := by
    rw [List.find?_append, List.find?_eq_none.2 fun t ht => by simpa using hw t ht]
    simp [hnot]
  have hrest : (Cursor.ofTokens (words ++ [mark]) nextId).rest = words := rest_ofTokens hw hm nextId
  unfold Cursor.ofTokens at hrest ⊢
  simp only at hrest ⊢
  rw [hrest, hfind]
  rfl

/-- The text stands further down, and other numbers have been used before. -/
def Setting.moved (k j : Nat) (last : Token) : Setting := ⟨k, j, [], last.down k, []⟩

theorem ofTokens_moved (h : tokens ≠ []) :
    Cursor.ofTokens (tokens.map (Token.down k)) (nextId + j) =
      (Cursor.ofTokens tokens nextId).within
        (Setting.moved k j (Cursor.ofTokens tokens nextId).last) := by
  have hlast : (tokens.map (Token.down k)).getLast?.map Token.line =
      (tokens.getLast?.map Token.line).map (· + k) := by
    rw [List.getLast?_map]
    cases tokens.getLast? <;> rfl
  obtain ⟨t, ht⟩ : ∃ t, tokens.getLast? = some t := 
    ⟨tokens.getLast h, List.getLast?_eq_some_getLast h⟩
  have hfind : (tokens.map (Token.down k)).find? (fun t => !(t.kind != .eof)) =
      (tokens.find? fun t => !(t.kind != .eof)).map (Token.down k) := by
    rw [List.find?_map]
    rfl
  have hwhile : (tokens.map (Token.down k)).takeWhile (fun t => t.kind != .eof) =
      (tokens.takeWhile fun t => t.kind != .eof).map (Token.down k) := by
    rw [List.takeWhile_map]
    rfl
  unfold Cursor.ofTokens Cursor.within Setting.moved
  simp only [hlast, hfind, hwhile, ht, Option.map_some, Option.getD_some, List.append_nil, List.map_nil]
  cases tokens.find? (fun t => !(t.kind != .eof)) <;> rfl

/-- Further down, and with other numbers, a text is read as the same program with the same
diagnostics. -/
theorem parse_moved (h : tokens ≠ []) (k j : Nat) (allowExpression : Bool) (nextId : NodeId) :
    let read := parse tokens allowExpression nextId
    parse (tokens.map (Token.down k)) allowExpression (nextId + j) =
      ⟨read.program.relabel (Token.down k) (· + j), read.diagnostics.map (Diagnostic.down k),
        read.nextId + j⟩ := by
  intro read
  let c := Cursor.ofTokens tokens nextId
  let s := Setting.moved k j c.last
  let n := fuelPerToken * (c.rest.length + 1)
  have hlen : (c.within s).rest.length = c.rest.length := by
    simp [Cursor.within, s, Setting.moved]
  obtain ⟨p, d, hp⟩ : ∃ p d, program n allowExpression c = .ok p d :=
    program_ok (show 16 * _ + 6 ≤ 16 * _ by omega)
  have hread : read = ⟨p, d.log.reverse, d.nextId⟩ := parse_of_ok hp
  have hfollows := @follows_program s _ _ allowExpression (Nat.le_refl n) c (.inl rfl)
  rw [hp] at hfollows
  obtain ⟨taken, adv, _, hq⟩ := hfollows
  have hclosed : s.Ends false d := .inr (.inl ⟨rfl, congrArg (Token.down k) adv.last.symm⟩)
  have hlog : (d.log.map s.diagnostic ++ s.log).reverse = d.log.reverse.map (Diagnostic.down k) := by
    rw [← List.map_reverse.symm]
    simp [s, Setting.moved, Setting.diagnostic]
  have hmoved : parse (tokens.map (Token.down k)) allowExpression (nextId + j) =
      ⟨s.program p, (d.within s).log.reverse, (d.within s).nextId⟩ :=
    parse_of_ok (by rw [ofTokens_moved h, hlen]; exact hq hclosed)
  rw [hmoved, hread]
  simp only [Cursor.within, hlog]
  rfl

/-- A script is read up to its end mark, with whatever fuel suffices. -/
theorem script_read (hw : EndFree words) (hm : mark.kind = .eof) (nextId : NodeId) {n : Nat}
    (hn : fuelPerToken * (words.length + 1) ≤ n) :
    ∃ body d, declarations n false [] ⟨words, mark, nextId, []⟩ = .ok body d ∧
      d.rest = [] ∧ d.last = mark ∧
      parse (words ++ [mark]) false nextId = ⟨.statements body, d.log.reverse, d.nextId⟩ := by
  let c : Cursor := ⟨words, mark, nextId, []⟩
  have hfuel : 16 * c.rest.length + 6 ≤ fuelPerToken * (words.length + 1) :=
    show 16 * words.length + 6 ≤ 16 * _ by omega
  obtain ⟨body, d, hd⟩ := @declarations_ok _ _ false [] hfuel
  obtain ⟨_, adv, _⟩ := ((sound _).declarations c false [] hfuel).of_ok hd
  refine ⟨body, d, declarations_fuel hn hd, ?_, adv.last, ?_⟩
  · have hended := declarations_ended hd
    cases hr : d.rest with
    | nil => rfl
    | cons t ts => simp [hr] at hended
  · refine parse_of_ok ?_
    rw [ofTokens_words hw hm]
    exact bind_of_ok hd

/-- A clean script in front of another one changes nothing about it, and is not changed by it. -/
theorem parse_join (hw : EndFree words) (hm : mark.kind = .eof) (hw' : EndFree words')
    (hm' : mark'.kind = .eof) (k : Nat)
    (hclean : (parse (words ++ [mark]) false nextId).diagnostics = [])
    (helse : ∀ t ∈ words'.head?, t.kind ≠ .else) :
    let read := parse (words ++ [mark]) false nextId
    let read' := parse (words' ++ [mark']) false read.nextId
    ∃ body body', read.program = .statements body ∧ read'.program = .statements body' ∧
      parse (words ++ (words' ++ [mark']).map (Token.down k)) false nextId =
        ⟨.statements (body ++ Stmt.relabelAll (Token.down k) id body'),
          read'.diagnostics.map (Diagnostic.down k), read'.nextId⟩ := by
  intro read read'
  let n := fuelPerToken * (words.length + 1)
  let m := fuelPerToken * (words'.length + 1)
  obtain ⟨body, d, hd, hrest, _, hread⟩ := script_read hw hm nextId (Nat.le_refl n)
  obtain ⟨body', e, he, _, hlast, hread'⟩ := script_read hw' hm' d.nextId (Nat.le_refl m)
  have hlog : d.log = [] := by simpa [hread] using hclean
  -- The second script is read below the first one as it is read alone.
  let c' : Cursor := ⟨words', mark', d.nextId, []⟩
  let below : Setting := ⟨k, 0, [], mark'.down k, []⟩
  have hbelow : declarations m false [] (c'.within below) =
      .ok (body'.map (Stmt.relabel (Token.down k) id)) (e.within below) := by
    have hfollows := (followed (s := below) (Nat.le_refl m)).declarations false [] c' (.inl rfl)
    rw [he] at hfollows
    obtain ⟨_, adv, _, hq⟩ := hfollows
    exact hq (.inr (.inl ⟨rfl, congrArg (Token.down k) hlast.symm⟩))
  -- The first script is read as it is read alone, and reading goes on with the second one.
  let c : Cursor := ⟨words, mark, nextId, []⟩
  let around : Setting := ⟨0, 0, words'.map (Token.down k), mark'.down k, []⟩
  have hsure : around.Sure c := by
    right
    intro t ht
    obtain ⟨_, _, hphrase⟩ := parse_phrase hclean
    rw [rest_ofTokens hw hm] at hphrase
    rcases declarations_close hphrase with hnil | ⟨us, u, hu, hkind⟩
    · simp [c, hnil] at ht
    · have hwords : c.rest = us ++ [u] := hu
      obtain rfl : u = t := by simpa [hwords] using ht
      intro hfun
      simp [hfun] at hkind
  have helse' : ∀ t ∈ around.following.head?, t.kind ≠ .else := by
    intro t ht
    obtain ⟨u, hu, rfl⟩ : ∃ u ∈ words'.head?, u.down k = t := by
      simpa [around, List.head?_map] using ht
    exact helse u hu
  have hmeet : d.within around = c'.within below := by
    simp [Cursor.within, around, below, c', hrest, hlog, Setting.number, Setting.token,
      Setting.diagnostic]
  have hjoin : declarations (n + m) false [] (c.within around) =
      .ok (body.map around.stmt ++ body'.map (Stmt.relabel (Token.down k) id)) (e.within below) :=
    declarations_join (show 16 * words.length + 6 ≤ 16 * _ by omega) hd (by rw [hlog]) hsure helse'
      (List.forall_mem_nil _) (by rw [hmeet]; exact hbelow)
  have hstmt : body.map around.stmt = body := map_alone_stmt (c := c) body
  have htoken : around.token = id := Token.down_zero_eq_id
  have hstart : c.within around = ⟨words ++ words'.map (Token.down k), mark'.down k, nextId, []⟩ := by
    simp [Cursor.within, htoken, around, c, Setting.number]
  have hfree : EndFree (words ++ words'.map (Token.down k)) := by
    simp only [endFree_append]
    refine ⟨hw, fun t ht => ?_⟩
    obtain ⟨u, hu, rfl⟩ := List.mem_map.1 ht
    exact hw' u hu
  have hmark : (mark'.down k).kind = .eof := hm'
  have hfuel : fuelPerToken * ((words ++ words'.map (Token.down k)).length + 1) ≤ n + m := by
    simp only [List.length_append, List.length_map, n, m, fuelPerToken]
    omega
  obtain ⟨all, f, hf, _, _, hall⟩ := script_read hfree hmark nextId hfuel
  rw [hstart, hstmt, hf] at hjoin
  obtain ⟨rfl, rfl⟩ : all = body ++ body'.map (Stmt.relabel (Token.down k) id) ∧
      f = e.within below := by simpa using hjoin
  have hfirst : read = ⟨.statements body, d.log.reverse, d.nextId⟩ := hread
  have hsecond : read' = ⟨.statements body', e.log.reverse, e.nextId⟩ := by
    show parse _ _ read.nextId = _
    rw [hfirst, hread']
  refine ⟨body, body', by rw [hfirst], by rw [hsecond], ?_⟩
  rw [List.map_append, ← List.append_assoc, List.map_singleton, hall, hsecond,
    Stmt.relabelAll_eq_map]
  simp [Cursor.within, below, Setting.number, Setting.diagnostic, List.map_reverse]

end Parse

end Lox
