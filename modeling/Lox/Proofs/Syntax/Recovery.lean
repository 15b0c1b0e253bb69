import Lox.Proofs.Syntax.Locality

/-!
Reading goes on after a fault. The declaration with the fault is lost with the words up to a place
where another one is likely to begin. When its own end is that place, nothing else is lost and nothing
else is reported. When no semicolon comes before the brace that closes the block around it, the brace is
lost too, and with it the block and all that follows.
-/

namespace Lox

open Phrase Reader

section Resumption

/-- Of these words only the last one may be a semicolon, and reading does not go on at any of them
after the first. It does go on behind them. -/
structure Discarded (dropped rest : List Token) : Prop where
  some_word : dropped ≠ []
  no_start : ∀ t ∈ dropped.tail, t.kind ∉ resumptionKinds
  no_semicolon : ∀ t ∈ dropped.dropLast, t.kind ≠ .semicolon
  place : (∃ t ∈ dropped.getLast?, t.kind = .semicolon) ∨ ∀ t ∈ rest.head?, t.kind ∈ resumptionKinds

variable {t : Token} {ts dropped rest : List Token}

theorem dropToResumption_here
    (h : t.kind = .semicolon ∨ ∀ u ∈ rest.head?, u.kind ∈ resumptionKinds) :
    dropToResumption t rest = rest := by
  cases rest with
  | nil => rfl
  | cons u us => exact if_pos (h.imp_right fun hu => hu u rfl)

theorem Discarded.drop (h : Discarded (t :: ts) rest) : dropToResumption t (ts ++ rest) = rest := by
  induction ts generalizing t with
  | nil => exact dropToResumption_here (by simpa using h.place)
  | cons u us ih =>
    have hsemicolon : t.kind ≠ .semicolon := h.no_semicolon t (by simp)
    have hstart : u.kind ∉ resumptionKinds := h.no_start u (by simp)
    have hnext : Discarded (u :: us) rest :=
      ⟨by simp, fun v hv => h.no_start v (by simp at hv ⊢; exact .inr hv),
        fun v hv => h.no_semicolon v (by simp only [List.dropLast_cons_cons, List.mem_cons]; exact .inr hv),
        by simpa using h.place⟩
    rw [List.cons_append, dropToResumption, if_neg (by simp [hsemicolon, hstart])]
    exact ih hnext

/-- A fault at the first of these words costs all of them and no other. -/
theorem Discarded.resume (h : Discarded dropped rest) {last : Token} {k : NodeId}
    {log : List Diagnostic} :
    (Cursor.mk (dropped ++ rest) last k log).resume = ⟨rest, last, k, log⟩ := by
  obtain ⟨t, ts, rfl⟩ := List.exists_cons_of_ne_nil h.some_word
  show Cursor.mk (dropToResumption t (ts ++ rest)) last k log = _
  rw [h.drop]

end Resumption

section Words

variable {words rest : List Token}

theorem rest_ofTokens_append (hw : EndFree words) (k j : NodeId) :
    (Cursor.ofTokens (words ++ rest) k).rest = words ++ (Cursor.ofTokens rest j).rest :=
  List.takeWhile_append_of_pos fun t ht => by simpa using hw t ht

theorem rest_ofTokens_endFree (hw : EndFree words) (k : NodeId) :
    (Cursor.ofTokens words k).rest = words := by
  have h : (Cursor.ofTokens (words ++ []) k).rest = words ++ (Cursor.ofTokens [] k).rest :=
    rest_ofTokens_append hw k k
  rwa [List.append_nil, show (Cursor.ofTokens [] k).rest = [] from rfl, List.append_nil] at h

/-- The end mark is that of the words that come last. -/
theorem last_ofTokens_append (hw : EndFree words) (hrest : rest ≠ []) (k j : NodeId) :
    (Cursor.ofTokens (words ++ rest) k).last = (Cursor.ofTokens rest j).last := by
  have hfind : words.find? (fun t => !(t.kind != .eof)) = none :=
    List.find?_eq_none.2 fun t ht => by simpa using hw t ht
  have hlast : (words ++ rest).getLast? = rest.getLast? := by
    rw [List.getLast?_append, List.getLast?_eq_some_getLast hrest, Option.some_or]
  simp only [Cursor.ofTokens, List.find?_append, hfind, Option.none_or, hlast]

end Words

namespace Reader

variable {inLoop : Bool} {closers : List TokenKind} {last mark : Token} {k j i used : NodeId}
  {words left left' rest : List Token} {body others : List Stmt} {faults faults' : List Diagnostic}

/-- One declaration is tried on these words, and given up at the first of those that are left. The
faults that are reported are listed from the latest on. -/
def GivesUp (inLoop : Bool) (words left : List Token) (faults : List Diagnostic) (used : NodeId) :
    Prop :=
  ∃ n, declaration n inLoop (Cursor.ofTokens words 0) =
    .error .syntaxError ⟨left, (Cursor.ofTokens words 0).last, used, faults⟩

/-- A fault at a word is found there whatever comes after the words or has come before them. -/
theorem GivesUp.within (h : GivesUp inLoop words left faults used) (hwords : EndFree words)
    (hleft : left ≠ []) (hlast : ∀ t ∈ words.getLast?, t.kind ≠ .fun) :
    ∃ n, ∀ m ≥ n, ∀ rest last k log, declaration m inLoop ⟨words ++ rest, last, k, log⟩ =
      .error .syntaxError ⟨left ++ rest, last, k + used, faults ++ log⟩ := by
  obtain ⟨n, hn⟩ := h
  refine ⟨n, fun m hm rest last k log => ?_⟩
  let c := Cursor.ofTokens words 0
  let s : Setting := ⟨0, k, rest, last, log⟩
  have hrest : c.rest = words := rest_ofTokens_endFree hwords 0
  have htoken : s.token = id := Token.down_zero_eq_id
  have hstart : c.within s = ⟨words ++ rest, last, k, log⟩ := by
    have hnext : c.nextId = 0 := rfl
    have hlog : c.log = [] := rfl
    simp [Cursor.within, hrest, htoken, hnext, hlog, s, Setting.number]
  have hread := (followed (s := s) hm).declaration inLoop c (.inr (by rwa [hrest]))
  rw [hn] at hread
  obtain ⟨_, _, _, hgives⟩ := hread
  rw [← hstart, hgives (.inl hleft)]
  have hdiagnostic : s.diagnostic = id := funext fun _ => Diagnostic.down_zero
  simp [Cursor.within, htoken, hdiagnostic, s, Setting.number, Nat.add_comm]

theorem GivesUp.suffix (h : GivesUp inLoop words left faults used) (hwords : EndFree words) :
    left <:+ words := by
  obtain ⟨n, hn⟩ := h
  let c := Cursor.ofTokens words 0
  have hread := (followed (s := .alone c) (Nat.le_refl n)).declaration inLoop c (.inl rfl)
  rw [hn] at hread
  obtain ⟨taken, adv, _⟩ := hread
  exact ⟨taken, by rw [← adv.rest, rest_ofTokens_endFree hwords 0]⟩

/-- Declarations are read from the words up to those that are left, whatever has been reported
before. The faults are listed from the latest on. -/
def Passes (inLoop : Bool) (closers : List TokenKind) (last : Token) (words : List Token)
    (k : NodeId) (body : List Stmt) (faults : List Diagnostic) (left : List Token) (j : NodeId) :
    Prop :=
  ∃ n, ∀ log, declarations n inLoop closers ⟨words, last, k, log⟩ =
    .ok body ⟨left, last, j, faults ++ log⟩

namespace Passes

theorem fuel (h : Passes inLoop closers last words k body faults left j) :
    ∃ n, ∀ m ≥ n, ∀ log, declarations m inLoop closers ⟨words, last, k, log⟩ =
      .ok body ⟨left, last, j, faults ++ log⟩ := by
  obtain ⟨n, hn⟩ := h
  exact ⟨n, fun m hm log => declarations_fuel hm (hn log)⟩

theorem of_ok {n : Nat} {d : Cursor}
    (h : declarations n inLoop closers ⟨words, last, k, []⟩ = .ok body d) :
    Passes inLoop closers last words k body d.log d.rest d.nextId := by
  refine ⟨n, fun log => ?_⟩
  let c : Cursor := ⟨words, last, k, []⟩
  let s : Setting := ⟨0, 0, [], last, log⟩
  have hstmt : body.map s.stmt = body := map_alone_stmt (c := c) body
  have htoken : s.token = id := Token.down_zero_eq_id
  have hdiagnostic : s.diagnostic = id := funext fun _ => Diagnostic.down_zero
  have hread := (followed (s := s) (Nat.le_refl n)).declarations inLoop closers c (.inl rfl)
  rw [h] at hread
  obtain ⟨_, adv, _, hgives⟩ := hread
  have hlast : d.last = last := adv.last
  have hread := hgives (.inr (.inl ⟨rfl, congrArg s.token hlast.symm⟩))
  rw [hstmt] at hread
  simpa [Cursor.within, htoken, hdiagnostic, s, c, Setting.number, hlast] using hread

/-- Nothing is read where the place is closed. -/
theorem closed (h : words.head?.all (·.kind ∈ closers) = true) :
    Passes inLoop closers last words k [] [] words k := ⟨1, fun _ => declarations_closed h⟩

/-- Clean declarations do not end in a `fun`. -/
theorem sure (h : Passes inLoop [] last words k body [] [] j) :
    ∀ t ∈ words.getLast?, t.kind ≠ .fun := by
  obtain ⟨n, hn⟩ := h.fuel
  let c : Cursor := ⟨words, last, k, []⟩
  have hread := (sound (n + (16 * words.length + 6))).declarations c inLoop [] (Nat.le_add_left _ _)
  obtain ⟨ts, adv, _, clean⟩ := hread.of_ok (hn _ (Nat.le_add_right _ _) [])
  have hts : words = ts := by simpa using adv.rest
  rcases declarations_close (clean rfl) with hnil | ⟨us, u, hu, hkind⟩
  · simp [hts, hnil]
  · intro t ht hfun
    obtain rfl : u = t := by simpa [hts, hu] using ht
    simp [hfun] at hkind

/-- Clean declarations in front change nothing. -/
theorem after_clean (h : Passes inLoop [] mark words k body [] [] j)
    (helse : ∀ t ∈ rest.head?, t.kind ≠ .else) (hclosers : ∀ kind ∈ closers, kind = .rightBrace)
    (hothers : Passes inLoop closers last rest j others faults left i) :
    Passes inLoop closers last (words ++ rest) k (body ++ others) faults left i := by
  have hsure := h.sure
  obtain ⟨n, hn⟩ := h.fuel
  obtain ⟨m, hm⟩ := hothers
  let c : Cursor := ⟨words, mark, k, []⟩
  refine ⟨n + (16 * words.length + 6) + m, fun log => ?_⟩
  let s : Setting := ⟨0, 0, rest, last, log⟩
  have hstmt : body.map s.stmt = body := map_alone_stmt (c := c) body
  have htoken : s.token = id := Token.down_zero_eq_id
  have hjoin := declarations_join (s := s) (c := c) (Nat.le_add_left _ _)
    (hn _ (Nat.le_add_right _ _) []) rfl (.inr hsure) helse hclosers (by
      simpa [Cursor.within, s, Setting.number] using hm log)
  rw [hstmt] at hjoin
  simpa [Cursor.within, htoken, s, c, Setting.number] using hjoin

/-- A declaration that is given up costs the words that are dropped. -/
theorem after_fault (h : GivesUp inLoop words left faults used) (hwords : EndFree words)
    (hlast : ∀ t ∈ words.getLast?, t.kind ≠ .fun) (hleft : left ≠ [])
    (hopen : words.head?.all (·.kind ∈ closers) = false) {dropped following : List Token}
    (hdropped : left ++ rest = dropped ++ following) (hdiscarded : Discarded dropped following)
    (hothers : Passes inLoop closers last following (k + used) others faults' left' i) :
    Passes inLoop closers last (words ++ rest) k others (faults' ++ faults) left' i := by
  obtain ⟨n, hn⟩ := h.within hwords hleft hlast
  obtain ⟨m, hm⟩ := hothers.fuel
  refine ⟨n + m + 1, fun log => ?_⟩
  have hfirst : recovering (declaration (n + m) inLoop) ⟨words ++ rest, last, k, log⟩ =
      .ok none ⟨following, last, k + used, faults ++ log⟩ := by
    unfold recovering
    rw [hn _ (Nat.le_add_right n m)]
    simp only
    rw [hdropped, hdiscarded.resume]
  have hopen' : (words ++ rest).head?.all (·.kind ∈ closers) = false := by
    cases words with
    | nil => simp at hopen
    | cons t ts => exact hopen
  rw [declarations_next hopen', bind_of_ok hfirst, bind_of_ok (hm _ (Nat.le_add_left m n) _)]
  simp [Pure.pure, EStateM.pure]

section Block

variable {opener closer : Token} {n : Nat} {log : List Diagnostic}

/-- A declaration that an opening brace begins is a block. -/
theorem declaration_block (ho : opener.kind = .leftBrace) :
    declaration (n + 2) inLoop ⟨opener :: words, last, k, log⟩ = (do
      let body ← declarations n inLoop [.rightBrace]
      let _ ← expect .rightBrace .braceAfterBlock
      pure (.block body) : Reader Stmt) ⟨words, last, k, log⟩ := by
  let c : Cursor := ⟨opener :: words, last, k, log⟩
  have hfun : (opener.kind == .fun) = false := by simp [ho]
  have hnamed : seesNamedFunction c = .ok false c := by
    cases words with
    | nil => rfl
    | cons u us =>
      show EStateM.Result.ok (opener.kind == .fun && u.kind == .identifier) c = _
      rw [hfun, Bool.false_and]
  have hopener : opener.kind ∉ [TokenKind.class, .var] := by simp [ho]
  rw [declaration, bind_of_ok hnamed]
  simp only [Bool.false_eq_true, if_false]
  rw [accept_not_mem (c := c) (stops_cons hopener)]
  dsimp only
  rw [statement, accept_mem (c := c) rfl (by simp [ho])]
  simp only [ho, c]

theorem head_open (ho : opener.kind = .leftBrace) (hclosers : ∀ kind ∈ closers, kind = .rightBrace) :
    (opener :: words).head?.all (·.kind ∈ closers) = false := by
  have hnot : opener.kind ∉ closers := fun hmem => by
    have hkind := hclosers _ hmem
    simp [ho] at hkind
  simpa using hnot

/-- A block is read up to its brace, whatever faults there are in it. -/
theorem block (h : Passes inLoop [.rightBrace] last words k body faults (closer :: rest) j)
    (ho : opener.kind = .leftBrace) (hc : closer.kind = .rightBrace)
    (hclosers : ∀ kind ∈ closers, kind = .rightBrace)
    (hothers : Passes inLoop closers last rest j others faults' left i) :
    Passes inLoop closers last (opener :: words) k (.block body :: others) (faults' ++ faults)
      left i := by
  obtain ⟨n, hn⟩ := h.fuel
  obtain ⟨m, hm⟩ := hothers.fuel
  refine ⟨n + m + 2 + 1, fun log => ?_⟩
  have hbrace : expect .rightBrace .braceAfterBlock ⟨closer :: rest, last, j, faults ++ log⟩ =
      .ok closer ⟨rest, last, j, faults ++ log⟩ := by
    rw [expect, accept_mem rfl (by simp [hc])]
    rfl
  have hfirst : recovering (declaration (n + m + 2) inLoop) ⟨opener :: words, last, k, log⟩ =
      .ok (some (.block body)) ⟨rest, last, j, faults ++ log⟩ := by
    unfold recovering
    rw [declaration_block ho, bind_of_ok (hn _ (Nat.le_add_right n m) log), bind_of_ok hbrace]
    rfl
  rw [declarations_next (head_open ho hclosers), bind_of_ok hfirst,
    bind_of_ok (hm _ (by omega) (faults ++ log))]
  simp [Pure.pure, EStateM.pure]

/-- A block that no brace closes is left out, with all that has been read as a part of it. -/
theorem open_block (h : Passes inLoop [.rightBrace] last words k body faults [] j)
    (ho : opener.kind = .leftBrace) (hclosers : ∀ kind ∈ closers, kind = .rightBrace) :
    Passes inLoop closers last (opener :: words) k []
      (.atToken last (.syntactic (.missing .braceAfterBlock)) :: faults) [] j := by
  obtain ⟨n, hn⟩ := h.fuel
  refine ⟨n + 2 + 1, fun log => ?_⟩
  have hfirst : recovering (declaration (n + 2) inLoop) ⟨opener :: words, last, k, log⟩ =
      .ok none ⟨[], last, j, .atToken last (.syntactic (.missing .braceAfterBlock)) :: (faults ++ log)⟩ := by
    unfold recovering
    rw [declaration_block ho, bind_of_ok (hn _ (Nat.le_refl n) log)]
    rfl
  rw [declarations_next (head_open ho hclosers), bind_of_ok hfirst, bind_of_ok (declarations_end rfl)]
  simp [Pure.pure, EStateM.pure]

end Block

end Passes

end Reader

section Parse

variable {tokens : List Token} {k j : NodeId} {body : List Stmt} {faults : List Diagnostic}
  {left : List Token}

/-- A script is read as its declarations are. -/
theorem parse_of_passes
    (h : Passes false [] (Cursor.ofTokens tokens k).last (Cursor.ofTokens tokens k).rest k body
      faults left j) :
    parse tokens false k = ⟨.statements body, faults.reverse, j⟩ := by
  let c := Cursor.ofTokens tokens k
  let n := fuelPerToken * (c.rest.length + 1)
  obtain ⟨m, hm⟩ := h.fuel
  obtain ⟨read, d, hd⟩ : ∃ read d, declarations n false [] c = .ok read d :=
    declarations_ok (show 16 * c.rest.length + 6 ≤ 16 * _ by omega)
  have hmore : declarations (n + m) false [] c = .ok read d :=
    declarations_fuel (Nat.le_add_right n m) hd
  have hsame : declarations (n + m) false [] c = .ok body ⟨left, c.last, j, faults ++ []⟩ :=
    hm _ (Nat.le_add_left m n) []
  obtain ⟨rfl, rfl⟩ : read = body ∧ d = ⟨left, c.last, j, faults ++ []⟩ := by
    simpa using hmore.symm.trans hsame
  have hprogram : program n false c = .ok (.statements read) ⟨left, c.last, j, faults ++ []⟩ :=
    bind_of_ok hd
  rw [parse_of_ok hprogram, List.append_nil]

theorem passes_parse (tokens : List Token) (k : NodeId) :
    ∃ body faults j, Passes false [] (Cursor.ofTokens tokens k).last (Cursor.ofTokens tokens k).rest
        k body faults [] j ∧
      parse tokens false k = ⟨.statements body, faults.reverse, j⟩ := by
  let c := Cursor.ofTokens tokens k
  obtain ⟨body, d, hd⟩ : ∃ body d, declarations (16 * c.rest.length + 6) false [] c = .ok body d :=
    declarations_ok (Nat.le_refl _)
  have hended := declarations_ended hd
  have hleft : d.rest = [] := by
    cases hr : d.rest with
    | nil => rfl
    | cons t ts => simp [hr] at hended
  have hpasses := Passes.of_ok hd
  rw [hleft] at hpasses
  exact ⟨body, d.log, d.nextId, hpasses, parse_of_passes hpasses⟩

theorem passes_behind {words : List Token} (hw : EndFree words) (tokens : List Token) (k j : NodeId) :
    ∃ body faults i, Passes false [] (Cursor.ofTokens (words ++ tokens) k).last
        (Cursor.ofTokens tokens j).rest j body faults [] i ∧
      parse tokens false j = ⟨.statements body, faults.reverse, i⟩ := by
  cases tokens with
  | nil => exact ⟨[], [], j, .closed rfl, parse_of_passes (.closed rfl)⟩
  | cons t ts =>
    rw [last_ofTokens_append hw (List.cons_ne_nil t ts) k j]
    exact passes_parse (t :: ts) j

theorem head?_ofTokens {t : Token} (h : t ∈ (Cursor.ofTokens tokens k).rest.head?) :
    t ∈ tokens.head? := by
  have hprefix : (Cursor.ofTokens tokens k).rest <+: tokens := List.takeWhile_prefix _
  obtain ⟨us, hus⟩ := hprefix
  rw [← hus, List.head?_append, Option.mem_def.1 h]
  rfl

end Parse

section Faulty

variable {words rest : List Token} {k : NodeId}

/-- A declaration that is given up at one of its own words. It ends in its only semicolon, and no word
after its first one is a place where reading goes on. -/
structure Slip (words : List Token) : Prop where
  endFree : EndFree words
  no_start : ∀ t ∈ words.tail, t.kind ∉ resumptionKinds
  no_semicolon : ∀ t ∈ words.dropLast, t.kind ≠ .semicolon
  semicolon : ∃ t ∈ words.getLast?, t.kind = .semicolon
  givenUp : ∃ left faults used, left ≠ [] ∧ GivesUp false words left faults used

/-- Wherever the fault is found, the words up to the semicolon are dropped. -/
theorem Slip.discarded (h : Slip words) {left : List Token} (hleft : left <:+ words)
    (hne : left ≠ []) (rest : List Token) : Discarded left rest := by
  obtain ⟨taken, rfl⟩ := hleft
  refine ⟨hne, fun t ht => h.no_start t ?_, fun t ht => h.no_semicolon t ?_, .inl ?_⟩
  · cases taken with
    | nil => exact ht
    | cons u us => exact List.mem_append_right us (List.mem_of_mem_tail ht)
  · rw [List.dropLast_append_of_ne_nil hne]
    exact List.mem_append_right taken ht
  · simpa [List.getLast?_append, List.getLast?_eq_some_getLast hne] using h.semicolon

/-- A slip costs itself, whatever comes after it. -/
theorem Slip.passes (h : Slip words) : ∃ faults used, ∀ rest last k others faults' left i,
    Passes false [] last rest (k + used) others faults' left i →
      Passes false [] last (words ++ rest) k others (faults' ++ faults) left i := by
  obtain ⟨left, faults, used, hne, hgives⟩ := h.givenUp
  obtain ⟨semicolon, hlast, hkind⟩ := h.semicolon
  refine ⟨faults, used, fun rest last k others faults' left' i hothers => ?_⟩
  refine .after_fault hgives h.endFree (fun t ht hfun => ?_) hne ?_ rfl
    (h.discarded (hgives.suffix h.endFree) hne rest) hothers
  · obtain rfl : semicolon = t := Option.some.inj (hlast.symm.trans ht)
    simp [hfun] at hkind
  · cases words with
    | nil => simp at hlast
    | cons t ts => simp

/-- Nothing, or a slip, is left out with its own diagnostics. -/
theorem skipped_passes (h : words = [] ∨ Slip words) (k : NodeId) : ∃ faults j,
    parse words false k = ⟨.statements [], faults.reverse, j⟩ ∧
      ∀ rest last others faults' left i, Passes false [] last rest j others faults' left i →
        Passes false [] last (words ++ rest) k others (faults' ++ faults) left i := by
  rcases h with rfl | h
  · refine ⟨[], k, parse_of_passes (.closed rfl), fun rest last others faults' left i hothers => ?_⟩
    rwa [List.append_nil]
  · obtain ⟨faults, used, hpasses⟩ := h.passes
    refine ⟨faults, k + used, ?_, fun rest last others faults' left i => hpasses rest last k _ _ _ _⟩
    have halone := hpasses [] (Cursor.ofTokens words k).last k [] [] [] (k + used) (.closed rfl)
    rw [List.append_nil, List.nil_append] at halone
    exact parse_of_passes (by rwa [rest_ofTokens_endFree h.endFree])

/-- Reading and going on after a fault are local. Behind clean declarations, a faulty one is left out
and nothing else is: the statements around it are those that are read without it, and its diagnostics
and those of the words behind it are the ones that either gives alone. -/
theorem faulty_declaration_local {clean faulty others : List Token} (hwords : EndFree clean)
    (hclean : (parse clean false k).diagnostics = []) (hfaulty : faulty = [] ∨ Slip faulty)
    (helse : ∀ t ∈ (faulty ++ others).head?, t.kind ≠ .else) :
    let first := parse clean false k
    let slip := parse faulty false first.nextId
    let second := parse others false slip.nextId
    ∃ body body', first.program = .statements body ∧ second.program = .statements body' ∧
      parse (clean ++ faulty ++ others) false k =
        ⟨.statements (body ++ body'), slip.diagnostics ++ second.diagnostics, second.nextId⟩ := by
  intro first slip second
  have hfree : EndFree faulty := hfaulty.elim (fun h => h ▸ endFree_nil) Slip.endFree
  have hwords' : EndFree (clean ++ faulty) := endFree_append.2 ⟨hwords, hfree⟩
  obtain ⟨body, faults, j, hbody, hfirst⟩ := passes_parse clean k
  obtain ⟨faults', i, hslip, hskip⟩ := skipped_passes hfaulty j
  obtain ⟨body', faults'', l, hbody', hsecond⟩ := passes_behind hwords' others k i
  obtain rfl : faults = [] := by simpa [hfirst] using hclean
  have hslip' : slip = ⟨.statements [], faults'.reverse, i⟩ := by
    rw [← hslip]
    exact congrArg (fun p : Parse => parse faulty false p.nextId) hfirst
  have hsecond' : second = ⟨.statements body', faults''.reverse, l⟩ := by
    rw [← hsecond]
    exact congrArg (fun p : Parse => parse others false p.nextId) hslip'
  have hrest : (Cursor.ofTokens (clean ++ faulty ++ others) k).rest =
      clean ++ (faulty ++ (Cursor.ofTokens others i).rest) := by
    rw [rest_ofTokens_append hwords' k i, List.append_assoc]
  rw [rest_ofTokens_endFree hwords] at hbody
  have hnext : ∀ t ∈ (faulty ++ (Cursor.ofTokens others i).rest).head?, t.kind ≠ .else := by
    intro t ht
    cases faulty with
    | nil => exact helse t (head?_ofTokens (k := i) ht)
    | cons u us => exact helse t ht
  have hwhole := hbody.after_clean hnext (by simp) (hskip _ _ _ _ _ _ hbody')
  rw [← hrest] at hwhole
  refine ⟨body, body', congrArg Parse.program hfirst, congrArg Parse.program hsecond', ?_⟩
  rw [parse_of_passes hwhole, hslip', hsecond', List.reverse_append]

/-- The words of `print a;`. -/
def printWords : List Token :=
  [.synthetic .print "print" 1, .synthetic .identifier "a" 1, .synthetic .semicolon ";" 1]

/-- The words of `var = a;`, a variable without a name. -/
def namelessWords : List Token :=
  [.synthetic .var "var" 1, .synthetic .equal "=" 1, .synthetic .identifier "a" 1,
    .synthetic .semicolon ";" 1]

theorem endFree_printWords : EndFree printWords := fun t ht => by
  revert t
  decide

theorem namelessWords_slip : Slip namelessWords where
  endFree := fun t ht => by
    revert t
    decide
  no_start := by decide
  no_semicolon := by decide
  semicolon := ⟨.synthetic .semicolon ";" 1, rfl, rfl⟩
  givenUp := ⟨namelessWords.tail, _, 0, by decide, 20, rfl⟩

theorem faulty_declaration_local_nameless :
    let first := parse printWords false 0
    let slip := parse namelessWords false first.nextId
    let second := parse printWords false slip.nextId
    ∃ body body', first.program = .statements body ∧ second.program = .statements body' ∧
      parse (printWords ++ namelessWords ++ printWords) false 0 =
        ⟨.statements (body ++ body'), slip.diagnostics ++ second.diagnostics, second.nextId⟩ :=
  faulty_declaration_local endFree_printWords (by decide +kernel) (.inr namelessWords_slip) (by decide)

end Faulty

section Block

variable {opener closer last mark : Token} {faulty dropped rest : List Token}
  {faults faults' : List Diagnostic} {used k j i : NodeId} {body others : List Stmt}

/-- A faulty declaration before the brace that closes the block around it. The fault is found at the
first of the words that are `dropped`, or at the brace when there are none. -/
structure SlipBefore (closer : Token) (faulty dropped : List Token) (faults : List Diagnostic)
    (used : NodeId) : Prop where
  brace : closer.kind = .rightBrace
  endFree : EndFree faulty
  opens : ∃ t ∈ faulty.head?, t.kind ∉ [TokenKind.rightBrace, .else]
  givesUp : GivesUp false (faulty ++ [closer]) (dropped ++ [closer]) faults used
  no_start : ∀ t ∈ dropped.tail, t.kind ∉ resumptionKinds

namespace SlipBefore

/-- Without a semicolon the brace is dropped with the words before it. -/
theorem discarded (h : SlipBefore closer faulty dropped faults used)
    (hsemicolon : ∀ t ∈ dropped, t.kind ≠ .semicolon)
    (hrest : ∀ t ∈ rest.head?, t.kind ∈ resumptionKinds) : Discarded (dropped ++ [closer]) rest := by
  refine ⟨by simp, fun t ht => ?_, by simpa using hsemicolon, .inr hrest⟩
  cases dropped with
  | nil => simp at ht
  | cons u us =>
    rcases List.mem_append.1 ht with ht | ht
    · exact h.no_start t ht
    · obtain rfl := List.mem_singleton.1 ht
      simp [h.brace, resumptionKinds]

/-- The fault is found behind clean declarations of the block as it is found before the brace alone. -/
theorem passes (h : SlipBefore closer faulty dropped faults used) {clean tail following left : List Token}
    (hclean : Passes false [] mark clean k body [] [] j)
    (htail : dropped ++ [closer] ++ rest = tail ++ following) (hd : Discarded tail following)
    (hothers : Passes false [.rightBrace] last following (j + used) others faults' left i) :
    Passes false [.rightBrace] last (clean ++ (faulty ++ [closer] ++ rest)) k (body ++ others)
      (faults' ++ faults) left i := by
  obtain ⟨t, ht, hkind⟩ := h.opens
  obtain ⟨ts, hts⟩ := List.head?_eq_some_iff.1 ht
  have hbrace : t.kind ≠ .rightBrace := fun hk => hkind (by simp [hk])
  have helse : t.kind ≠ .else := fun hk => hkind (by simp [hk])
  refine hclean.after_clean (by simpa [hts] using helse) (by simp) ?_
  refine .after_fault h.givesUp ?_ ?_ (by simp) (by simpa [hts] using hbrace) htail hd hothers
  · simp [h.endFree, h.brace]
  · simp [h.brace]

/-- A semicolon closes what is dropped. The declaration costs itself, and the block is kept. -/
theorem block_kept (h : SlipBefore closer faulty dropped faults used) {clean : List Token}
    (ho : opener.kind = .leftBrace) (hclean : Passes false [] mark clean k body [] [] j)
    (hsemicolon : ∀ t ∈ dropped.dropLast, t.kind ≠ .semicolon)
    (hlast : ∃ t ∈ dropped.getLast?, t.kind = .semicolon)
    (hothers : Passes false [] last rest (j + used) others faults' [] i) :
    Passes false [] last (opener :: (clean ++ (faulty ++ [closer] ++ rest))) k (.block body :: others)
      (faults' ++ faults) [] i := by
  have hne : dropped ≠ [] := by
    rintro rfl
    simp at hlast
  have hclosed : Passes false [.rightBrace] last (closer :: rest) (j + used) [] [] (closer :: rest)
      (j + used) := .closed (by simp [h.brace])
  have htail : dropped ++ [closer] ++ rest = dropped ++ closer :: rest := by simp
  have hinside := h.passes hclean htail ⟨hne, h.no_start, hsemicolon, .inl hlast⟩ hclosed
  rw [List.append_nil, List.nil_append] at hinside
  exact hinside.block ho h.brace (by simp) hothers

/-- No semicolon comes before the brace, which is dropped. The declarations behind it are read as a
part of the block, and the block that is open at the end is left out. -/
theorem block_lost (h : SlipBefore closer faulty dropped faults used) {clean : List Token}
    (ho : opener.kind = .leftBrace) (hclean : Passes false [] mark clean k body [] [] j)
    (hsemicolon : ∀ t ∈ dropped, t.kind ≠ .semicolon)
    (hrest : ∀ t ∈ rest.head?, t.kind ∈ resumptionKinds)
    (hothers : Passes false [] last rest (j + used) others [] [] i) :
    Passes false [] last (opener :: (clean ++ (faulty ++ [closer] ++ rest))) k []
      (.atToken last (.syntactic (.missing .braceAfterBlock)) :: faults) [] i := by
  have hall : Passes false [.rightBrace] last (rest ++ []) (j + used) (others ++ []) [] [] i :=
    hothers.after_clean (by simp) (by simp) (.closed rfl)
  rw [List.append_nil, List.append_nil] at hall
  exact (h.passes hclean rfl (h.discarded hsemicolon hrest) hall).open_block ho (by simp)

end SlipBefore

/-- A faulty declaration at the end of a block costs only itself if a semicolon closes what is dropped.
If none does, the brace of the block is dropped too, and the block is lost with all that follows. -/
theorem block_recovery {clean behind : List Token} (ho : opener.kind = .leftBrace)
    (hwords : EndFree clean) (hclean : (parse clean false k).diagnostics = [])
    (h : SlipBefore closer faulty dropped faults used) :
    let first := parse clean false k
    let second := parse behind false (first.nextId + used)
    let text := opener :: (clean ++ faulty ++ closer :: behind)
    ∃ body body', first.program = .statements body ∧ second.program = .statements body' ∧
      ((∀ t ∈ dropped.dropLast, t.kind ≠ .semicolon) → (∃ t ∈ dropped.getLast?, t.kind = .semicolon) →
        parse text false k =
          ⟨.statements (.block body :: body'), faults.reverse ++ second.diagnostics, second.nextId⟩) ∧
      ((∀ t ∈ dropped, t.kind ≠ .semicolon) → (∀ t ∈ behind.head?, t.kind ∈ resumptionKinds) →
        second.diagnostics = [] →
        parse text false k =
          ⟨.statements [], faults.reverse ++
            [.atToken (Cursor.ofTokens text k).last (.syntactic (.missing .braceAfterBlock))],
            second.nextId⟩) := by
  intro first second text
  obtain ⟨body, faults₁, j, hbody, hfirst⟩ := passes_parse clean k
  obtain rfl : faults₁ = [] := by simpa [hfirst] using hclean
  rw [rest_ofTokens_endFree hwords] at hbody
  have hfree : EndFree (opener :: (clean ++ faulty ++ [closer])) := by
    simp [ho, h.brace, hwords, h.endFree]
  have htext : opener :: (clean ++ faulty ++ [closer]) ++ behind = text := by simp [text]
  obtain ⟨body', faults', i, hbody', hsecond⟩ := passes_behind hfree behind k (j + used)
  rw [htext] at hbody'
  have hsecond' : second = ⟨.statements body', faults'.reverse, i⟩ := by
    rw [← hsecond]
    exact congrArg (fun p : Parse => parse behind false (p.nextId + used)) hfirst
  have hrest : (Cursor.ofTokens text k).rest =
      opener :: (clean ++ (faulty ++ [closer] ++ (Cursor.ofTokens behind (j + used)).rest)) := by
    rw [← htext, rest_ofTokens_append hfree k (j + used)]
    simp
  refine ⟨body, body', congrArg Parse.program hfirst, congrArg Parse.program hsecond', ?_, ?_⟩
  · intro hsemicolon hlast
    have hkept := h.block_kept ho hbody hsemicolon hlast hbody'
    rw [← hrest] at hkept
    rw [parse_of_passes hkept, hsecond', List.reverse_append]
  · intro hsemicolon hbehind hquiet
    obtain rfl : faults' = [] := by simpa [hsecond'] using hquiet
    have hlost := h.block_lost ho hbody hsemicolon
      (fun t ht => hbehind t (head?_ofTokens (k := j + used) ht)) hbody'
    rw [← hrest] at hlost
    rw [parse_of_passes hlost, hsecond', List.reverse_cons]

/-- The words of `var b = c`, which no semicolon closes. -/
def unclosedWords : List Token :=
  [.synthetic .var "var" 1, .synthetic .identifier "b" 1, .synthetic .equal "=" 1,
    .synthetic .identifier "c" 1]

/-- With `var b = c` before its brace, the block is lost and so is the `print a;` behind it. -/
theorem block_recovery_unclosed :
    let opener := Token.synthetic .leftBrace "\x7b" 1
    let closer := Token.synthetic .rightBrace "\x7d" 1
    let read := parse (opener :: (printWords ++ unclosedWords ++ closer :: printWords)) false 0
    read.program = .statements [] ∧ read.diagnostics =
      [.atToken closer (.syntactic (.missing .semicolonAfterVariable)),
        .atToken (.synthetic .eof "" 1) (.syntactic (.missing .braceAfterBlock))] := by
  intro opener closer read
  have hfree : EndFree unclosedWords := fun t ht => by
    revert t
    decide
  have hslip : SlipBefore closer unclosedWords []
      [.atToken closer (.syntactic (.missing .semicolonAfterVariable))] 1 :=
    ⟨rfl, hfree, ⟨_, rfl, by decide⟩, ⟨60, rfl⟩, by decide⟩
  have hclean : (parse printWords false 0).diagnostics = [] := by decide +kernel
  have hquiet : (parse printWords false ((parse printWords false 0).nextId + 1)).diagnostics = [] := by
    decide +kernel
  have hopener : opener.kind = .leftBrace := rfl
  obtain ⟨_, _, _, _, _, hlost⟩ := block_recovery hopener endFree_printWords hclean hslip
  have hread := hlost (by decide) (by decide) hquiet
  exact ⟨congrArg Parse.program hread, congrArg Parse.diagnostics hread⟩

end Block

end Lox
