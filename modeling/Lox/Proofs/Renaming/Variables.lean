import Mathlib
import Lox.Proofs.Compilation
import Lox.Proofs.Renaming.Distinct
import Lox.Proofs.Renaming.Reading
import Lox.Proofs.Renaming.Steps
import Lox.Proofs.Renaming.Text

/-!
The declaration of a local variable with all names that the hops lead to it, and the source in which
they have another name. In a tree whose tokens have their places in the stead of their lines no two
words are the same, so that a word tells where it stands in the source.
-/

namespace Lox

open Phrase

/-- Each token with its place in the text in the stead of its line. -/
def placeTokens (ts : List Token) : List Token := ts.zipIdx.map fun (t, i) => { t with line := i }

/-- The tree of a source in which each token has its place among the words. -/
def placed (source : String) (mode : Mode) (first : NodeId) : Program :=
  (parse (placeTokens (tokensOf (scan source))) (mode == .line) first).program

/-- The word declares a variable within a scope: by `var`, or as a parameter. -/
def Word.isLocal (w : Word) : Bool :=
  match w.use with
  | .variable => !w.scopes.isEmpty
  | .named | .refers _ | .other => false

/-- The local variables of a source, each with the place of its declaration. -/
def localVariables (source : String) (mode : Mode) (first : NodeId) : List Token :=
  ((placed source mode first).words.filter Word.isLocal).map Word.token

/-- The places of the words that belong to a variable: where it is declared, read and assigned. -/
def placesOf (v : Token) (source : String) (mode : Mode) (first : NodeId) : List Nat :=
  let hops := (compile source mode first).hops
  ((placed source mode first).words.filter (·.belongsTo (hops[·]?) v)).map (·.token.line)

/-- The source in which the variable has another name. -/
def renameVariable (v : Token) (name source : String) (mode : Mode) (first : NodeId) : String :=
  respell (placesOf v source mode first) name source

/-- The tokens of the text that stand at the places, with the name at some of them. -/
def spelling (ts : List Token) (numbers : List Nat) (name : String) : Respelling where
  token t :=
    { t with
      lexeme := if t.line ∈ numbers then name else t.lexeme
      line := (ts[t.line]?.map Token.line).getD 0 }
  kind _ := rfl
  literal _ := rfl

section Places

variable {ts : List Token} {numbers : List Nat} {name : String}

theorem mem_placeTokens {t : Token} (h : t ∈ placeTokens ts) :
    ∃ t', ts[t.line]? = some t' ∧ t = { t' with line := t.line } := by
  obtain ⟨⟨t', i⟩, hmem, rfl⟩ := List.mem_map.1 h
  exact ⟨t', List.mem_zipIdx_iff_getElem?.1 hmem, rfl⟩

theorem placeTokens_lines (ts : List Token) :
    (placeTokens ts).map Token.line = List.range ts.length := by
  unfold placeTokens
  rw [List.map_map, List.range_eq_range']
  exact List.zipIdx_map_snd 0 ts

theorem placeTokens_append (ts : List Token) (t : Token) :
    placeTokens (ts ++ [t]) = placeTokens ts ++ [{ t with line := ts.length }] := by
  unfold placeTokens
  rw [List.zipIdx_append, List.map_append, Nat.zero_add]
  rfl

/-- At the places the tokens of the text are found again. -/
theorem spelling_placeTokens (ts : List Token) (numbers : List Nat) (name : String) :
    (placeTokens ts).map (spelling ts numbers name).token = respellTokens numbers name 0 ts := by
  unfold placeTokens respellTokens
  rw [List.map_map]
  refine List.map_congr_left fun (t, i) hmem => ?_
  have hline : (ts[i]?.map Token.line).getD 0 = t.line := by
    rw [List.mem_zipIdx_iff_getElem?.1 hmem]
    rfl
  show Token.mk t.kind (if i ∈ numbers then name else t.lexeme) t.literal _ =
    if i ∈ numbers then { t with lexeme := name } else t
  rw [hline]
  by_cases hi : i ∈ numbers
  · rw [if_pos hi, if_pos hi]
  · rw [if_neg hi, if_neg hi]

theorem respellTokens_nil (ts : List Token) (name : String) : respellTokens [] name 0 ts = ts := by
  unfold respellTokens
  simp only [List.not_mem_nil, if_false]
  exact List.zipIdx_map_fst 0 ts

theorem respellTokens_append {mark : Token} (h : ts.length ∉ numbers) :
    respellTokens numbers name 0 (ts ++ [mark]) = respellTokens numbers name 0 ts ++ [mark] := by
  unfold respellTokens
  rw [List.zipIdx_append, List.map_append, Nat.zero_add]
  simp only [List.zipIdx_singleton, List.map_cons, List.map_nil, if_neg h]

end Places

section Spelling

variable {ts : List Token} {numbers : List Nat} {name : String} {t : Token}

theorem spelling_lexeme (ts : List Token) (name : String) (t : Token) :
    ((spelling ts [] name).token t).lexeme = t.lexeme := by
  show (if t.line ∈ [] then name else t.lexeme) = t.lexeme
  exact if_neg List.not_mem_nil

theorem spelling_mem (h : t.line ∈ numbers) : (spelling ts numbers name).token t =
    { (spelling ts [] name).token t with lexeme := name } :=
  congrArg (Token.mk t.kind · t.literal _) (if_pos h)

theorem spelling_not_mem (h : t.line ∉ numbers) :
    (spelling ts numbers name).token t = (spelling ts [] name).token t :=
  congrArg (Token.mk t.kind · t.literal _) ((if_neg h).trans (spelling_lexeme ts name t).symm)

end Spelling

section Belonging

variable {ws : List Word} {w : Word} {hops : NodeId → Option Nat} {v : Token} {c : Change}
  {ts : List Token}

/-- Where no two words have the same line, the lines tell them apart. -/
theorem mem_lines {p : Word → Bool} (hlines : (ws.map fun w => w.token.line).Nodup) (hw : w ∈ ws) :
    w.token.line ∈ (ws.filter p).map (fun w => w.token.line) ↔ p w = true := by
  constructor
  · intro h
    obtain ⟨w', hmem, heq⟩ := List.mem_map.1 h
    obtain ⟨hw', hp⟩ := List.mem_filter.1 hmem
    rwa [← List.inj_on_of_nodup_map hlines hw' hw heq]
  · intro hp
    exact List.mem_map.2 ⟨w, List.mem_filter.2 ⟨hw, hp⟩, rfl⟩

theorem Token.same_iff {t t' : Token} :
    t.same t' = true ↔ t'.line = t.line ∧ t'.lexeme = t.lexeme := by
  unfold Token.same
  rw [Bool.and_eq_true, beq_iff_eq, beq_iff_eq]

theorem isLocal_iff : w.isLocal = true ↔ w.use = .variable ∧ w.scopes ≠ [] := by
  unfold Word.isLocal
  cases w.use <;> simp

/-- A word in a scope with the mark has the new name if it belongs to the variable, and is another name
or the same as before if it does not. -/
theorem spelling_renamed {numbers : List Nat} {t : Token} {m : Bool} (hfresh : t.lexeme ≠ c.new)
    (hin : t.line ∈ numbers → m = true ∧ t.lexeme = c.old ∧ c.respelled ((spelling ts [] c.new).token t))
    (hout : t.line ∉ numbers → m = true → t.lexeme ≠ c.old) :
    Token.Renamed c m ((spelling ts [] c.new).token t) ((spelling ts numbers c.new).token t) := by
  by_cases hmem : t.line ∈ numbers
  · obtain ⟨rfl, hold, hrespelled⟩ := hin hmem
    rw [spelling_mem hmem]
    exact .respelled ((spelling_lexeme ts c.new t).trans hold) hrespelled
  · rw [spelling_not_mem hmem]
    cases m with
    | false => exact .unmarked _
    | true =>
      refine .other ?_ ?_
      · rw [spelling_lexeme]
        exact hout hmem rfl
      · rw [spelling_lexeme]
        exact hfresh

theorem headD_marks (Γ : List (List Token)) (marks : Token → Bool) :
    (Γ.map (·.any marks)).headD false = (Γ.headD []).any marks := by
  cases Γ <;> rfl

theorem mark_scopes {M : Matching} (Γ : List (List Token)) (marks : Token → Bool) (id : NodeId) :
    M.mark (Γ.map (·.any marks)) id = (((M.hops id).bind (Γ[·]?)).getD []).any marks := by
  unfold Matching.mark
  cases M.hops id with
  | none => rfl
  | some depth =>
    simp only [Option.bind_some, List.getElem?_map]
    cases Γ[depth]? <;> rfl

/-- What a scope with the variable declares besides has another name. -/
theorem declared_other (hdistinct : w.Distinct) (huse : w.use = .variable ∨ w.use = .named)
    (hmark : (w.scopes.headD []).any v.same = true) (heq : w.token.lexeme = v.lexeme) :
    w.use = .variable ∧ v.same w.token = true := by
  obtain ⟨t, hmem, hsame⟩ := List.any_eq_true.1 hmark
  have hlexeme : t.lexeme = w.token.lexeme := (Token.same_iff.1 hsame).2.trans heq.symm
  obtain ⟨hvariable, rfl⟩ := hdistinct.only huse t hmem hlexeme
  exact ⟨hvariable, hsame⟩

variable (hlines : (ws.map fun w => w.token.line).Nodup) (hdistinct : ∀ w ∈ ws, w.Distinct)
  (hv : v ∈ (ws.filter Word.isLocal).map Word.token)
include hlines hdistinct hv

/-- The word that declares the variable is in the scope that has it. -/
theorem declaration_marked (hw : w ∈ ws) (hsame : v.same w.token = true) :
    (w.scopes.headD []).any v.same = true := by
  obtain ⟨w', hmem, rfl⟩ := List.mem_map.1 hv
  obtain ⟨hw', hlocal⟩ := List.mem_filter.1 hmem
  obtain rfl : w = w' := List.inj_on_of_nodup_map hlines hw hw' (Token.same_iff.1 hsame).1
  obtain ⟨huse, hscopes⟩ := isLocal_iff.1 hlocal
  exact List.any_eq_true.2 ⟨w.token, (hdistinct w hw).own huse hscopes, hsame⟩

/-- The words match that belong to the variable, with its new name, and all others as they are. -/
theorem fits_renamed (hold : c.old = v.lexeme) (hfresh : ∀ w ∈ ws, w.token.lexeme ≠ c.new)
    (hhops : ∀ w ∈ ws, ∀ id, w.id? = some id → c.hops id = hops id)
    (hrespelled : ∀ w ∈ ws, w.belongsTo hops v = true →
      c.respelled ((spelling ts [] c.new).token w.token)) (hw : w ∈ ws) :
    let numbers := (ws.filter (·.belongsTo hops v)).map fun w => w.token.line
    w.Fits c.matching v.same (spelling ts [] c.new).token (spelling ts numbers c.new).token := by
  intro numbers
  have hmem : w.token.line ∈ numbers ↔ w.belongsTo hops v = true := mem_lines hlines hw
  have hspelled (m : Bool)
      (hin : w.belongsTo hops v = true → m = true ∧ w.token.lexeme = v.lexeme)
      (hout : m = true → w.token.lexeme = v.lexeme → w.belongsTo hops v = true) :
      Token.Renamed c m ((spelling ts [] c.new).token w.token)
        ((spelling ts numbers c.new).token w.token) := by
    refine spelling_renamed (hfresh w hw) (fun h => ?_) fun h hm heq => ?_
    · obtain ⟨hm, hlexeme⟩ := hin (hmem.1 h)
      exact ⟨hm, hlexeme.trans hold.symm, hrespelled w hw (hmem.1 h)⟩
    · exact h (hmem.2 (hout hm (heq.trans hold)))
  unfold Word.Fits
  simp only
  cases huse : w.use with
  | «variable» =>
    have hbelongs : w.belongsTo hops v = v.same w.token := by
      unfold Word.belongsTo
      rw [huse]
    simp only [headD_marks]
    refine hspelled _ (fun h => ?_) fun hm heq => ?_
    · rw [hbelongs] at h
      exact ⟨declaration_marked hlines hdistinct hv hw h, (Token.same_iff.1 h).2⟩
    · rw [hbelongs]
      exact (declared_other (hdistinct w hw) (.inl huse) hm heq).2
  | named =>
    have hbelongs : w.belongsTo hops v = false := by
      unfold Word.belongsTo
      rw [huse]
    have hnot (h : w.belongsTo hops v = true) : False := by
      rw [hbelongs] at h
      cases h
    simp only [headD_marks]
    refine ⟨hspelled _ (fun h => (hnot h).elim) fun hm heq => ?_,
      hspelled false (fun h => (hnot h).elim) nofun⟩
    have hvariable := (declared_other (hdistinct w hw) (.inr huse) hm heq).1
    rw [huse] at hvariable
    cases hvariable
  | refers id =>
    have hid : w.id? = some id := by
      unfold Word.id?
      rw [huse]
    have hbelongs : w.belongsTo hops v = (w.token.lexeme == v.lexeme &&
        (((hops id).bind (w.scopes[·]?)).getD []).any v.same) := by
      unfold Word.belongsTo
      rw [huse]
    simp only [mark_scopes]
    rw [show c.matching.hops id = hops id from hhops w hw id hid]
    refine hspelled _ (fun h => ?_) fun hm heq => ?_
    · rw [hbelongs, Bool.and_eq_true, beq_iff_eq] at h
      exact ⟨h.2, h.1⟩
    · rw [hbelongs, Bool.and_eq_true, beq_iff_eq]
      exact ⟨heq, hm⟩
  | other =>
    have hbelongs : w.belongsTo hops v = false := by
      unfold Word.belongsTo
      rw [huse]
    refine hspelled false (fun h => ?_) nofun
    rw [hbelongs] at h
    cases h

end Belonging

/-- The word stands in the text at the place that its token has. What declares a variable is a name. -/
structure Word.Placed (ts : List Token) (w : Word) (t : Token) : Prop where
  place : ts[w.token.line]? = some t
  token : w.token = { t with line := w.token.line }
  name : w.use = .variable → t.kind = .identifier

namespace Word.Placed

variable {ts : List Token} {w : Word} {t : Token} (h : w.Placed ts t)
include h

theorem mem : t ∈ ts := List.mem_of_getElem? h.place

theorem lexeme : w.token.lexeme = t.lexeme := by rw [h.token]

/-- In front of other tokens as well. -/
theorem spelling (us : List Token) (name : String) :
    (spelling (ts ++ us) [] name).token w.token = t := by
  have hplace : (ts ++ us)[w.token.line]? = some t := by
    rw [List.getElem?_append_left (List.getElem?_eq_some_iff.1 h.place).1, h.place]
  have htoken : (Lox.spelling (ts ++ us) [] name).token w.token = ⟨w.token.kind,
      ((Lox.spelling (ts ++ us) [] name).token w.token).lexeme, w.token.literal,
      ((ts ++ us)[w.token.line]?.map Token.line).getD 0⟩ := rfl
  rw [htoken, spelling_lexeme, hplace, h.token]
  rfl

end Word.Placed

theorem Whole.drawn {ts : List Token} : ∀ {p : Program}, Whole ts p → Drawn ts p.words
  | .statements _, h => Phrase.Declarations.drawn h
  | .expression _, h => Phrase.Series.drawn h

section Placed

variable {source : String} {mode : Mode} {first : NodeId}

/-- Reading does not look at places. -/
theorem parse_places (source : String) (mode : Mode) (first : NodeId) (numbers : List Nat)
    (name : String) :
    let tokens := tokensOf (scan source)
    let read := parse (placeTokens tokens) (mode == .line) first
    let read' := parse (respellTokens numbers name 0 tokens) (mode == .line) first
    read'.program = read.program.relabel (spelling tokens numbers name).token id ∧
      read'.nextId = read.nextId ∧ (read'.diagnostics = [] ↔ read.diagnostics = []) := by
  intro tokens read read'
  have hread := parse_respelled (spelling tokens numbers name) (placeTokens tokens)
    (mode == .line) first
  rw [spelling_placeTokens] at hread
  obtain ⟨hprogram, hnext, hlength⟩ := hread
  refine ⟨hprogram, hnext, ?_⟩
  rw [← List.length_eq_zero_iff, ← List.length_eq_zero_iff]
  exact iff_of_eq (congrArg (· = 0) hlength)

/-- With its own tokens the tree is the program of the source. -/
theorem compile_placed (source : String) (mode : Mode) (first : NodeId) (name : String) :
    (compile source mode first).program =
      (placed source mode first).relabel (spelling (tokensOf (scan source)) [] name).token id := by
  have hprogram := (parse_places source mode first [] name).1
  rw [respellTokens_nil] at hprogram
  exact hprogram

/-- The occurrences of the tree have numbers from the first one on. -/
theorem placed_ids {w : Word} (hw : w ∈ (placed source mode first).words) {id : NodeId}
    (hid : w.id? = some id) : first ≤ id := by
  have hmem := (Program.words_ids (placed source mode first)).subset
    (List.mem_filterMap.2 ⟨w, hw, hid⟩)
  exact ((parse_numbers _ _ first).2.range hmem).1

variable (hc : (compile source mode first).diagnostics = [])
include hc

/-- The words of the tree are words of the source, each at another place. -/
theorem placed_whole : ∃ ts, ts <+: placeTokens (wordsOf source) ∧
    Whole ts (placed source mode first) := by
  have hplaced := (parse_places source mode first [] "").2.2
  rw [respellTokens_nil] at hplaced
  have hfree : EndFree (placeTokens (wordsOf source)) := by
    intro t ht
    obtain ⟨t', hmem, heq⟩ := mem_placeTokens ht
    rw [heq]
    exact wordsOf_endFree source t' (List.mem_of_getElem? hmem)
  have htokens : placeTokens (tokensOf (scan source)) =
      placeTokens (wordsOf source) ++ [{ endMark source with line := (wordsOf source).length }] := by
    rw [tokensOf_scan]
    exact placeTokens_append _ _
  have hwhole := parse_whole (hplaced.1 (compile_clean.1 hc).2.1)
  rw [htokens, rest_ofTokens hfree rfl, ← htokens] at hwhole
  exact hwhole

theorem placed_drawn : ((placed source mode first).words.map Word.token).Subperm
    (placeTokens (wordsOf source)) ∧
      ∀ w ∈ (placed source mode first).words, w.use = .variable → w.token.kind = .identifier :=
  let ⟨_, hpre, hwhole⟩ := placed_whole hc
  ⟨hwhole.drawn.tokens.trans hpre.sublist.subperm, hwhole.drawn.names⟩

/-- The words stand at different places of the source. -/
theorem placed_lines : ((placed source mode first).words.map fun w => w.token.line).Nodup := by
  obtain ⟨us, hperm, hsub⟩ := (placed_drawn hc).1
  have hlines := hsub.map Token.line
  rw [placeTokens_lines] at hlines
  have hnodup := (hperm.map Token.line).nodup_iff.1 (hlines.nodup List.nodup_range)
  rwa [List.map_map] at hnodup

theorem placed_word {w : Word} (hw : w ∈ (placed source mode first).words) :
    ∃ t, w.Placed (wordsOf source) t := by
  obtain ⟨hsub, hnames⟩ := placed_drawn hc
  obtain ⟨t, ht, heq⟩ := mem_placeTokens (hsub.subset (List.mem_map_of_mem hw))
  refine ⟨t, ht, heq, fun huse => ?_⟩
  have hkind := hnames w hw huse
  rwa [heq] at hkind

theorem placed_proper : (placed source mode first).Proper := by
  obtain ⟨ts, hpre, hwhole⟩ := placed_whole hc
  refine hwhole.proper fun t ht => ?_
  obtain ⟨t', hmem, heq⟩ := mem_placeTokens (hpre.subset ht)
  have hspelled := scan_spelled source t' (by
    rw [tokensOf_scan]
    exact List.mem_append_left _ (List.mem_of_getElem? hmem))
  rw [heq]
  exact ⟨hspelled.name, hspelled.this, hspelled.super⟩

/-- Nothing is reported of the tree with places either, so that what a scope declares is distinct. -/
theorem placed_distinct (ρ : Renaming) (hfresh : ∀ t ∈ wordsOf source, t.lexeme ≠ ρ.new) :
    ∀ w ∈ (placed source mode first).words, w.Distinct := by
  have hresolved := compile_resolved hc
  let hops : NodeId → Option Nat := fun id => (compile source mode first).hops[id]?
  have hspelled : ∀ w ∈ (placed source mode first).words, (ρ.lexical hops).token false
      ((spelling (tokensOf (scan source)) [] ρ.new).token w.token) w.token := by
    intro w hw
    obtain ⟨t, ht⟩ := placed_word hc hw
    have hlexeme := spelling_lexeme (tokensOf (scan source)) ρ.new w.token
    refine ⟨hlexeme.symm, ?_⟩
    rw [hlexeme, ht.lexeme]
    exact hfresh t ht.mem
  have hmatched : (compile source mode first).program.Matched (ρ.lexical hops)
      (placed source mode first) := by
    have hmatched := Program.matched_relabel (M := ρ.lexical hops) (g := id)
      (f := (spelling (tokensOf (scan source)) [] ρ.new).token) (p := placed source mode first)
      fun w hw => Word.fits_unmarked (hspelled w hw)
    rwa [← compile_placed, Program.relabel_id] at hmatched
  have hlog := (resolve_renamed hmatched hresolved.proper (fun o ho => (hresolved.found o ho).hops)
    (compile_clean.1 hc).2.2).1
  exact resolve_distinct (placed_proper hc) hlog

end Placed

section Renamed

variable {source : String} {mode : Mode} {first : NodeId} {v : Token}

theorem belongsTo_lexeme {hops : NodeId → Option Nat} {w : Word} (h : w.belongsTo hops v = true) :
    w.token.lexeme = v.lexeme := by
  unfold Word.belongsTo at h
  cases huse : w.use with
  | «variable» =>
    rw [huse] at h
    exact (Token.same_iff.1 h).2
  | refers id =>
    rw [huse] at h
    simp only [Bool.and_eq_true, beq_iff_eq] at h
    exact h.1
  | _ =>
    rw [huse] at h
    cases h

variable (hc : (compile source mode first).diagnostics = [])
include hc

/-- At the places of a variable stand names that are spelled like it. -/
theorem placesOf_names {i : Nat} (hi : i ∈ placesOf v source mode first) :
    ∃ t, (wordsOf source)[i]? = some t ∧ t.lexeme = v.lexeme := by
  obtain ⟨w, hmem, rfl⟩ := List.mem_map.1 hi
  obtain ⟨hw, hbelongs⟩ := List.mem_filter.1 hmem
  obtain ⟨t, ht⟩ := placed_word hc hw
  exact ⟨t, ht.place, ht.lexeme.symm.trans (belongsTo_lexeme hbelongs)⟩

/-- A local variable has a name that is no keyword. -/
theorem localVariables_names (hv : v ∈ localVariables source mode first) :
    ∃ t ∈ wordsOf source, t.kind = .identifier ∧ t.lexeme = v.lexeme := by
  obtain ⟨w, hmem, rfl⟩ := List.mem_map.1 hv
  obtain ⟨hw, hlocal⟩ := List.mem_filter.1 hmem
  obtain ⟨t, ht⟩ := placed_word hc hw
  exact ⟨t, ht.mem, ht.name (isLocal_iff.1 hlocal).1, ht.lexeme.symm⟩

/-- The declaration of a variable is at one of its places. -/
theorem localVariables_places (hv : v ∈ localVariables source mode first) :
    v.line ∈ placesOf v source mode first := by
  obtain ⟨w, hmem, rfl⟩ := List.mem_map.1 hv
  obtain ⟨hw, hlocal⟩ := List.mem_filter.1 hmem
  refine (mem_lines (placed_lines hc) hw).2 ?_
  unfold Word.belongsTo
  rw [(isLocal_iff.1 hlocal).1]
  exact Token.same_iff.2 ⟨rfl, rfl⟩

/-- The source with another name for the variable has the tokens of the source, with that name at the
places of the variable. -/
theorem scan_renameVariable (hv : v ∈ localVariables source mode first) {name : String}
    (hword : IsWord name.toList) (hkeyword : ∀ kind, (name, kind) ∉ keywords) :
    let renamed := scan (renameVariable v name source mode first)
    tokensOf renamed =
        respellTokens (placesOf v source mode first) name 0 (tokensOf (scan source)) ∧
      faultsOf renamed = faultsOf (scan source) := by
  obtain ⟨t, ht, hkind, hlexeme⟩ := localVariables_names hc hv
  have hspelled := (name_iff ht).1 hkind
  rw [hlexeme] at hspelled
  have hnames : ∀ j t, (wordsOf source)[j]? = some t → j ∈ placesOf v source mode first →
      t.kind = .identifier := by
    intro j t' ht' hj
    obtain ⟨t, ht, hlexeme⟩ := placesOf_names hc hj
    obtain rfl : t' = t := Option.some.inj (ht'.symm.trans ht)
    refine (name_iff (List.mem_of_getElem? ht)).2 ?_
    rw [hlexeme]
    exact hspelled
  obtain ⟨htokens, hfaults⟩ := scan_respell hword hkeyword hnames
  refine ⟨htokens.trans ?_, hfaults⟩
  rw [tokensOf_scan, respellTokens_append]
  intro hlength
  obtain ⟨t, ht, _⟩ := placesOf_names hc hlength
  rw [List.getElem?_eq_none (Nat.le_refl _)] at ht
  cases ht

/-- With a new name for a local variable an accepted source is accepted. Its program matches the old
one, and its occurrences lead to the same scopes. -/
theorem compile_renamed {c : Change} (hv : v ∈ localVariables source mode first)
    (hold : c.old = v.lexeme) (hword : IsWord c.new.toList)
    (hkeyword : ∀ kind, (c.new, kind) ∉ keywords) (hfresh : ∀ t ∈ wordsOf source, t.lexeme ≠ c.new)
    (hhops : ∀ id, first ≤ id → c.hops id = (compile source mode first).hops[id]?)
    (hrespelled : ∀ i ∈ placesOf v source mode first, ∀ t, (wordsOf source)[i]? = some t →
      c.respelled t) :
    let before := compile source mode first
    let after := compile (renameVariable v c.new source mode first) mode first
    after.diagnostics = [] ∧ after.nextId = before.nextId ∧
      (∀ id : NodeId, after.hops[id]? = before.hops[id]?) ∧
      before.program.Matched c.matching after.program := by
  intro before after
  have hresolved := compile_resolved hc
  obtain ⟨hfaults, hread, hlog⟩ := compile_clean.1 hc
  obtain ⟨htokens, hfaults'⟩ := scan_renameVariable hc hv hword hkeyword
  obtain ⟨hprogram, hnext, hclean⟩ :=
    parse_places source mode first (placesOf v source mode first) c.new
  obtain ⟨_, hnext₀, hclean₀⟩ := parse_places source mode first [] c.new
  rw [← htokens] at hprogram hnext hclean
  rw [respellTokens_nil] at hnext₀ hclean₀
  have hprogram : after.program = (placed source mode first).relabel
      (spelling (tokensOf (scan source)) (placesOf v source mode first) c.new).token id := hprogram
  have hnew : ∀ w ∈ (placed source mode first).words, w.token.lexeme ≠ c.new := by
    intro w hw
    obtain ⟨t, ht⟩ := placed_word hc hw
    rw [ht.lexeme]
    exact hfresh t ht.mem
  have hfits : ∀ w ∈ (placed source mode first).words, w.Fits c.matching v.same
      (spelling (tokensOf (scan source)) [] c.new).token
      (spelling (tokensOf (scan source)) (placesOf v source mode first) c.new).token := by
    intro w hw
    refine fits_renamed (placed_lines hc) (placed_distinct hc c.toRenaming hfresh) hv hold hnew
      (fun w hw id hid => hhops id (placed_ids hw hid)) (fun w hw hbelongs => ?_) hw
    obtain ⟨t, ht⟩ := placed_word hc hw
    rw [tokensOf_scan, ht.spelling]
    exact hrespelled _ (List.mem_map.2 ⟨w, List.mem_filter.2 ⟨hw, hbelongs⟩, rfl⟩) t ht.place
  have hmatched : before.program.Matched c.matching after.program := by
    have hmatched := Program.matched_relabel hfits
    rwa [← compile_placed, ← hprogram] at hmatched
  have hlexical : before.program.Matched (c.toRenaming.lexical c.hops) after.program := by
    have hmatched := Program.matched_relabel (M := c.toRenaming.lexical c.hops) fun w hw =>
      (hfits w hw).imp rfl fun m h => ⟨h.lexeme, (spelling_lexeme _ _ _).trans_ne (hnew w hw)⟩
    rwa [← compile_placed, ← hprogram] at hmatched
  have hleads : ∀ o ∈ before.program.occurrences, o.Leads c.hops := fun o ho =>
    (hhops o.id (hresolved.own o ho).1).trans (hresolved.found o ho).hops
  obtain ⟨hlog', hhops'⟩ := resolve_renamed hlexical hresolved.proper hleads hlog
  exact ⟨compile_clean.2 ⟨hfaults'.trans hfaults, hclean.2 (hclean₀.1 hread), hlog'⟩,
    hnext.trans hnext₀.symm, hhops', hmatched⟩

end Renamed

theorem Session.Reachable.sound {s : Session} (h : s.Reachable) :
    ∃ visited known, s.Sound visited known := by
  induction h with
  | start time => exact ⟨_, _, Session.start_sound time⟩
  | run _ fuel mode source ih =>
    obtain ⟨_, _, hs⟩ := ih
    exact ⟨_, _, (hs.run fuel mode source).1⟩

/-- A parameter that is assigned and read around a variable of the same name. -/
def shadowing : String := "fun f(a){a=!a;{var a=nil;print a;}return a;}print f(nil);"

/-- The parameter is the fourth word. -/
def shadowed : Token := ⟨.identifier, "a", none, 3⟩

end Lox
