import Mathlib
import Lox.Proofs.Syntax.EndFree
import Lox.Proofs.Syntax.Embedding
import Lox.Token.Scan

/-!
Scanning of two texts with a line end between them. No span reaches over the line end, unless it is
one that the first text does not close.
-/

namespace Lox

open Phrase

section Joint

variable {p : Char → Bool} (hp : p '\n' = false) (cs b : List Char)
include hp

theorem takeWhile_joint : (cs ++ '\n' :: b).takeWhile p = cs.takeWhile p := by
  induction cs with
  | nil => simp [hp]
  | cons c cs ih => simp only [List.cons_append, List.takeWhile_cons, ih]

theorem dropWhile_joint : (cs ++ '\n' :: b).dropWhile p = cs.dropWhile p ++ '\n' :: b := by
  induction cs with
  | nil => simp [hp]
  | cons c cs ih =>
    simp only [List.cons_append, List.dropWhile_cons, ih]
    by_cases hc : p c = true
    · simp only [hc, if_true]
    · simp only [hc, Bool.false_eq_true, if_false, List.cons_append]

end Joint

theorem takeWhile_append_of_stop {p : Char → Bool} {cs : List Char} (h : cs.dropWhile p ≠ [])
    (rest : List Char) : (cs ++ rest).takeWhile p = cs.takeWhile p := by
  induction cs with
  | nil => exact absurd rfl h
  | cons c cs ih =>
    rw [List.cons_append, List.takeWhile_cons, List.takeWhile_cons]
    by_cases hc : p c = true
    · rw [List.dropWhile_cons, if_pos hc] at h
      rw [if_pos hc, if_pos hc, ih h]
    · rw [if_neg hc, if_neg hc]

namespace Span

/-- The span is closed before the text ends. -/
def Closed (s : Span) : Prop :=
  s.cls ≠ .fault .unterminatedString ∧ s.cls ≠ .fault .unterminatedComment

theorem cutNumeral_joint (c : Char) (cs b : List Char) :
    cutNumeral c (cs ++ '\n' :: b) = ((cutNumeral c cs).1, (cutNumeral c cs).2 ++ '\n' :: b) := by
  have hdigit : Char.isDigit '\n' = false := by decide
  unfold cutNumeral
  rw [takeWhile_joint hdigit, dropWhile_joint hdigit]
  generalize cs.dropWhile Char.isDigit = rest
  rcases rest with _ | ⟨point, _ | ⟨d, rest⟩⟩
  · rfl
  · by_cases hpoint : point = '.'
    · subst hpoint
      simp [hdigit]
    · simp [hpoint]
  · by_cases hpoint : point = '.'
    · subst hpoint
      by_cases hd : d.isDigit = true
      · simp [hd, takeWhile_joint hdigit, dropWhile_joint hdigit]
      · simp [hd]
    · simp [hpoint]

theorem cutString_joint (cs b : List Char) (h : (cutString cs).1.Closed) :
    cutString (cs ++ '\n' :: b) = ((cutString cs).1, (cutString cs).2 ++ '\n' :: b) := by
  have hopen : cs.dropWhile (· != '"') ≠ [] := by
    intro hd
    unfold cutString at h
    rw [hd] at h
    exact h.1 rfl
  obtain ⟨q, rest, hrest⟩ := List.exists_cons_of_ne_nil hopen
  have htake : (cs ++ '\n' :: b).takeWhile (· != '"') = cs.takeWhile (· != '"') :=
    takeWhile_append_of_stop hopen _
  have hdrop : (cs ++ '\n' :: b).dropWhile (· != '"') = q :: (rest ++ '\n' :: b) := by
    rw [List.dropWhile_append, hrest]
    rfl
  unfold cutString
  rw [htake, hdrop, hrest]

theorem closeComment?_joint {cs inside rest : List Char} (h : closeComment? cs = some (inside, rest))
    (b : List Char) : closeComment? (cs ++ b) = some (inside, rest ++ b) := by
  induction cs generalizing inside rest with
  | nil => cases h
  | cons c cs ih =>
    by_cases hclose : c = '*' ∧ ∃ tail, cs = '/' :: tail
    · obtain ⟨rfl, tail, rfl⟩ := hclose
      obtain ⟨rfl, rfl⟩ := Prod.mk.inj (Option.some.inj h)
      rfl
    · have hstep (ds : List Char) (hds : c = '*' → ∀ tail, ds ≠ '/' :: tail) :
          closeComment? (c :: ds) = (closeComment? ds).map fun r => (c :: r.1, r.2) := by
        rw [closeComment?]
        exact fun tail hc hds' => hds hc tail hds'
      rw [hstep cs fun hc tail hcs => hclose ⟨hc, tail, hcs⟩] at h
      obtain ⟨⟨i, r⟩, hi, heq⟩ := Option.map_eq_some_iff.1 h
      obtain ⟨rfl, rfl⟩ := Prod.mk.inj heq
      have hcs : cs ≠ [] := by
        rintro rfl
        cases hi
      have happend : c = '*' → ∀ tail, cs ++ b ≠ '/' :: tail := by
        intro hc tail heq
        obtain ⟨d, ds, rfl⟩ := List.exists_cons_of_ne_nil hcs
        obtain ⟨rfl, _⟩ := List.cons.inj heq
        exact hclose ⟨hc, ds, rfl⟩
      rw [List.cons_append, hstep _ happend, ih hi]
      rfl

theorem cutSlash_joint (cs b : List Char) (h : (cutSlash cs).1.Closed) :
    cutSlash (cs ++ '\n' :: b) = ((cutSlash cs).1, (cutSlash cs).2 ++ '\n' :: b) := by
  have htake (cs : List Char) := @takeWhile_joint (· != '\n') rfl cs b
  have hdrop (cs : List Char) := @dropWhile_joint (· != '\n') rfl cs b
  rcases cs with _ | ⟨c, cs⟩
  · rfl
  by_cases hline : c = '/'
  · subst hline
    simp only [cutSlash, List.cons_append, htake, hdrop]
  by_cases hblock : c = '*'
  · subst hblock
    cases hclose : closeComment? cs with
    | none =>
      simp only [cutSlash, hclose] at h
      exact absurd rfl h.2
    | some found =>
      obtain ⟨inside, rest⟩ := found
      have hjoint := closeComment?_joint hclose ('\n' :: b)
      simp only [cutSlash, List.cons_append, hjoint, hclose]
  · simp [cutSlash, hline, hblock]

/-- A span that is closed ends before the line end behind the text. -/
theorem cut_joint (c : Char) (cs b : List Char) (h : (cut c cs).1.Closed) :
    cut c (cs ++ '\n' :: b) = ((cut c cs).1, (cut c cs).2 ++ '\n' :: b) := by
  have hword : isWordPart '\n' = false := by decide
  unfold cut at h ⊢
  cases hpunctuation : punctuation? c with
  | some kind => rfl
  | none =>
    cases hcomparison : comparison? c with
    | some kinds =>
      obtain ⟨alone, joined⟩ := kinds
      rcases cs with _ | ⟨d, cs⟩
      · rfl
      · by_cases hd : d = '='
        · subst hd
          rfl
        · simp [hd]
    | none =>
      simp only [hpunctuation, hcomparison] at h ⊢
      by_cases hblank : isBlank c = true
      · simp only [if_pos hblank]
      simp only [if_neg hblank] at h ⊢
      by_cases hslash : (c == '/') = true
      · simp only [if_pos hslash] at h ⊢
        exact cutSlash_joint cs b h
      simp only [if_neg hslash] at h ⊢
      by_cases hquote : (c == '"') = true
      · simp only [if_pos hquote] at h ⊢
        exact cutString_joint cs b h
      simp only [if_neg hquote] at h ⊢
      by_cases hdigit : c.isDigit = true
      · simp only [if_pos hdigit]
        exact cutNumeral_joint c cs b
      simp only [if_neg hdigit]
      by_cases hstart : isWordStart c = true
      · simp only [if_pos hstart, takeWhile_joint hword, dropWhile_joint hword]
      · simp only [if_neg hstart]

end Span

/-- Scanning goes on behind the line end as if nothing had come before. -/
theorem spans_joint (cs b : List Char) (h : ∀ s ∈ spans cs, s.Closed) :
    spans (cs ++ '\n' :: b) = spans cs ++ ⟨.blank, ['\n']⟩ :: spans b := by
  induction cs using spans.induct with
  | case1 =>
    rw [List.nil_append, spans, spans, List.nil_append]
    rfl
  | case2 c cs ih =>
    rw [spans] at h
    obtain ⟨hfirst, hrest⟩ := List.forall_mem_cons.1 h
    rw [List.cons_append, spans, Span.cut_joint c cs b hfirst, ih hrest, spans]
    rfl

/-- The item some lines further down. -/
def ScanItem.down (k : Nat) : ScanItem → ScanItem
  | .token t => .token (t.down k)
  | .fault f line => .fault f (line + k)

/-- The items of the spans without the end mark. -/
def spanItems (line : Nat) : List Span → List ScanItem
  | [] => []
  | s :: rest =>
    let ending := line + s.lineBreaks
    (s.item? ending).toList ++ spanItems ending rest

section Items

variable (line k : Nat) (ss : List Span)

theorem item?_down (s : Span) : s.item? (line + k) = (s.item? line).map (ScanItem.down k) := by
  unfold Span.item?
  cases s.cls <;> rfl

theorem itemsFrom_down : itemsFrom (line + k) ss = (itemsFrom line ss).map (ScanItem.down k) := by
  induction ss generalizing line with
  | nil => rfl
  | cons s rest ih =>
    have hending : line + k + s.lineBreaks = line + s.lineBreaks + k := by omega
    have hitem := item?_down (line + s.lineBreaks) k s
    simp only [itemsFrom, List.map_append, hending, hitem, ih]
    generalize s.item? (line + s.lineBreaks) = item?
    cases item? <;> rfl

theorem itemsFrom_append (ss' : List Span) : itemsFrom line (ss ++ ss') =
    spanItems line ss ++ itemsFrom (line + (ss.flatMap Span.text).count '\n') ss' := by
  induction ss generalizing line with
  | nil => rfl
  | cons s rest ih =>
    have hending : line + ((s :: rest).flatMap Span.text).count '\n' =
        line + s.lineBreaks + (rest.flatMap Span.text).count '\n' := by
      rw [List.flatMap_cons, List.count_append, Nat.add_assoc]
      rfl
    rw [hending]
    simp only [List.cons_append, itemsFrom, spanItems, ih, List.append_assoc]

theorem tokensOf_down (items : List ScanItem) :
    tokensOf (items.map (ScanItem.down k)) = (tokensOf items).map (Token.down k) := by
  unfold tokensOf
  rw [List.filterMap_map, List.map_filterMap]
  congr 1
  funext item
  cases item <;> rfl

theorem faultsOf_down (items : List ScanItem) :
    faultsOf (items.map (ScanItem.down k)) = (faultsOf items).map (Diagnostic.down k) := by
  unfold faultsOf
  rw [List.filterMap_map, List.map_filterMap]
  congr 1
  funext item
  cases item <;> rfl

/-- A text whose items are no open string and no open comment leaves no span open. -/
theorem closed_of_items (h : ∀ line', .fault .unterminatedString line' ∉ spanItems line ss ∧
    .fault .unterminatedComment line' ∉ spanItems line ss) : ∀ s ∈ ss, s.Closed := by
  induction ss generalizing line with
  | nil => exact fun _ hs => absurd hs List.not_mem_nil
  | cons s rest ih =>
    have hfirst (f : LexicalFault) (hcls : s.cls = .fault f) :
        .fault f (line + s.lineBreaks) ∈ spanItems line (s :: rest) := by
      simp [spanItems, Span.item?, hcls]
    have hclosed : s.Closed :=
      ⟨fun hcls => (h _).1 (hfirst _ hcls), fun hcls => (h _).2 (hfirst _ hcls)⟩
    refine List.forall_mem_cons.2 ⟨hclosed, ih (line + s.lineBreaks) fun line' => ?_⟩
    exact ⟨fun hmem => (h line').1 (List.mem_append_right _ hmem),
      fun hmem => (h line').2 (List.mem_append_right _ hmem)⟩

/-- So does a text without lexical faults. -/
theorem closed_of_faultless (h : faultsOf (spanItems line ss) = []) : ∀ s ∈ ss, s.Closed := by
  have hnone (f : LexicalFault) (line' : Nat) : .fault f line' ∉ spanItems line ss := by
    intro hmem
    have hfault : Diagnostic.lexical line' f ∈ faultsOf (spanItems line ss) :=
      List.mem_filterMap.2 ⟨_, hmem, rfl⟩
    rw [h] at hfault
    exact List.not_mem_nil hfault
  exact closed_of_items line ss fun line' => ⟨hnone _ line', hnone _ line'⟩

end Items

theorem text_spans (cs : List Char) : (spans cs).flatMap Span.text = cs := by
  induction cs using spans.induct with
  | case1 =>
    rw [spans]
    rfl
  | case2 c cs ih => rw [spans, List.flatMap_cons, ih, Span.cut_append c cs]

/-- The words of a source, without the end mark. -/
def wordsOf (source : String) : List Token := tokensOf (spanItems 1 (spans source.toList))

def endMark (source : String) : Token := .synthetic .eof "" (1 + source.toList.count '\n')

/-- The end mark comes after the items of the text. -/
theorem scan_eq (source : String) :
    scan source = spanItems 1 (spans source.toList) ++ [.token (endMark source)] := by
  have hitems := itemsFrom_append 1 (spans source.toList) []
  rw [List.append_nil, text_spans] at hitems
  exact hitems

theorem tokensOf_scan (source : String) :
    tokensOf (scan source) = wordsOf source ++ [endMark source] := by
  rw [scan_eq]
  exact List.filterMap_append

/-- The line an item is reported on. -/
def ScanItem.line : ScanItem → Nat
  | .token t => t.line
  | .fault _ line => line

theorem item?_line {s : Span} {line : Nat} {item : ScanItem} (h : s.item? line = some item) :
    item.line = line := by
  unfold Span.item? at h
  cases hcls : s.cls <;> simp only [hcls] at h <;> cases h <;> rfl

/-- Items stand on the lines of a text from the first one on, and never on an earlier line than the
item before. -/
theorem itemsFrom_lines (line : Nat) (ss : List Span) :
    (∀ item ∈ itemsFrom line ss, line ≤ item.line) ∧
      (itemsFrom line ss).Pairwise fun a b => a.line ≤ b.line := by
  induction ss generalizing line with
  | nil =>
    refine ⟨fun item hitem => ?_, List.pairwise_singleton _ _⟩
    obtain rfl := List.mem_singleton.1 hitem
    exact Nat.le_refl line
  | cons s rest ih =>
    obtain ⟨hlater, hpairwise⟩ := ih (line + s.lineBreaks)
    have hfirst : ∀ item ∈ (s.item? (line + s.lineBreaks)).toList, item.line = line + s.lineBreaks :=
      fun item hitem => item?_line (Option.mem_toList.1 hitem)
    refine ⟨fun item hitem => ?_, List.pairwise_append.2 ⟨?_, hpairwise, fun a ha b hb => ?_⟩⟩
    · rcases List.mem_append.1 hitem with hitem | hitem
      · rw [hfirst item hitem]
        exact Nat.le_add_right _ _
      · exact Nat.le_trans (Nat.le_add_right _ _) (hlater item hitem)
    · refine List.pairwise_of_forall_mem_list fun a ha b hb => ?_
      exact Nat.le_of_eq ((hfirst a ha).trans (hfirst b hb).symm)
    · rw [hfirst a ha]
      exact hlater b hb

theorem scan_lines (source : String) : (∀ t ∈ tokensOf (scan source), 1 ≤ t.line) ∧
    (tokensOf (scan source)).Pairwise fun a b => a.line ≤ b.line := by
  obtain ⟨hlater, hpairwise⟩ := itemsFrom_lines 1 (spans source.toList)
  have htoken {item : ScanItem} {t : Token} (h : t ∈ item.token?) : item.line = t.line := by
    cases item with
    | token => exact congrArg Token.line (Option.some.inj h)
    | fault => cases h
  refine ⟨fun t ht => ?_, List.pairwise_filterMap.2 (hpairwise.imp fun {a b} hle t ht t' ht' => ?_)⟩
  · obtain ⟨item, hitem, ht⟩ := List.mem_filterMap.1 ht
    exact htoken ht ▸ hlater item hitem
  · rwa [htoken ht, htoken ht'] at hle

theorem faultsOf_scan (source : String) :
    faultsOf (scan source) = faultsOf (spanItems 1 (spans source.toList)) := by
  rw [scan_eq]
  exact List.filterMap_append.trans (List.append_nil _)

namespace Span

/-- No span is an end mark. -/
def Worded (s : Span) : Prop := ∀ kind literal, s.cls = .token kind literal → kind ≠ .eof

theorem worded_token {kind : TokenKind} (literal : Option Literal) (text : List Char)
    (h : kind ≠ .eof) : Worded ⟨.token kind literal, text⟩ := by
  intro kind' literal' hcls
  obtain ⟨rfl, _⟩ := SpanClass.token.inj hcls
  exact h

theorem word_worded (text : List Char) : (word text).Worded := by
  have hkeywords : ∀ p ∈ keywords, p.2 ≠ .eof := by decide
  unfold word
  cases hl : keywords.lookup (String.ofList text) with
  | none => exact worded_token none text (by decide)
  | some kind =>
    obtain ⟨l₁, l₂, hsplit, _⟩ := List.lookup_eq_some_iff.1 hl
    have hkind : kind ≠ .eof := hkeywords (String.ofList text, kind) (by simp [hsplit])
    split
    · exact worded_token _ text (by decide)
    · exact worded_token _ text (by decide)
    · next heq =>
      cases heq
      exact worded_token none text hkind
    · exact worded_token none text (by decide)

theorem cut_worded (c : Char) (cs : List Char) : (cut c cs).1.Worded := by
  have hother {cls : SpanClass} {text : List Char} (h : ∀ kind literal, cls ≠ .token kind literal) :
      Worded ⟨cls, text⟩ := fun kind literal hcls => absurd hcls (h kind literal)
  unfold cut
  split
  next kind hkind =>
    refine worded_token none [c] ?_
    unfold punctuation? at hkind
    split at hkind <;> cases hkind <;> decide
  split
  next alone joined hkinds =>
    have hkind : alone ≠ .eof ∧ joined ≠ .eof := by
      unfold comparison? at hkinds
      split at hkinds <;> cases hkinds <;> decide
    split
    · exact worded_token none _ hkind.2
    · exact worded_token none _ hkind.1
  split
  · exact hother (by simp)
  split
  · unfold cutSlash
    split
    · exact hother (by simp)
    · split <;> exact hother (by simp)
    · exact worded_token none _ (by decide)
  split
  · unfold cutString
    split
    · exact worded_token _ _ (by decide)
    · exact hother (by simp)
  split
  · unfold cutNumeral numeral
    split
    · split <;> exact worded_token _ _ (by decide)
    · exact worded_token _ _ (by decide)
  split
  · exact word_worded _
  · exact hother (by simp)

end Span

theorem spans_worded (cs : List Char) : ∀ s ∈ spans cs, s.Worded := by
  induction cs using spans.induct with
  | case1 =>
    rw [spans]
    exact fun _ hs => absurd hs List.not_mem_nil
  | case2 c cs ih =>
    rw [spans]
    exact List.forall_mem_cons.2 ⟨Span.cut_worded c cs, ih⟩

theorem wordsOf_endFree (source : String) : EndFree (wordsOf source) := by
  have hitems (ss : List Span) (h : ∀ s ∈ ss, s.Worded) (line : Nat) :
      EndFree (tokensOf (spanItems line ss)) := by
    induction ss generalizing line with
    | nil => exact fun _ ht => absurd ht List.not_mem_nil
    | cons s rest ih =>
      obtain ⟨hs, hrest⟩ := List.forall_mem_cons.1 h
      intro t ht
      unfold spanItems tokensOf at ht
      rw [List.filterMap_append, List.mem_append] at ht
      rcases ht with ht | ht
      · unfold Span.item? at ht
        cases hcls : s.cls with
        | token kind literal =>
          rw [hcls] at ht
          obtain rfl := List.mem_singleton.1 ht
          exact hs kind literal hcls
        | _ =>
          rw [hcls] at ht
          exact absurd ht (by simp [ScanItem.token?])
      · exact ih hrest _ t ht
  exact hitems _ (spans_worded _) 1

/-- How many lines further down a text stands that comes after a source and a line end. -/
def linesBefore (source : String) : Nat := source.toList.count '\n' + 1

/-- The line end behind a text that leaves no span open is a blank between the items of both. -/
theorem scan_joint {source : String} (h : ∀ s ∈ spans source.toList, s.Closed) (source' : String) :
    scan (source ++ "\n" ++ source') =
      spanItems 1 (spans source.toList) ++
        (scan source').map (ScanItem.down (linesBefore source)) := by
  have htext : (source ++ "\n" ++ source').toList =
      source.toList ++ '\n' :: source'.toList := by simp
  have hblank (line : Nat) (ss : List Span) :
      itemsFrom line (⟨.blank, ['\n']⟩ :: ss) = itemsFrom (line + 1) ss := rfl
  unfold scan linesBefore
  rw [htext, spans_joint _ _ h, itemsFrom_append, text_spans, hblank, Nat.add_assoc, itemsFrom_down]

section Joint

variable {source : String} (h : faultsOf (scan source) = []) (source' : String)
include h

theorem closed_of_clean : ∀ s ∈ spans source.toList, s.Closed :=
  closed_of_faultless 1 _ (faultsOf_scan source ▸ h)

theorem tokensOf_joint : tokensOf (scan (source ++ "\n" ++ source')) =
    wordsOf source ++ (tokensOf (scan source')).map (Token.down (linesBefore source)) := by
  rw [scan_joint (closed_of_clean h) source', tokensOf, List.filterMap_append]
  exact congrArg _ (tokensOf_down _ _)

theorem faultsOf_joint : faultsOf (scan (source ++ "\n" ++ source')) =
    (faultsOf (scan source')).map (Diagnostic.down (linesBefore source)) := by
  have hfaults : (spanItems 1 (spans source.toList)).filterMap ScanItem.diagnostic? = [] := by
    rw [faultsOf_scan] at h
    exact h
  rw [scan_joint (closed_of_clean h) source', faultsOf, List.filterMap_append, hfaults, List.nil_append]
  exact faultsOf_down _ _

end Joint

/-- Scanning is local. A text that leaves no string and no block comment open, whatever else is wrong
in it, has the same items before a line end and another text, whose items are those that it has by
itself, further down. -/
theorem scan_local {source : String}
    (h : ∀ line, .fault .unterminatedString line ∉ scan source ∧
      .fault .unterminatedComment line ∉ scan source) (source' : String) :
    ∃ items, scan source = items ++ [.token (endMark source)] ∧
      scan (source ++ "\n" ++ source') =
        items ++ (scan source').map (ScanItem.down (1 + source.toList.count '\n')) := by
  have hclosed : ∀ s ∈ spans source.toList, s.Closed := by
    refine closed_of_items 1 _ fun line => ?_
    rw [scan_eq] at h
    exact ⟨fun hmem => (h line).1 (List.mem_append_left _ hmem),
      fun hmem => (h line).2 (List.mem_append_left _ hmem)⟩
  have hlines : linesBefore source = 1 + source.toList.count '\n' := Nat.add_comm _ _
  refine ⟨spanItems 1 (spans source.toList), scan_eq source, ?_⟩
  rw [scan_joint hclosed, hlines]

/-- A fault, a line end within a comment, and a lone slash at the joint. -/
def unevenText : String := "@/*\n*/b/"

theorem scan_local_uneven :
    let words : List ScanItem := [.fault .unexpectedCharacter 1,
      .token (.synthetic .identifier "b" 2), .token (.synthetic .slash "/" 2)]
    scan unevenText = words ++ [.token (.synthetic .eof "" 2)] ∧
      scan (unevenText ++ "\n" ++ "/a") = words ++ [.token (.synthetic .slash "/" 3),
        .token (.synthetic .identifier "a" 3), .token (.synthetic .eof "" 3)] := by
  intro words
  have hwords : scan unevenText = words ++ [.token (.synthetic .eof "" 2)] := by cbv
  refine ⟨hwords, ?_⟩
  have hclosed : ∀ line, .fault .unterminatedString line ∉ scan unevenText ∧
      .fault .unterminatedComment line ∉ scan unevenText := by
    intro line
    rw [hwords]
    simp [words]
  obtain ⟨items, hitems, hjoined⟩ := scan_local hclosed "/a"
  have hsame : items = words := List.append_inj_left' (hitems.symm.trans hwords) rfl
  rw [hjoined, hsame]
  cbv

/-- Empty lines before a text only move it down. -/
def blankLines (k : Nat) : String := String.ofList (List.replicate k '\n')

theorem scan_blankLines (k : Nat) (source : String) :
    scan (blankLines k ++ source) = (scan source).map (ScanItem.down k) := by
  have hitems (cs : List Char) (line : Nat) : itemsFrom line (spans (List.replicate k '\n' ++ cs)) =
      itemsFrom (line + k) (spans cs) := by
    induction k generalizing line with
    | zero => rfl
    | succ k ih =>
      have hfirst : spans ('\n' :: (List.replicate k '\n' ++ cs)) =
          ⟨.blank, ['\n']⟩ :: spans (List.replicate k '\n' ++ cs) := by
        rw [spans]
        rfl
      have hblank (line : Nat) (ss : List Span) :
          itemsFrom line (⟨.blank, ['\n']⟩ :: ss) = itemsFrom (line + 1) ss := rfl
      rw [List.replicate_succ, List.cons_append, hfirst, hblank, ih, Nat.add_assoc, Nat.add_comm 1]
  have htext : (blankLines k ++ source).toList = List.replicate k '\n' ++ source.toList := by
    simp [blankLines]
  unfold scan
  rw [htext, hitems, itemsFrom_down]

end Lox
