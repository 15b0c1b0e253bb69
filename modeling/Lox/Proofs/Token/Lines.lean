import Lox.Proofs.Token.Scanning

/-!
The line of an item is counted while the text is passed, in several places. It is always the line on
which the characters of the item end.
-/

namespace Lox

/-- The line on which a text ends that begins on the first one. -/
def lineAfter (text : List Char) : Nat := 1 + text.count '\n'

/-- The bytes of the middle one of three pieces of a text. -/
def bytesWithin (before inside : List Char) : Nat × Nat :=
  ((utf8 before).length, (utf8 before).length + (utf8 inside).length)

/-- The item is one of the text, with its line, and stands at the bytes. An open string and an open
comment reach to the end, and so have the last line. The end mark has no bytes. -/
inductive StandsAt (text : List Char) : ScanItem → Option (Nat × Nat) → Prop
  | word {before after t} (h : text = before ++ t.lexeme.toList ++ after) (kind : t.kind ≠ .eof)
      (line : t.line = lineAfter (before ++ t.lexeme.toList)) :
      StandsAt text (.token t) (some (bytesWithin before t.lexeme.toList))
  | unexpected {before after c} (h : text = before ++ c :: after) :
      StandsAt text (.fault .unexpectedCharacter (lineAfter before)) (some (bytesWithin before [c]))
  | openString {before inside} (h : text = before ++ '"' :: inside) :
      StandsAt text (.fault .unterminatedString (lineAfter text))
        (some (bytesWithin before ('"' :: inside)))
  | openComment {before inside} (h : text = before ++ '/' :: '*' :: inside) :
      StandsAt text (.fault .unterminatedComment (lineAfter text))
        (some (bytesWithin before ('/' :: '*' :: inside)))
  | endMark : StandsAt text (.token (.synthetic .eof "" (lineAfter text))) none

theorem Tiles.lexeme {text : List Char} {done ss : List Span} {s : Span}
    (h : Tiles text (done ++ s :: ss)) : Lexeme s.text (ss.flatMap Span.text) s.cls := by
  induction done generalizing text with
  | nil =>
    cases h with
    | @cons _ rest _ hs tail =>
      have htext := text_spans rest
      rw [tiles_iff.1 tail] at htext
      rwa [htext]
  | cons _ done ih =>
    cases h with
    | cons _ tail => exact ih tail

namespace Pointer

variable {source : String} {p : Pointer} {item : ScanItem} {items : List ScanItem} {n k : Nat}

section Between

variable {done : List Span} {s : Span} {cs : List Char}

theorem Between.lexeme (h : p.Between source (done ++ [s]) cs) : Lexeme s.text cs s.cls := by
  have htiles : Tiles source.toList (done ++ s :: Lox.spans cs) := by
    rw [tiles_iff, h.spans, List.append_assoc]
    rfl
  have hlexeme := htiles.lexeme
  rwa [text_spans] at hlexeme

theorem Between.split (h : p.Between source (done ++ [s]) cs) :
    source.toList = done.flatMap Span.text ++ s.text ++ cs := by
  rw [h.text, List.flatMap_append, List.flatMap_singleton]

theorem Between.ending (h : p.Between source (done ++ [s]) cs) :
    p.line = lineAfter (done.flatMap Span.text ++ s.text) := by
  rw [h.line, List.flatMap_append, List.flatMap_singleton]
  rfl

theorem Between.noted (h : p.Between source (done ++ [s]) cs) :
    p.cuts.head? = some (bytesWithin (done.flatMap Span.text) s.text) := by
  have hcuts := congrArg List.getLast? h.cuts
  rw [List.getLast?_reverse, placesFrom_append, Nat.zero_add] at hcuts
  exact hcuts.trans List.getLast?_concat

/-- The span passed last is reported as an item that stands in the text. -/
theorem Between.stands (h : p.Between source (done ++ [s]) cs) (hitem : s.item? p.line = some item) :
    StandsAt source.toList item (some (bytesWithin (done.flatMap Span.text) s.text)) := by
  have hsplit := h.split
  have hending := h.ending
  have hlexeme := h.lexeme
  have hworded : s.Worded := by
    have hmem : s ∈ Lox.spans source.toList := by simp [h.spans]
    exact spans_worded _ s hmem
  obtain ⟨cls, text⟩ := s
  generalize done.flatMap Span.text = before at hsplit hending ⊢
  cases cls with
  | token kind literal =>
    obtain rfl := Option.some.inj hitem
    have htext : (String.ofList text).toList = text := String.toList_ofList
    have hword := StandsAt.word (t := ⟨kind, String.ofList text, literal, p.line⟩)
      (htext.symm ▸ hsplit) (hworded kind literal rfl) (htext.symm ▸ hending)
    rwa [htext] at hword
  | blank => cases hitem
  | lineComment => cases hitem
  | blockComment => cases hitem
  | fault fault =>
    obtain rfl := Option.some.inj hitem
    cases hlexeme with
    | @unexpected c _ hc =>
      have hline : c ≠ '\n' := by
        rintro rfl
        exact absurd hc.2.2.2.2 (by decide)
      have hsame : lineAfter (before ++ [c]) = lineAfter before := by simp [lineAfter, hline]
      rw [hending, hsame]
      have htext : source.toList = before ++ c :: cs := by simpa using hsplit
      exact .unexpected htext
    | openString =>
      rw [List.append_nil] at hsplit
      rw [hending, ← hsplit]
      exact .openString hsplit
    | openComment =>
      rw [List.append_nil] at hsplit
      rw [hending, ← hsplit]
      exact .openComment hsplit

end Between

/-- The item that was found last stands in the text, at the bytes passed last. -/
theorem Found.stands (h : Found source item p) : p.line = item.line ∧
    ∃ place, StandsAt source.toList item place ∧ ∀ r ∈ place, p.cuts.head? = some r := by
  cases h with
  | span h hitem =>
    refine ⟨(item?_line hitem).symm, _, h.stands hitem, fun r hr => ?_⟩
    obtain rfl := Option.some.inj hr
    exact h.noted
  | endMark line => exact ⟨line, none, .endMark, nofun⟩

/-- After some items have been asked for, the last of them is found. -/
theorem items_found (h : Awaits source p items) (hn : p.bytes.length < n) (hk : k < items.length) :
    ∃ q, Pointing.items n (k + 1) p = .ok ((items.take (k + 1)).map some) q ∧
      Found source items[k] q := by
  induction k generalizing p items with
  | zero =>
    obtain ⟨q, hnext, _, hfound, _⟩ := next_awaited h hn (Nat.lt_of_le_of_lt p.ahead_le hn)
    obtain ⟨item, items, rfl⟩ := List.exists_cons_of_length_pos hk
    refine ⟨q, ?_, hfound item rfl⟩
    unfold Pointing.items
    rw [bind_of_ok hnext]
    rfl
  | succ k ih =>
    obtain ⟨q, hnext, hbytes, _, hq⟩ := next_awaited h hn (Nat.lt_of_le_of_lt p.ahead_le hn)
    obtain ⟨item, items, rfl⟩ := List.exists_cons_of_length_pos (Nat.zero_lt_of_lt hk)
    obtain ⟨r, hitems, hr⟩ := ih hq (hbytes ▸ hn) (Nat.lt_of_succ_lt_succ hk)
    refine ⟨r, ?_, hr⟩
    unfold Pointing.items
    rw [bind_of_ok hnext, bind_of_ok hitems]
    rfl

end Pointer

/-- Lines are exact. When a pointer over the bytes of a text has been asked for some of the items, its
own line is that of the last one, which is the line on which the characters of that item end, and they
are those of the bytes that the pointer passed last. The lines never decrease. -/
theorem lines_exact (source : String) :
    (scan source).Pairwise (fun a b => a.line ≤ b.line) ∧
      ∀ (k : Fin (scan source).length) (spare : Nat), ∃ p place,
        Pointing.items ((utf8 source.toList).length + 1 + spare) (k + 1) (.ofSource source) =
          .ok (((scan source).take (k + 1)).map some) p ∧
        p.line = (scan source)[k].line ∧
        StandsAt source.toList (scan source)[k] place ∧
        ∀ r ∈ place, p.cuts.head? = some r := by
  refine ⟨(itemsFrom_lines 1 _).2, fun k spare => ?_⟩
  have hfuel : (Pointer.ofSource source).bytes.length < (utf8 source.toList).length + 1 + spare := by
    have hbytes : (Pointer.ofSource source).bytes = utf8 source.toList := toByteArray_utf8 source
    rw [hbytes]
    omega
  obtain ⟨p, hitems, hfound⟩ := Pointer.items_found (Pointer.ofSource_awaits source) hfuel k.isLt
  obtain ⟨hline, place, hstands, hplace⟩ := hfound.stands
  exact ⟨p, place, hitems, hline, hstands, hplace⟩

/-- A string, a comment and a comment to the end of a line, each with a line end, and a fault. -/
example : (scan "a\"\n\"/*\n\n*/// @\n@\"\n").map ScanItem.line = [1, 2, 5, 6, 6] := by cbv

end Lox
