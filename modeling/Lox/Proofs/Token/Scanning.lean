import Lox.Proofs.Token.Tiling

/-!
The scanner comes to its end on every text. What it finds on the way are the tokens and the faults of
the lexemes that the text is made of, in their order, and what it passes is every byte once.
-/

namespace Lox

open Pointing

/-- The places of the spans among the bytes, the first one at the index. -/
def placesFrom (i : Nat) : List Span → List (Nat × Nat)
  | [] => []
  | s :: ss => (i, i + (utf8 s.text).length) :: placesFrom (i + (utf8 s.text).length) ss

section Places

variable (i : Nat) (ss : List Span)

theorem placesFrom_append (ss' : List Span) : placesFrom i (ss ++ ss') =
    placesFrom i ss ++ placesFrom (i + (utf8 (ss.flatMap Span.text)).length) ss' := by
  induction ss generalizing i with
  | nil => rfl
  | cons s ss ih =>
    rw [List.cons_append, placesFrom, placesFrom, ih, List.flatMap_cons, utf8_append,
      List.length_append, Nat.add_assoc]
    rfl

/-- The places cover every byte once. -/
theorem placesFrom_cover : (placesFrom i ss).flatMap (fun r => List.range' r.1 (r.2 - r.1)) =
    List.range' i (utf8 (ss.flatMap Span.text)).length := by
  induction ss generalizing i with
  | nil => rfl
  | cons s ss ih =>
    rw [placesFrom, List.flatMap_cons, ih, Nat.add_sub_cancel_left, List.flatMap_cons, utf8_append,
      List.length_append, List.range'_append_1]

/-- The bytes at the places are those of the spans. -/
theorem placesFrom_bytes (before : List UInt8) (hbefore : before.length = i) :
    (placesFrom i ss).map (fun r => ((before ++ utf8 (ss.flatMap Span.text)).drop r.1).take (r.2 - r.1)) =
      ss.map fun s => utf8 s.text := by
  induction ss generalizing i before with
  | nil => rfl
  | cons s ss ih =>
    have hnext := ih (i + (utf8 s.text).length) (before ++ utf8 s.text)
      (by rw [List.length_append, hbefore])
    rw [placesFrom, List.map_cons, List.map_cons, List.flatMap_cons, utf8_append,
      ← List.append_assoc, hnext, List.append_assoc, ← hbefore, List.drop_left,
      Nat.add_sub_cancel_left, List.take_left]

end Places

/-- The end mark is always to come. -/
theorem itemsFrom_ne_nil (line : Nat) (ss : List Span) : itemsFrom line ss ≠ [] := by
  induction ss generalizing line with
  | nil => nofun
  | cons s ss ih => exact List.append_ne_nil_of_right_ne_nil _ (ih _)

namespace Pointer

variable {source : String} {items : List ScanItem} {n k : Nat}

/-- Some spans of the source have been passed, and these characters are left. -/
structure Between (p : Pointer) (source : String) (done : List Span) (cs : List Char) : Prop where
  spans : spans source.toList = done ++ spans cs
  bytes : p.bytes = utf8 source.toList
  curr : p.curr = (utf8 (done.flatMap Span.text)).length
  line : p.line = 1 + (done.flatMap Span.text).count '\n'
  cuts : p.cuts.reverse = placesFrom 0 done

/-- The items that are still to come. -/
inductive Awaits (source : String) : Pointer → List ScanItem → Prop
  | between {p done cs} (h : p.Between source done cs) : Awaits source p (itemsFrom p.line (spans cs))
  | finished {p} (bytes : p.bytes = utf8 source.toList) (past : p.bytes.length < p.curr)
      (cuts : p.cuts.reverse = placesFrom 0 (spans source.toList)) : Awaits source p []

/-- The item that was reported last is that of the span passed last, or the end mark. -/
inductive Found (source : String) : ScanItem → Pointer → Prop
  | span {p done s cs item} (h : p.Between source (done ++ [s]) cs)
      (hitem : s.item? p.line = some item) : Found source item p
  | endMark {p} (line : p.line = 1 + source.toList.count '\n') :
      Found source (.token (Lox.endMark source)) p

theorem ofSource_awaits (source : String) : Awaits source (.ofSource source) (scan source) := by
  have hstart : Between (.ofSource source) source [] source.toList :=
    ⟨rfl, toByteArray_utf8 source, rfl, rfl, rfl⟩
  exact .between hstart

variable {p : Pointer}

namespace Between

variable {done : List Span} {cs : List Char} {c : Char}

theorem text (h : p.Between source done cs) :
    source.toList = done.flatMap Span.text ++ cs := by
  rw [← text_spans source.toList, h.spans, List.flatMap_append, text_spans]

theorem length (h : p.Between source done cs) :
    p.bytes.length = p.curr + (utf8 cs).length := by
  rw [h.bytes, h.text, utf8_append, List.length_append, h.curr]

theorem ahead (h : p.Between source done cs) : p.ahead = utf8 cs := by
  rw [Pointer.ahead, h.bytes, h.text, utf8_append, h.curr, List.drop_left]

theorem within (h : p.Between source done (c :: cs)) :
    Within { p with start := p.curr, pending := none } (done.flatMap Span.text) [] (c :: cs) :=
  ⟨by rw [List.append_nil, ← h.text]; exact h.bytes, h.curr, rfl, rfl⟩

/-- The span that begins here is passed, and noted. -/
theorem step {q : Pointer} (h : p.Between source done (c :: cs))
    (hq : Passed { p with start := p.curr, pending := none } (Span.cut c cs).1 q) :
    Between { q with cuts := (q.start, q.curr) :: q.cuts } source (done ++ [(Span.cut c cs).1])
      (Span.cut c cs).2 := by
  refine ⟨?_, hq.bytes.trans h.bytes, ?_, ?_, ?_⟩
  · rw [h.spans, Lox.spans, List.append_assoc]
    rfl
  · show q.curr = _
    rw [hq.curr, h.curr, List.flatMap_append, utf8_append, List.length_append, List.flatMap_singleton]
  · show q.line = _
    rw [hq.line, List.flatMap_append, List.count_append, ← Nat.add_assoc, ← h.line,
      List.flatMap_singleton]
    rfl
  · show ((q.start, q.curr) :: q.cuts).reverse = _
    rw [List.reverse_cons, hq.cuts, h.cuts, placesFrom_append, hq.curr, hq.start, h.curr, Nat.zero_add]
    rfl

end Between

/-- The item of a span that was passed is reported, on the line on which the span ends. -/
theorem Passed.report {q : Pointer} {s : Span} {before rest : List Char} (hq : p.Passed s q)
    (hbytes : p.bytes = utf8 (before ++ s.text ++ rest)) (hstart : p.start = (utf8 before).length)
    (others : Pointing (Option ScanItem)) :
    let noted : Pointer := { q with cuts := (q.start, q.curr) :: q.cuts }
    report s.cls.fault? others q =
      (s.item? q.line).elim (others noted) fun item => .ok (some item) noted := by
  intro noted
  have htext : textBetween q.start q.curr noted = .ok (String.ofList s.text) noted := by
    have htext := textBetween_eq (p := noted) (hq.bytes.trans hbytes)
    rwa [← hstart, ← hq.curr, ← hq.start] at htext
  have hpending := hq.pending
  unfold Pointing.report Span.item?
  refine (bind_of_ok (show (get : Pointing Pointer) q = .ok q q from rfl)).trans ?_
  refine (bind_of_ok (show (set noted : Pointing PUnit) q = .ok ⟨⟩ noted from rfl)).trans ?_
  rw [hpending]
  cases s.cls with
  | token kind literal => exact bind_of_ok htext
  | _ => rfl

/-- What comes next is the first of the items to come, and then the others are. -/
theorem next_awaited (h : Awaits source p items) (hn : p.bytes.length < n)
    (hk : p.ahead.length < k) : ∃ q, next n k p = .ok items.head? q ∧ q.bytes = p.bytes ∧
      (∀ item ∈ items.head?, Found source item q) ∧ Awaits source q items.tail := by
  induction k generalizing p items with
  | zero => exact absurd hk (Nat.not_lt_zero _)
  | succ k ih =>
    cases h with
    | finished bytes past cuts =>
      refine ⟨p, ?_, rfl, nofun, .finished bytes past cuts⟩
      show (if p.bytes.length < p.curr then _ else _ : Pointing (Option ScanItem)) p = _
      rw [if_pos past]
      rfl
    | @between done cs h =>
      have hlength := h.length
      cases cs with
      | nil =>
        have hcurr : p.curr = p.bytes.length := hlength.symm
        have hnext : next n (k + 1) p = .ok (some (.token (.synthetic .eof "" p.line))) (p.moved 1) := by
          show (if p.bytes.length < p.curr then _ else _ : Pointing (Option ScanItem)) p = _
          rw [if_neg (by omega), if_pos hcurr]
          rfl
        have hline : p.line = 1 + source.toList.count '\n' := by
          rw [h.line, h.text, List.append_nil]
        rw [spans]
        refine ⟨_, hnext, rfl, fun item hitem => ?_,
          .finished h.bytes (Nat.lt_succ_of_le (Nat.le_of_eq hlength)) ?_⟩
        · obtain rfl := Option.some.inj hitem
          rw [hline]
          exact .endMark hline
        · rw [h.spans, spans, List.append_nil]
          exact h.cuts
      | cons c cs =>
        have hsome : 0 < (utf8 (c :: cs)).length := List.length_pos_iff.2 (utf8_ne_nil (List.cons_ne_nil c cs))
        obtain ⟨q, hspan, hq⟩ := span_passes h.within hn
        have hnext : next n (k + 1) p = report (Span.cut c cs).1.cls.fault? (next n k) q := by
          show (if p.bytes.length < p.curr then _ else _ : Pointing (Option ScanItem)) p = _
          rw [if_neg (by omega), if_neg (by omega)]
          exact bind_of_ok hspan
        have hbetween := h.step hq
        have hlength' : (utf8 (Span.cut c cs).2).length < (utf8 (c :: cs)).length := by
          rw [← Span.cut_append, utf8_append, List.length_append]
          have := List.length_pos_iff.2 (utf8_ne_nil (Span.cut_text_ne_nil c cs))
          omega
        have hbytes : p.bytes = utf8 (done.flatMap Span.text ++ (Span.cut c cs).1.text ++
            (Span.cut c cs).2) := by
          rw [List.append_assoc, Span.cut_append, ← h.text]
          exact h.bytes
        rw [hnext, hq.report hbytes h.curr, spans, itemsFrom, ← show q.line = _ from hq.line]
        cases hitem : (Span.cut c cs).1.item? q.line with
        | some item =>
          refine ⟨_, rfl, hq.bytes, fun item' hitem' => ?_, .between hbetween⟩
          obtain rfl := Option.some.inj hitem'
          exact .span hbetween hitem
        | none =>
          rw [h.ahead] at hk
          obtain ⟨r, hr, hrbytes, hawaits⟩ := ih (.between hbetween) (hq.bytes ▸ hn)
            (by rw [hbetween.ahead]; omega)
          exact ⟨r, hr, hrbytes.trans hq.bytes, hawaits⟩

/-- However often the next item is asked for, the items come one by one, and nothing after them. -/
theorem items_awaited (h : Awaits source p items) (hn : p.bytes.length < n) (k : Nat) :
    ∃ q, Pointing.items n k p =
        .ok ((items.take k).map some ++ List.replicate (k - items.length) none) q ∧
      Awaits source q (items.drop k) := by
  induction k generalizing p items with
  | zero => exact ⟨p, by rw [List.take_zero, Nat.zero_sub]; rfl, h⟩
  | succ k ih =>
    obtain ⟨q, hnext, hbytes, -, hq⟩ := next_awaited h hn (Nat.lt_of_le_of_lt p.ahead_le hn)
    obtain ⟨r, hitems, hr⟩ := ih hq (hbytes ▸ hn)
    refine ⟨r, ?_, ?_⟩
    · unfold Pointing.items
      rw [bind_of_ok hnext, bind_of_ok hitems]
      cases items with
      | nil => simp [pure, EStateM.pure, List.replicate_succ]
      | cons item items => simp [pure, EStateM.pure]
    · rw [List.drop_tail] at hr
      exact hr

theorem Awaits.passed (h : Awaits source p []) :
    p.cuts.reverse = placesFrom 0 (spans source.toList) := by
  generalize hitems : ([] : List ScanItem) = items at h
  cases h with
  | finished _ _ cuts => exact cuts
  | between h => exact absurd hitems.symm (itemsFrom_ne_nil _ _)

end Pointer

/-- Every text is a sequence of lexemes in one way. A pointer that passes over its bytes finds their
tokens and faults in order, then the end mark, and then nothing, and it passes every byte once. -/
theorem scan_tiles (source : String) :
    (∀ ss, Tiles source.toList ss ↔ ss = spans source.toList) ∧
      scan source = spanItems 1 (spans source.toList) ++ [.token (endMark source)] ∧
      Phrase.EndFree (wordsOf source) ∧
      ∀ spare extra, ∃ p,
        Pointing.items ((utf8 source.toList).length + 1 + spare) ((scan source).length + extra)
            (.ofSource source) =
          .ok ((scan source).map some ++ List.replicate extra none) p ∧
        p.cuts.reverse.flatMap (fun r => List.range' r.1 (r.2 - r.1)) =
          List.range (utf8 source.toList).length ∧
        p.cuts.reverse.map (fun r => ((utf8 source.toList).drop r.1).take (r.2 - r.1)) =
          (spans source.toList).map fun s => utf8 s.text := by
  let ss := spans source.toList
  let bytes := utf8 source.toList
  have hscan : scan source = spanItems 1 ss ++ [.token (endMark source)] := by
    have hitems := itemsFrom_append 1 ss []
    rw [List.append_nil, text_spans] at hitems
    exact hitems
  refine ⟨fun ss' => tiles_iff.trans eq_comm, hscan, wordsOf_endFree source, fun spare extra => ?_⟩
  have hfuel : (Pointer.ofSource source).bytes.length < bytes.length + 1 + spare := by
    have hbytes : (Pointer.ofSource source).bytes = bytes := toByteArray_utf8 source
    rw [hbytes]
    omega
  obtain ⟨p, hitems, hp⟩ := Pointer.items_awaited (Pointer.ofSource_awaits source) hfuel
    ((scan source).length + extra)
  rw [List.take_of_length_le (Nat.le_add_right _ _), Nat.add_sub_cancel_left] at hitems
  rw [List.drop_of_length_le (Nat.le_add_right _ _)] at hp
  have hplaces : p.cuts.reverse = placesFrom 0 ss := hp.passed
  have htext : ss.flatMap Span.text = source.toList := text_spans source.toList
  have hcover := placesFrom_cover 0 ss
  have hpieces := placesFrom_bytes 0 ss [] rfl
  rw [htext, ← hplaces] at hcover hpieces
  exact ⟨p, hitems, hcover.trans List.range_eq_range'.symm, hpieces⟩

end Lox
