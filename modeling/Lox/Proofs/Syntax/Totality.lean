import Lox.Proofs.Syntax.Script

/-!
Every sequence of tokens is read to the end, from within the vector and never past its first end
mark.
-/

namespace Lox

open Reader

namespace Tape

variable {tokens : List Token} {nextId : NodeId}

/-- The index of the first end mark. -/
def firstEnd (vector : Array Token) : Nat := vector.toList.findIdx (·.kind == .eof)

/-- The tokens that count: those up to the first end mark. -/
def counting (tokens : List Token) : List Token :=
  (close tokens).toList.take (firstEnd (close tokens) + 1)

/-- A vector that has been closed begins with the words that are read and the mark behind them. -/
theorem close_split (tokens : List Token) (nextId : NodeId) :
    let c := Cursor.ofTokens tokens nextId
    (∃ after, (close tokens).toList = c.rest ++ c.last :: after) ∧
      (∀ w ∈ c.rest, w.kind ≠ .eof) ∧ c.last.kind = .eof := by
  intro c
  have hrest : c.rest = tokens.takeWhile (·.kind != .eof) := rfl
  have hwords : ∀ w ∈ c.rest, w.kind ≠ .eof := fun w hw => by
    simpa using List.all_eq_true.1 List.all_takeWhile w hw
  have hsplit : c.rest ++ tokens.dropWhile (·.kind != .eof) = tokens :=
    List.takeWhile_append_dropWhile
  cases hdrop : tokens.dropWhile (·.kind != .eof) with
  | cons mark after =>
    have hmark : mark.kind = .eof := by
      have hhead := List.head?_dropWhile_not (fun t : Token => t.kind != .eof) tokens
      rw [hdrop] at hhead
      simpa using hhead
    have hlast : c.last = mark := by
      have hfind : tokens.find? (fun t => !(t.kind != .eof)) = some mark := by
        rw [← hsplit, hdrop, List.find?_append,
          List.find?_eq_none.2 fun w hw => by simpa using hwords w hw]
        simp [hmark]
      show (tokens.find? _).getD _ = _
      rw [hfind]
      rfl
    rw [hdrop] at hsplit
    refine ⟨?_, hwords, by rw [hlast, hmark]⟩
    unfold close
    split
    · exact ⟨after, by rw [hlast]; exact hsplit.symm⟩
    · refine ⟨after ++ [Token.synthetic .eof "" ((tokens.getLast?.map Token.line).getD 1)], ?_⟩
      rw [hlast, ← List.cons_append, ← List.append_assoc, hsplit]
  | nil =>
    have hall : c.rest = tokens := by rw [← hsplit, hdrop, List.append_nil]
    have hlast : c.last = Token.synthetic .eof "" ((tokens.getLast?.map Token.line).getD 1) := by
      have hfind : tokens.find? (fun t => !(t.kind != .eof)) = none :=
        List.find?_eq_none.2 fun w hw => by simpa using hwords w (by rwa [hall])
      show (tokens.find? _).getD _ = _
      rw [hfind]
      rfl
    have hopen : ¬ tokens.getLast?.map Token.kind = some .eof := by
      intro heof
      obtain ⟨w, hw, hkind⟩ := Option.map_eq_some_iff.1 heof
      exact hwords w (by rw [hall]; exact List.mem_of_getLast? hw) hkind
    refine ⟨⟨[], ?_⟩, hwords, by rw [hlast]; rfl⟩
    unfold close
    simp only [if_neg hopen]
    rw [hall, hlast]

theorem firstEnd_close (tokens : List Token) (nextId : NodeId) :
    firstEnd (close tokens) = (Cursor.ofTokens tokens nextId).rest.length := by
  obtain ⟨⟨after, hsplit⟩, hwords, hmark⟩ := close_split tokens nextId
  unfold firstEnd
  rw [hsplit, List.findIdx_append, if_neg, List.findIdx_cons]
  · simp [hmark]
  · intro hlt
    obtain ⟨w, hw, hkind⟩ := List.findIdx_lt_length.1 hlt
    exact hwords w hw (by simpa using hkind)

theorem counting_eq (tokens : List Token) (nextId : NodeId) :
    let c := Cursor.ofTokens tokens nextId
    counting tokens = c.rest ++ [c.last] := by
  intro c
  obtain ⟨⟨after, hsplit⟩, _, _⟩ := close_split tokens nextId
  unfold counting
  rw [firstEnd_close tokens nextId, hsplit, List.append_cons, List.take_append_of_le_length (by simp),
    List.take_of_length_le (by simp)]

theorem start_shows (tokens : List Token) (nextId : NodeId) :
    (start tokens nextId).Shows (close tokens) (firstEnd (close tokens))
      (Cursor.ofTokens tokens nextId) := by
  obtain ⟨⟨after, hsplit⟩, hwords, hmark⟩ := close_split tokens nextId
  refine ⟨rfl, fun i hi => ?_, hwords, hmark, ?_, rfl, rfl, nofun⟩
  · show (close tokens)[0 + i]? = _
    rw [Nat.zero_add, ← Array.getElem?_toList, hsplit, List.append_cons]
    exact List.getElem?_append_left (by simpa using Nat.lt_succ_of_le hi)
  · rw [firstEnd_close tokens nextId]
    exact Nat.zero_add _

end Tape

/-- Reading comes to an end on every sequence of tokens: walking on the vector with an index gives the
program and the diagnostics, misses the vector nowhere and leaves everything after the first end mark
alone. Nothing after that mark changes the result. -/
theorem parse_within_bounds (tokens : List Token) (allowExpression : Bool) (nextId : NodeId) :
    let vector := Tape.close tokens
    let first := Tape.firstEnd vector
    let read := parse tokens allowExpression nextId
    first < vector.size ∧
      (∀ spare, ∃ t,
        (Scripted.program (fuelPerToken * (first + 1) + spare) allowExpression).script.walk
            (.start tokens nextId) = .ok read.program t ∧
          t.log.reverse = read.diagnostics ∧ t.nextId = read.nextId ∧ t.tokens = vector ∧
          t.current ≤ first ∧ ∀ i ∈ t.visited, i ≤ first) ∧
      ∀ tokens', Tape.counting tokens' = Tape.counting tokens →
        parse tokens' allowExpression nextId = read := by
  intro vector first read
  let c := Cursor.ofTokens tokens nextId
  have hshows : (Tape.start tokens nextId).Shows vector first c := Tape.start_shows tokens nextId
  have hlength : first = c.rest.length := Tape.firstEnd_close tokens nextId
  have hfuel : 16 * c.rest.length + 6 ≤ fuelPerToken * (first + 1) := by
    rw [hlength]
    show 16 * c.rest.length + 6 ≤ 16 * (c.rest.length + 1)
    omega
  obtain ⟨p, d, hp⟩ := @program_ok _ _ allowExpression hfuel
  have hread : read = ⟨p, d.log.reverse, d.nextId⟩ := parse_of_ok (by rw [← hlength]; exact hp)
  refine ⟨hshows.size, fun spare => ?_, fun tokens' hcounting => ?_⟩
  · let scripted := Scripted.program (fuelPerToken * (first + 1) + spare) allowExpression
    have hagrees : Walker.Agrees vector first (scripted.script.walk (.start tokens nextId))
        (scripted.script.read c) := scripted.script.walk_simulates _ c hshows
    rw [scripted.read_eq, program_fuel hfuel (Nat.le_add_right _ spare), hp] at hagrees
    obtain ⟨t, ht, hend⟩ := hagrees
    refine ⟨t, by rw [hread]; exact ht, by rw [hread, hend.log], by rw [hread, hend.nextId],
      hend.vector, ?_, hend.visited⟩
    have hplace := hend.place
    omega
  · rw [Tape.counting_eq tokens' nextId, Tape.counting_eq tokens nextId] at hcounting
    obtain ⟨hrest, hlast⟩ := List.append_inj' hcounting rfl
    have hlast : (Cursor.ofTokens tokens' nextId).last = c.last := by simpa using hlast
    have hsame : Cursor.ofTokens tokens' nextId = c := by
      show Cursor.mk (Cursor.ofTokens tokens' nextId).rest (Cursor.ofTokens tokens' nextId).last _ _ = _
      rw [hrest, hlast]
      rfl
    rw [hread]
    exact parse_of_ok (by rw [hsame, ← hlength]; exact hp)

/-- A `break` with nothing behind it but the end mark, and with a function behind that. -/
theorem parse_within_bounds_early_end :
    parse [.synthetic .break "break" 1, .synthetic .eof "" 2, .synthetic .fun "fun" 3] true 0 =
      parse [.synthetic .break "break" 1, .synthetic .eof "" 2] true 0 :=
  (parse_within_bounds [.synthetic .break "break" 1, .synthetic .eof "" 2] true 0).2.2
    [.synthetic .break "break" 1, .synthetic .eof "" 2, .synthetic .fun "fun" 3] rfl

end Lox
