import Lox.Proofs.Outcome
import Lox.Proofs.Token.Pointer

/-!
An index into the bytes of a text passes one lexeme after the other. It never misses the bytes and
never takes out a piece with an end within a character, and the pieces it passes are all the bytes.
-/

namespace Lox

open Pointing

namespace Pointer

variable {p : Pointer} {b : UInt8} {bs : List UInt8} {n k : Nat}

/-- The pointer some bytes further on. -/
abbrev moved (p : Pointer) (k : Nat) : Pointer := { p with curr := p.curr + k }

theorem ahead_moved (p : Pointer) (k : Nat) : (p.moved k).ahead = p.ahead.drop k := by
  unfold ahead
  rw [List.drop_drop]

theorem moved_moved (p : Pointer) (j k : Nat) : (p.moved j).moved k = p.moved (j + k) := by
  simp only [moved, Nat.add_assoc]

theorem ahead_nil : p.bytes.length ≤ p.curr ↔ p.ahead = [] := List.drop_eq_nil_iff.symm

theorem ahead_head : p.bytes[p.curr]? = p.ahead.head? := by
  rw [ahead, List.head?_drop]

theorem atEnd_eq (p : Pointer) : atEnd p = .ok p.ahead.isEmpty p := by
  have hend : decide (p.bytes.length ≤ p.curr) = p.ahead.isEmpty := by
    rw [Bool.eq_iff_iff, decide_eq_true_eq, List.isEmpty_iff, ahead_nil]
  rw [← hend]
  rfl

theorem byteAt_eq (h : p.ahead = b :: bs) : byteAt p.curr p = .ok b p := by
  unfold byteAt
  rw [ahead_head, h]
  rfl

theorem advance_eq (h : p.ahead = b :: bs) : advance p = .ok b (p.moved 1) :=
  bind_of_ok (byteAt_eq h)

theorem peek_eq (p : Pointer) : peek p = .ok (p.ahead.head?.getD 0) p := by
  unfold peek
  rw [bind_of_ok (atEnd_eq p)]
  cases h : p.ahead with
  | nil => rfl
  | cons b bs => exact byteAt_eq h

theorem peekNext_eq (h : p.ahead = b :: bs) : peekNext p = .ok (bs.head?.getD 0) p := by
  have hahead : (p.moved 1).ahead = bs := by
    rw [ahead_moved, h]
    rfl
  unfold peekNext
  cases hbs : bs with
  | nil =>
    have hend : p.bytes.length ≤ p.curr + 1 := (ahead_nil (p := p.moved 1)).2 (hahead.trans hbs)
    rw [if_pos hend]
    rfl
  | cons c cs =>
    have hmore : ¬ p.bytes.length ≤ p.curr + 1 := by
      intro hend
      have hnil := (ahead_nil (p := p.moved 1)).1 hend
      rw [hahead, hbs] at hnil
      cases hnil
    have hbyte : p.bytes[p.curr + 1]? = some c := by
      have hhead := ahead_head (p := p.moved 1)
      rw [hahead, hbs] at hhead
      exact hhead
    rw [if_neg hmore]
    unfold byteAt
    rw [hbyte]
    rfl

theorem accept_yes (h : p.ahead = b :: bs) : Pointing.accept b p = .ok true (p.moved 1) := by
  have hpeek := peek_eq p
  have hend := atEnd_eq p
  rw [h] at hpeek hend
  unfold Pointing.accept
  rw [bind_of_ok hend]
  show (peek >>= _) p = _
  rw [bind_of_ok hpeek]
  simp only [List.head?_cons, Option.getD_some, beq_self_eq_true, if_true]
  rw [bind_of_ok (advance_eq h)]
  rfl

theorem accept_no (h : p.ahead.head? ≠ some b) : Pointing.accept b p = .ok false p := by
  have hpeek := peek_eq p
  have hend := atEnd_eq p
  unfold Pointing.accept
  rw [bind_of_ok hend]
  cases hahead : p.ahead with
  | nil => rfl
  | cons c cs =>
    rw [hahead] at hpeek h
    have hne : ¬ (((c :: cs).head?.getD 0) == b) = true := by simpa using h
    show (peek >>= _) p = _
    rw [bind_of_ok hpeek, if_neg hne]
    rfl

theorem pass_eq (test : UInt8 → Bool) (h0 : test 0 = false) (hn : p.ahead.length < n) :
    passWhile test n p = .ok () (p.moved (p.ahead.takeWhile test).length) := by
  induction n generalizing p with
  | zero => exact absurd hn (Nat.not_lt_zero _)
  | succ n ih =>
    unfold passWhile
    rw [bind_of_ok (peek_eq p)]
    by_cases htest : test (p.ahead.head?.getD 0) = true
    · rw [if_pos htest]
      obtain ⟨b, bs, h⟩ : ∃ b bs, p.ahead = b :: bs := by
        cases h : p.ahead with
        | nil => simp [h, h0] at htest
        | cons b bs => exact ⟨b, bs, rfl⟩
      have hb : test b = true := by simpa [h] using htest
      have hahead : (p.moved 1).ahead = bs := by
        rw [ahead_moved, h]
        rfl
      have hlength : (p.moved 1).ahead.length < n := by
        rw [h, List.length_cons] at hn
        rw [hahead]
        omega
      rw [bind_of_ok (advance_eq h), ih hlength, hahead, moved_moved, h, List.takeWhile_cons,
        if_pos hb, List.length_cons, Nat.add_comm]
    · have hnone : p.ahead.takeWhile test = [] := by
        cases h : p.ahead with
        | nil => rfl
        | cons b bs =>
          have hb : ¬ test b = true := by simpa [h] using htest
          rw [List.takeWhile_cons, if_neg hb]
      rw [if_neg htest, hnone]
      rfl

/-- The lines that begin in some bytes. -/
def newlines (bytes : List UInt8) : Nat := bytes.count '\n'.toUInt8

theorem passString_eq (hn : p.ahead.length < n) :
    let inside := p.ahead.takeWhile (· != '"'.toUInt8)
    passString n p = .ok () { p.moved inside.length with line := p.line + newlines inside } := by
  intro inside
  induction n generalizing p with
  | zero => exact absurd hn (Nat.not_lt_zero _)
  | succ n ih =>
    have hend := atEnd_eq p
    have hpeek := peek_eq p
    unfold passString
    rw [bind_of_ok hend]
    cases h : p.ahead with
    | nil =>
      have hinside : inside = [] := by simp [inside, h]
      rw [hinside]
      rfl
    | cons b bs =>
      rw [h] at hpeek hn
      have hahead : (p.moved 1).ahead = bs := by
        rw [ahead_moved, h]
        rfl
      show (peek >>= _) p = _
      rw [bind_of_ok hpeek]
      by_cases hquote : (((b :: bs).head?.getD 0) == '"'.toUInt8) = true
      · have hinside : inside = [] := by
          have hb : (b == '"'.toUInt8) = true := hquote
          simp only [inside, h, List.takeWhile_cons, bne, hb]
          rfl
        rw [if_pos hquote, hinside]
        rfl
      · have hinside : inside = b :: bs.takeWhile (· != '"'.toUInt8) := by
          have hb : (b == '"'.toUInt8) = false := by simpa using hquote
          simp only [inside, h, List.takeWhile_cons, bne, hb]
          rfl
        have hlength : bs.length < n := by simpa using hn
        rw [if_neg hquote, bind_of_ok (advance_eq h), hinside]
        by_cases hline : (b == '\n'.toUInt8) = true
        · obtain rfl : b = '\n'.toUInt8 := by simpa using hline
          let q : Pointer := { p.moved 1 with line := p.line + 1 }
          have hq : passString n q = .ok () _ := ih (p := q) (show (p.moved 1).ahead.length < n by rwa [hahead])
          rw [if_pos hline]
          show passString n q = _
          rw [hq, show q.ahead = bs from hahead]
          simp only [q, newlines, List.count_cons_self, List.length_cons]
          congr 2 <;> omega
        · have hq := ih (p := p.moved 1) (by rwa [hahead])
          rw [if_neg hline]
          show passString n (p.moved 1) = _
          rw [hq, hahead]
          simp only [newlines, List.length_cons, List.count_cons, if_neg hline]
          congr 2
          omega

section Marks

variable {cs : List Char}

theorem idxOf?_takeWhile (a : UInt8) (bytes : List UInt8) :
    (∃ k, bytes.idxOf? a = some k ∧ k = (bytes.takeWhile (· != a)).length) ∨
      bytes.idxOf? a = none ∧ bytes.takeWhile (· != a) = bytes := by
  induction bytes with
  | nil => exact .inr ⟨rfl, rfl⟩
  | cons b bytes ih =>
    rw [List.idxOf?_cons, List.takeWhile_cons]
    by_cases hb : (b == a) = true
    · exact .inl ⟨0, if_pos hb, by simp [bne, hb]⟩
    · have hne : (b != a) = true := by simpa [bne] using hb
      rw [if_neg hb, if_pos hne]
      rcases ih with ⟨k, hk, hlength⟩ | ⟨hnone, hall⟩
      · exact .inl ⟨k + 1, by rw [hk]; rfl, by rw [List.length_cons, hlength]⟩
      · exact .inr ⟨by rw [hnone]; rfl, by rw [hall]⟩

/-- Among the bytes a comment is closed where it is among the characters. -/
theorem closingMark?_skip {bytes : List UInt8} (h : ∀ b ∈ bytes, b ≠ '*'.toUInt8)
    (rest : List UInt8) :
    closingMark? (bytes ++ rest) = (closingMark? rest).map (· + bytes.length) := by
  induction bytes with
  | nil => simp
  | cons b bytes ih =>
    obtain ⟨hb, hbytes⟩ := List.forall_mem_cons.1 h
    have hno : ¬ (b == '*'.toUInt8 && (bytes ++ rest).head? == some '/'.toUInt8) = true := by
      simp [hb]
    rw [List.cons_append, closingMark?, if_neg hno, ih hbytes, Option.map_map]
    congr 1

/-- Among the bytes a comment is closed where it is among the characters. -/
theorem closingMark?_utf8 (cs : List Char) :
    closingMark? (utf8 cs) = (Span.closeComment? cs).map fun r => (utf8 r.1).length - 2 := by
  induction cs with
  | nil => rfl
  | cons c cs ih =>
    have hstar : '*'.toNat < 128 := by decide
    have hslash : '/'.toNat < 128 := by decide
    by_cases hpre : ['*', '/'] <+: c :: cs
    · obtain ⟨rest, rfl, hclose⟩ := closeComment?_here hpre
      obtain ⟨rfl, _⟩ := List.cons_prefix_cons.1 hpre
      rw [hclose, utf8_ascii hstar, utf8_ascii hslash]
      rfl
    · have hlong (r : List Char × List Char) (hr : Span.closeComment? cs = some r) :
          (utf8 (c :: r.1)).length - 2 = (utf8 r.1).length - 2 + (String.utf8EncodeChar c).length := by
        obtain ⟨body, hbody, _⟩ := closeComment?_first hr
        have hmark : (utf8 ['*', '/']).length = 2 := by decide
        rw [utf8_cons, List.length_append, hbody, utf8_append, List.length_append, hmark]
        omega
      rw [closeComment?_cons hpre, Option.map_map]
      have hstep : closingMark? (utf8 (c :: cs)) =
          (closingMark? (utf8 cs)).map (· + (String.utf8EncodeChar c).length) := by
        by_cases hc : c = '*'
        · subst hc
          have hnext : ¬ (utf8 cs).head? = some '/'.toUInt8 := by
            rw [head?_utf8 hslash]
            intro hhead
            obtain ⟨rest, rfl⟩ : ∃ rest, cs = '/' :: rest := by
              cases cs with
              | nil => cases hhead
              | cons d cs => exact ⟨cs, by simpa using hhead⟩
            exact hpre (List.prefix_append ['*', '/'] rest)
          rw [utf8_ascii hstar, closingMark?, encode_ascii hstar, if_neg (by simp [hnext])]
          rfl
        · rw [utf8_cons]
          refine closingMark?_skip (fun b hb hstar' => hc ?_) _
          have hbyte : (b == '*'.toUInt8) = (c == '*') := mirrored_eq hstar c b hb
          rw [hstar', beq_self_eq_true] at hbyte
          simpa using hbyte.symm
      rw [hstep, ih, Option.map_map]
      cases hclose : Span.closeComment? cs with
      | none => rfl
      | some r => exact congrArg some (hlong r hclose).symm

end Marks

section Pieces

variable {before text rest : List Char}

theorem isBoundary_utf8 (h : p.bytes = utf8 (before ++ rest)) :
    p.isBoundary (utf8 before).length = true := by
  unfold isBoundary
  rw [h, utf8_append]
  cases rest with
  | nil => simp
  | cons c rest =>
    obtain ⟨b, bs, hb, hfirst⟩ := encode_first c
    have hbyte : (utf8 before ++ utf8 (c :: rest))[(utf8 before).length]? = some b := by
      rw [List.getElem?_append_right (Nat.le_refl _), Nat.sub_self, utf8_cons, hb]
      rfl
    have hlow : (0x80 : UInt8).toNat = 128 := rfl
    have hhigh : (0xC0 : UInt8).toNat = 192 := rfl
    rw [hbyte]
    simp only [Option.any_some, Bool.or_eq_true, decide_eq_true_eq]
    right
    rw [UInt8.lt_iff_toNat_lt, UInt8.le_iff_toNat_le, hlow, hhigh]
    exact hfirst

theorem bytesBetween_eq {l m r : List UInt8} (h : p.bytes = l ++ m ++ r) :
    bytesBetween l.length (l.length + m.length) p = .ok m p := by
  have hwithin : l.length ≤ l.length + m.length ∧ l.length + m.length ≤ p.bytes.length := by
    rw [h, List.length_append, List.length_append]
    omega
  unfold bytesBetween
  rw [if_pos hwithin, h, List.append_assoc, List.drop_left, Nat.add_sub_cancel_left, List.take_left]

theorem textBetween_eq (h : p.bytes = utf8 (before ++ text ++ rest)) :
    textBetween (utf8 before).length ((utf8 before).length + (utf8 text).length) p =
      .ok (String.ofList text) p := by
  have hbytes : p.bytes = utf8 before ++ utf8 text ++ utf8 rest := by
    rw [h, utf8_append, utf8_append]
  have hleft : p.isBoundary (utf8 before).length = true :=
    isBoundary_utf8 (show p.bytes = utf8 (before ++ (text ++ rest)) by rw [h, List.append_assoc])
  have hright : p.isBoundary ((utf8 before).length + (utf8 text).length) = true := by
    rw [← List.length_append, ← utf8_append]
    exact isBoundary_utf8 h
  unfold textBetween
  rw [bind_of_ok (bytesBetween_eq hbytes), asText, hleft, hright, fromUTF8?_utf8]
  rfl

end Pieces

end Pointer

/-- What is left pending after a span. -/
def SpanClass.pending? : SpanClass → Option (TokenKind × Option Literal)
  | .token kind literal => some (kind, literal)
  | _ => none

def SpanClass.fault? : SpanClass → Option LexicalFault
  | .fault f => some f
  | _ => none

namespace Pointer

variable {p : Pointer} {n : Nat} {before cs : List Char} {c : Char}

/-- From one place in a span the pointer has got to its end. -/
structure Passed (p : Pointer) (s : Span) (q : Pointer) : Prop where
  bytes : q.bytes = p.bytes
  start : q.start = p.start
  curr : q.curr = p.start + (utf8 s.text).length
  line : q.line = p.line + s.lineBreaks
  pending : q.pending = s.cls.pending?
  cuts : q.cuts = p.cuts

/-- Reading from some place in a span gets to its end and finds what the span is. -/
def Passes (r : Pointing (Option LexicalFault)) (p : Pointer) (s : Span) : Prop :=
  ∃ q, r p = .ok s.cls.fault? q ∧ p.Passed s q

/-- The pointer has passed some text since the start of the span. -/
structure Within (p : Pointer) (before passed rest : List Char) : Prop where
  bytes : p.bytes = utf8 (before ++ passed ++ rest)
  start : p.start = (utf8 before).length
  curr : p.curr = p.start + (utf8 passed).length
  pending : p.pending = none

theorem Within.ahead {passed rest : List Char} (h : p.Within before passed rest) :
    p.ahead = utf8 rest := by
  unfold Pointer.ahead
  rw [h.bytes, h.curr, h.start, utf8_append, ← List.length_append, ← utf8_append, List.drop_left]

theorem Within.moved {passed text rest : List Char} (h : p.Within before passed (text ++ rest)) :
    (p.moved (utf8 text).length).Within before (passed ++ text) rest := by
  refine ⟨?_, h.start, ?_, h.pending⟩
  · rw [h.bytes]
    simp only [List.append_assoc]
  · show p.curr + _ = p.start + _
    rw [h.curr, utf8_append, List.length_append, Nat.add_assoc]

theorem Within.text {passed rest : List Char} (h : p.Within before passed rest) :
    textBetween p.start p.curr p = .ok (String.ofList passed) p := by
  rw [h.curr, h.start]
  exact textBetween_eq h.bytes

theorem Passes.of_moved {r : Pointing (Option LexicalFault)} {k : Nat} {s : Span}
    (h : Passes r (p.moved k) s) : ∃ q, r (p.moved k) = .ok s.cls.fault? q ∧ p.Passed s q := by
  obtain ⟨q, hq, hpassed⟩ := h
  exact ⟨q, hq, hpassed.bytes, hpassed.start, hpassed.curr, hpassed.line, hpassed.pending, hpassed.cuts⟩

theorem ahead_le (p : Pointer) : p.ahead.length ≤ p.bytes.length := by
  rw [Pointer.ahead, List.length_drop]
  omega

theorem Within.length {passed rest : List Char} (h : p.Within before passed rest) :
    p.bytes.length = p.curr + (utf8 rest).length := by
  rw [h.bytes, h.curr, h.start, utf8_append, utf8_append, List.length_append, List.length_append]

theorem Within.relined {passed rest : List Char} (h : p.Within before passed rest) (k : Nat) :
    Within { p with line := p.line + k } before passed rest :=
  ⟨h.bytes, h.start, h.curr, h.pending⟩

section Strings

variable {inside rest : List Char}

theorem passed_quotes (hinside : '"' ∉ inside) (hrest : ∀ d ∈ rest.head?, d = '"') :
    (inside ++ rest).takeWhile (· != '"') = inside := by
  have hrun : ∀ d ∈ inside, (d != '"') = true := by
    intro d hd
    rw [bne_iff_ne]
    rintro rfl
    exact hinside hd
  cases rest with
  | nil => rw [List.append_nil, (takeWhile_all hrun).1]
  | cons d rest =>
    obtain rfl : d = '"' := hrest d rfl
    exact (takeWhile_run hrun (by decide) rest).1

/-- Up to the next quote, or to the end, the pointer passes the inside of a string. -/
theorem passString_within (h : p.Within before ['"'] (inside ++ rest)) (hn : p.bytes.length < n)
    (hinside : '"' ∉ inside) (hrest : ∀ d ∈ rest.head?, d = '"') :
    ∃ q, passString n p = .ok () q ∧ q.Within before ('"' :: inside) rest ∧
      q.bytes = p.bytes ∧ q.line = p.line + inside.count '\n' ∧ q.cuts = p.cuts := by
  have hpass := passString_eq (Nat.lt_of_le_of_lt p.ahead_le hn)
  rw [h.ahead, (takeWhile_utf8 (mirrored_ne (by decide)) _).1, passed_quotes hinside hrest] at hpass
  refine ⟨_, hpass, h.moved.relined _, rfl, ?_, rfl⟩
  exact congrArg (p.line + ·) (count_utf8 (by decide) inside)

theorem string_open (h : p.Within before ['"'] inside) (hn : p.bytes.length < n)
    (hinside : '"' ∉ inside) :
    Passes (Pointing.string n) p ⟨.fault .unterminatedString, '"' :: inside⟩ := by
  have h' : p.Within before ['"'] (inside ++ []) := by rwa [List.append_nil]
  obtain ⟨q, hpass, hq, hbytes, hline, hcuts⟩ := passString_within h' hn hinside nofun
  have hend := atEnd_eq q
  rw [hq.ahead] at hend
  unfold Passes Pointing.string
  rw [bind_of_ok hpass]
  show ∃ r, (atEnd >>= _) q = _ ∧ _
  rw [bind_of_ok hend]
  refine ⟨q, rfl, hbytes, hq.start.trans h.start.symm, ?_, ?_, hq.pending, hcuts⟩
  · rw [hq.curr, hq.start, h.start]
  · rw [hline]
    rfl

theorem string_closed (h : p.Within before ['"'] (inside ++ '"' :: rest)) (hn : p.bytes.length < n)
    (hinside : '"' ∉ inside) :
    Passes (Pointing.string n) p
      ⟨.token .string (some (.string (String.ofList inside))), '"' :: inside ++ ['"']⟩ := by
  obtain ⟨q, hpass, hq, hbytes, hline, hcuts⟩ := passString_within h hn hinside (by simp)
  have hquote : '"'.toNat < 128 := by decide
  have hahead : q.ahead = '"'.toUInt8 :: utf8 rest := by rw [hq.ahead, utf8_ascii hquote]
  have hend := atEnd_eq q
  rw [hahead] at hend
  let r := q.moved 1
  have hr : r.Within before ('"' :: inside ++ ['"']) rest := by
    have hquoted : q.Within before ('"' :: inside) (['"'] ++ rest) := hq
    exact hquoted.moved
  have htext : textBetween (r.start + 1) (r.curr - 1) r = .ok (String.ofList inside) r := by
    have hbytes' : r.bytes = utf8 (before ++ ['"'] ++ inside ++ '"' :: rest) := by
      rw [hr.bytes]
      simp
    have hone : (utf8 ['"']).length = 1 := by decide
    have htext := textBetween_eq hbytes'
    have hstart : (utf8 (before ++ ['"'])).length = r.start + 1 := by
      rw [utf8_append, List.length_append, hone, hr.start]
    have hcurr : r.start + 1 + (utf8 inside).length = r.curr - 1 := by
      rw [hr.curr, utf8_append, List.length_append, hone, utf8_ascii hquote, List.length_cons]
      omega
    rwa [hstart, hcurr] at htext
  unfold Passes Pointing.string
  rw [bind_of_ok hpass]
  show ∃ s, (atEnd >>= _) q = _ ∧ _
  rw [bind_of_ok hend]
  show ∃ s, (advance >>= _) q = _ ∧ _
  rw [bind_of_ok (advance_eq hahead)]
  show ∃ s, (textBetween (r.start + 1) (r.curr - 1) >>= _) r = _ ∧ _
  rw [bind_of_ok htext]
  refine ⟨_, rfl, hbytes, hr.start.trans h.start.symm, ?_, ?_, rfl, hcuts⟩
  · show r.curr = _
    rw [hr.curr, hr.start, h.start]
  · show q.line = _
    rw [hline]
    show _ = p.line + ('"' :: inside ++ ['"']).count '\n'
    simp

end Strings

section Slashes

variable {inside rest : List Char}

theorem Within.bytesAhead {passed rest : List Char} (h : p.Within before passed rest) :
    bytesBetween p.curr p.bytes.length p = .ok (utf8 rest) p := by
  have hbytes : p.bytes = utf8 (before ++ passed) ++ utf8 rest ++ [] := by
    rw [List.append_nil, ← utf8_append, h.bytes]
  have hcurr : (utf8 (before ++ passed)).length = p.curr := by
    rw [h.curr, h.start, utf8_append, List.length_append]
  have hbetween := bytesBetween_eq hbytes
  rwa [hcurr, ← h.length] at hbetween

theorem lineComment_passes (h : p.Within before ['/', '/'] (inside ++ rest)) (hinside : '\n' ∉ inside)
    (hrest : ∀ d ∈ rest.head?, d = '\n') :
    Passes lineComment p ⟨.lineComment, '/' :: '/' :: inside⟩ := by
  have hrun : ∀ d ∈ inside, (d != '\n') = true := by
    intro d hd
    rw [bne_iff_ne]
    rintro rfl
    exact hinside hd
  have htake : (utf8 (inside ++ rest)).takeWhile (· != '\n'.toUInt8) = utf8 inside := by
    rw [(takeWhile_utf8 (mirrored_ne (by decide)) _).1]
    cases rest with
    | nil => rw [List.append_nil, (takeWhile_all hrun).1]
    | cons d rest =>
      obtain rfl : d = '\n' := hrest d rfl
      rw [(takeWhile_run hrun (by decide) rest).1]
  have hpassed : p.Passed ⟨.lineComment, '/' :: '/' :: inside⟩ (p.moved (utf8 inside).length) := by
    have hmoved := h.moved
    refine ⟨rfl, rfl, hmoved.curr, ?_, h.pending, rfl⟩
    show p.line = p.line + ('/' :: '/' :: inside).count '\n'
    rw [List.count_eq_zero.2 (by simpa using hinside)]
    rfl
  unfold Passes lineComment
  show ∃ q, (bytesBetween p.curr p.bytes.length >>= _) p = _ ∧ _
  rw [bind_of_ok h.bytesAhead]
  rcases idxOf?_takeWhile '\n'.toUInt8 (utf8 (inside ++ rest)) with
    ⟨k, hk, hlength⟩ | ⟨hnone, hall⟩
  · rw [htake] at hlength
    rw [hk, hlength]
    exact ⟨_, rfl, hpassed⟩
  · have hlength : p.bytes.length - p.curr = (utf8 inside).length := by
      rw [h.length, Nat.add_sub_cancel_left, ← htake, hall]
    rw [hnone, hlength]
    exact ⟨_, rfl, hpassed⟩

theorem blockComment_closed (h : p.Within before ['/', '*'] (inside ++ '*' :: '/' :: rest))
    (hinside : EndsFirst inside) :
    Passes blockComment p ⟨.blockComment, '/' :: '*' :: inside ++ ['*', '/']⟩ := by
  have htwo : (utf8 ['*', '/']).length = 2 := by decide
  have hmark : closingMark? (utf8 (inside ++ '*' :: '/' :: rest)) = some (utf8 inside).length := by
    rw [closingMark?_utf8, closeComment?_body hinside]
    show some ((utf8 (inside ++ ['*', '/'])).length - 2) = _
    rw [utf8_append, List.length_append, htwo, Nat.add_sub_cancel]
  have htake : (utf8 (inside ++ '*' :: '/' :: rest)).take (utf8 inside).length = utf8 inside := by
    rw [utf8_append, List.take_left]
  unfold Passes blockComment
  show ∃ q, (bytesBetween p.curr p.bytes.length >>= _) p = _ ∧ _
  rw [bind_of_ok h.bytesAhead, hmark]
  refine ⟨_, rfl, rfl, rfl, ?_, ?_, h.pending, rfl⟩
  · show p.curr + ((utf8 inside).length + 2) = _
    rw [h.curr, Nat.add_assoc, ← htwo, ← List.length_append, ← List.length_append, ← utf8_append,
      ← utf8_append]
    rfl
  · show p.line + newlines ((utf8 _).take _) = p.line + ('/' :: '*' :: inside ++ ['*', '/']).count '\n'
    rw [htake, newlines, count_utf8 (by decide)]
    simp

theorem blockComment_open (h : p.Within before ['/', '*'] inside)
    (hinside : ¬ ['*', '/'] <:+: inside) :
    Passes blockComment p ⟨.fault .unterminatedComment, '/' :: '*' :: inside⟩ := by
  have hmark : closingMark? (utf8 inside) = none := by
    rw [closingMark?_utf8, closeComment?_open hinside]
    rfl
  unfold Passes blockComment
  show ∃ q, (bytesBetween p.curr p.bytes.length >>= _) p = _ ∧ _
  rw [bind_of_ok h.bytesAhead, hmark]
  refine ⟨_, rfl, rfl, rfl, ?_, ?_, h.pending, rfl⟩
  · show p.curr + (p.bytes.length - p.curr) = _
    rw [h.length, Nat.add_sub_cancel_left, h.curr, Nat.add_assoc, ← List.length_append, ← utf8_append]
    rfl
  · show p.line + newlines (utf8 inside) = p.line + ('/' :: '*' :: inside).count '\n'
    rw [newlines, count_utf8 (by decide)]
    simp

/-- The second character of a comment. -/
theorem Within.second {d : Char} (hd : d.toNat < 128) (h : p.Within before [c] (d :: rest)) :
    p.ahead = d.toUInt8 :: utf8 rest ∧ (p.moved 1).Within before [c, d] rest := by
  refine ⟨by rw [h.ahead, utf8_ascii hd], ?_⟩
  have hone : (utf8 [d]).length = 1 := by rw [utf8_ascii hd]; rfl
  have hmoved := Within.moved (show p.Within before [c] ([d] ++ rest) from h)
  rwa [hone] at hmoved

theorem slash_line (h : p.Within before ['/'] ('/' :: inside ++ rest)) (hinside : '\n' ∉ inside)
    (hrest : ∀ d ∈ rest.head?, d = '\n') : Passes slash p ⟨.lineComment, '/' :: '/' :: inside⟩ := by
  obtain ⟨hahead, hmoved⟩ := h.second (by decide)
  unfold Passes slash
  rw [bind_of_ok (accept_yes hahead)]
  exact (lineComment_passes hmoved hinside hrest).of_moved

theorem slash_block {s : Span} (h : p.Within before ['/'] ('*' :: rest))
    (hcomment : Passes blockComment (p.moved 1) s) : Passes slash p s := by
  obtain ⟨hahead, _⟩ := h.second (by decide)
  have hno : p.ahead.head? ≠ some '/'.toUInt8 := by
    have hne : '*'.toUInt8 ≠ '/'.toUInt8 := by decide
    rw [hahead]
    simpa using hne
  unfold Passes slash
  rw [bind_of_ok (accept_no hno)]
  show ∃ q, (Pointing.accept '*'.toUInt8 >>= _) p = _ ∧ _
  rw [bind_of_ok (accept_yes hahead)]
  exact hcomment.of_moved

theorem slash_alone (h : p.Within before ['/'] rest) (hline : rest.head? ≠ some '/')
    (hblock : rest.head? ≠ some '*') : Passes slash p (Span.ofToken .slash ['/']) := by
  have hno {a : Char} (ha : a.toNat < 128) (hhead : rest.head? ≠ some a) :
      p.ahead.head? ≠ some a.toUInt8 := by
    rw [h.ahead]
    exact mt (head?_utf8 ha rest).1 hhead
  unfold Passes slash
  rw [bind_of_ok (accept_no (hno (by decide) hline))]
  show ∃ q, (Pointing.accept '*'.toUInt8 >>= _) p = _ ∧ _
  rw [bind_of_ok (accept_no (hno (by decide) hblock))]
  exact ⟨_, rfl, rfl, rfl, h.curr, rfl, rfl, rfl⟩

end Slashes

section Runs

variable {rest : List Char}

/-- The pointer passes the characters of which a test of ASCII holds. -/
theorem pass_within {passed : List Char} (test : Char → Bool) (h : p.Within before passed cs)
    (hn : p.bytes.length < n) (h0 : test (byteChar 0) = false)
    (htest : ∀ c, 128 ≤ c.toNat → test c = false) :
    ∃ q, passWhile (fun b => test (byteChar b)) n p = .ok () q ∧
      q.Within before (passed ++ cs.takeWhile test) (cs.dropWhile test) ∧ q.bytes = p.bytes ∧
      q.line = p.line ∧ q.cuts = p.cuts := by
  have hpass := pass_eq (fun b => test (byteChar b)) h0 (Nat.lt_of_le_of_lt p.ahead_le hn)
  rw [h.ahead, (takeWhile_utf8 (mirrored_of_ascii htest) cs).1] at hpass
  refine ⟨_, hpass, Within.moved ?_, rfl, rfl, rfl⟩
  rwa [List.takeWhile_append_dropWhile]

theorem ascii_le {d limit : Char} (h : 128 ≤ d.toNat) (hlimit : limit.toNat < 128) :
    ¬ d.val ≤ limit.val := by
  rw [UInt32.le_iff_toNat_le]
  exact Nat.not_le_of_lt (Nat.lt_of_lt_of_le hlimit h)

theorem digit_ascii {d : Char} (h : 128 ≤ d.toNat) : d.isDigit = false := by
  have hnine := ascii_le h (show '9'.toNat < 128 by decide)
  unfold Char.isDigit
  simp only [Bool.and_eq_false_iff, decide_eq_false_iff_not]
  exact .inr hnine

theorem alpha_ascii {d : Char} (h : 128 ≤ d.toNat) : d.isAlpha = false := by
  have hupper := ascii_le h (show 'Z'.toNat < 128 by decide)
  have hlower := ascii_le h (show 'z'.toNat < 128 by decide)
  unfold Char.isAlpha Char.isUpper Char.isLower
  simp only [Bool.or_eq_false_iff, Bool.and_eq_false_iff, decide_eq_false_iff_not]
  exact ⟨fun h => hupper h.2, .inr hlower⟩

theorem ne_ascii {d a : Char} (h : 128 ≤ d.toNat) (ha : a.toNat < 128) : (d == a) = false := by
  rw [beq_eq_false_iff_ne]
  rintro rfl
  exact absurd ha (Nat.not_lt_of_le h)

theorem wordPart_ascii {d : Char} (h : 128 ≤ d.toNat) : isWordPart d = false := by
  unfold isWordPart Char.isAlphanum
  rw [alpha_ascii h, digit_ascii h, ne_ascii h (by decide)]
  rfl

theorem wordStart_ascii {d : Char} (h : 128 ≤ d.toNat) : isWordStart d = false := by
  unfold isWordStart
  rw [alpha_ascii h, ne_ascii h (by decide)]
  rfl

theorem Within.passedBytes {passed : List Char} (h : p.Within before passed rest) :
    bytesBetween p.start p.curr p = .ok (utf8 passed) p := by
  have hbytes : p.bytes = utf8 before ++ utf8 passed ++ utf8 rest := by
    rw [h.bytes, utf8_append, utf8_append]
  rw [h.curr, h.start]
  exact bytesBetween_eq hbytes

theorem word_passes (h : p.Within before [c] cs) (hn : p.bytes.length < n)
    (hc : isWordStart c = true) :
    Passes (Pointing.word n) p (Span.word (c :: cs.takeWhile isWordPart)) := by
  obtain ⟨q, hpass, hq, hbytes, hline, hcuts⟩ :=
    pass_within isWordPart h hn (by decide) fun _ => wordPart_ascii
  let text := c :: cs.takeWhile isWordPart
  have hlines : text.count '\n' = 0 := by
    rw [List.count_eq_zero]
    intro hmem
    rcases List.mem_cons.1 hmem with rfl | hmem
    · revert hc
      decide
    · have hpart : isWordPart '\n' = true := mem_takeWhile hmem
      revert hpart
      decide
  have hpassed (kind : TokenKind) (literal : Option Literal) :
      p.Passed ⟨.token kind literal, text⟩ { q with pending := some (kind, literal) } := by
    refine ⟨hbytes, hq.start.trans h.start.symm, ?_, ?_, rfl, hcuts⟩
    · show q.curr = _
      rw [hq.curr, hq.start, h.start]
      rfl
    · show q.line = p.line + text.count '\n'
      rw [hline, hlines]
      rfl
  unfold Passes Pointing.word
  rw [bind_of_ok (show passWhile isWordByte n p = .ok () q from hpass)]
  show ∃ r, (bytesBetween q.start q.curr >>= _) q = _ ∧ _
  rw [bind_of_ok (show bytesBetween q.start q.curr q = .ok (utf8 text) q from hq.passedBytes)]
  cases hfind : keywords.find? fun k => utf8 k.1.toList == utf8 text with
  | some k =>
    obtain ⟨name, kind⟩ := k
    have hname : utf8 name.toList = utf8 text := by simpa using List.find?_some hfind
    have hmem : (String.ofList text, kind) ∈ keywords := by
      rw [← utf8_injective hname, String.ofList_toList]
      exact List.mem_of_find?_eq_some hfind
    rw [word_keyword hmem]
    exact ⟨_, rfl, hpassed kind (wordLiteral kind)⟩
  | none =>
    have hnone (kind : TokenKind) : (String.ofList text, kind) ∉ keywords := by
      intro hmem
      have hne := List.find?_eq_none.1 hfind _ hmem
      simp at hne
    rw [word_identifier hnone]
    exact ⟨_, rfl, hpassed .identifier none⟩

theorem isDigitByte_mirrored : Mirrored isDigitByte Char.isDigit := mirrored_of_ascii fun _ => digit_ascii

/-- Whether a point and a digit come next is seen from two bytes. -/
theorem fraction_none {passed : List Char} (h : p.Within before passed rest)
    (hrest : ∀ d tail, rest = '.' :: d :: tail → ¬ d.isDigit = true) :
    fraction n p = .ok () p := by
  have hpeek := peek_eq p
  rw [h.ahead] at hpeek
  have hpoint : ((utf8 rest).head?.getD 0 == '.'.toUInt8) = rest.head?.any (· == '.') :=
    head_utf8 (mirrored_eq (by decide)) (by decide) rest
  unfold fraction
  rw [bind_of_ok hpeek, hpoint]
  cases rest with
  | nil => rfl
  | cons c tail =>
    by_cases hc : c = '.'
    · subst hc
      have hahead : p.ahead = '.'.toUInt8 :: utf8 tail := by rw [h.ahead, utf8_ascii (by decide)]
      have hdigit : isDigitByte ((utf8 tail).head?.getD 0) = tail.head?.any Char.isDigit :=
        head_utf8 isDigitByte_mirrored (by decide) tail
      have hno : ¬ tail.head?.any Char.isDigit = true := by
        cases tail with
        | nil => simp
        | cons d tail => exact hrest d tail rfl
      show (peekNext >>= _) p = _
      rw [bind_of_ok (peekNext_eq hahead), hdigit, if_neg hno]
      rfl
    · have hno : ¬ (c :: tail).head?.any (· == '.') = true := by simpa using hc
      rw [if_neg hno]
      rfl

theorem fraction_some {passed tail : List Char} {d : Char}
    (h : p.Within before passed ('.' :: d :: tail)) (hn : p.bytes.length < n) (hd : d.isDigit = true) :
    ∃ q, fraction n p = .ok () q ∧
      q.Within before (passed ++ '.' :: d :: tail.takeWhile Char.isDigit)
        (tail.dropWhile Char.isDigit) ∧
      q.bytes = p.bytes ∧ q.line = p.line ∧ q.cuts = p.cuts := by
  have hpeek := peek_eq p
  rw [h.ahead] at hpeek
  have hahead : p.ahead = '.'.toUInt8 :: utf8 (d :: tail) := by rw [h.ahead, utf8_ascii (by decide)]
  have hpoint : ((utf8 ('.' :: d :: tail)).head?.getD 0 == '.'.toUInt8) = true :=
    head_utf8 (mirrored_eq (by decide)) (by decide) ('.' :: d :: tail)
  have hdigit : isDigitByte ((utf8 (d :: tail)).head?.getD 0) = true :=
    (head_utf8 isDigitByte_mirrored (by decide) (d :: tail)).trans hd
  have hmoved : (p.moved 1).Within before (passed ++ ['.']) (d :: tail) :=
    Within.moved (show p.Within before passed (['.'] ++ d :: tail) from h)
  obtain ⟨q, hpass, hq, hbytes, hline, hcuts⟩ :=
    pass_within Char.isDigit hmoved hn (by decide) fun _ => digit_ascii
  refine ⟨q, ?_, ?_, hbytes, hline, hcuts⟩
  · unfold fraction
    rw [bind_of_ok hpeek, hpoint, if_pos rfl]
    show (peekNext >>= _) p = _
    rw [bind_of_ok (peekNext_eq hahead), hdigit, if_pos rfl]
    show (advance >>= _) p = _
    rw [bind_of_ok (advance_eq hahead)]
    exact hpass
  · simpa [hd] using hq

theorem numeral_unbroken {text : List Char} (h : IsNumeral text) : text.count '\n' = 0 := by
  have hdigits {digits : List Char} (h : IsDigits digits) : '\n' ∉ digits := by
    intro hmem
    have hdigit := h.2 _ hmem
    revert hdigit
    decide
  rw [List.count_eq_zero]
  rcases h with h | ⟨whole, fraction, hwhole, hfraction, rfl⟩
  · exact hdigits h
  · simp [hdigits hwhole, hdigits hfraction]

theorem number_passes (h : p.Within before [c] cs) (hn : p.bytes.length < n)
    (hc : c.isDigit = true) : Passes (Pointing.number n) p (Span.cutNumeral c cs).1 := by
  obtain ⟨q, hpass, hq, hbytes, hline, hcuts⟩ :=
    pass_within Char.isDigit h hn (by decide) fun _ => digit_ascii
  obtain ⟨r, hfraction, ⟨rest, hr⟩, hbytes', hline', hcuts'⟩ : ∃ r, fraction n q = .ok () r ∧
      (∃ rest, r.Within before (Span.cutNumeral c cs).1.text rest) ∧ r.bytes = q.bytes ∧
      r.line = q.line ∧ r.cuts = q.cuts := by
    by_cases hpoint : ∃ d tail, cs.dropWhile Char.isDigit = '.' :: d :: tail ∧ d.isDigit = true
    · obtain ⟨d, tail, hrest, hd⟩ := hpoint
      rw [hrest] at hq
      obtain ⟨r, hfraction, hr, hkept⟩ := fraction_some hq (by rwa [hbytes]) hd
      rw [cutNumeral_fraction hrest hd]
      exact ⟨r, hfraction, ⟨_, hr⟩, hkept⟩
    · have hnone (d : Char) (tail : List Char)
          (hrest : cs.dropWhile Char.isDigit = '.' :: d :: tail) : ¬ d.isDigit = true :=
        fun hd => hpoint ⟨d, tail, hrest, hd⟩
      rw [cutNumeral_whole hnone]
      exact ⟨q, fraction_none hq hnone, ⟨_, hq⟩, rfl, rfl, rfl⟩
  obtain ⟨hlongest, hcls⟩ := cutNumeral_longest hc cs
  generalize (Span.cutNumeral c cs).1 = s at hr hlongest hcls ⊢
  unfold Passes Pointing.number
  rw [bind_of_ok (show passWhile isDigitByte n p = .ok () q from hpass), bind_of_ok hfraction]
  show ∃ t, (textBetween r.start r.curr >>= _) r = _ ∧ _
  rw [bind_of_ok hr.text, String.toList_ofList, hcls]
  refine ⟨{ r with pending := some (.number, some (.number (decimalValue s.text))) }, rfl,
    hbytes'.trans hbytes, hr.start.trans h.start.symm, ?_, ?_, by rw [hcls]; rfl,
    hcuts'.trans hcuts⟩
  · show r.curr = _
    rw [hr.curr, hr.start, h.start]
  · show r.line = p.line + s.text.count '\n'
    rw [hline', hline, numeral_unbroken hlongest.fits]
    rfl

theorem unexpected_passes {k : Nat} (h : p.Within before [] (c :: cs)) (hc : c ≠ '\n') :
    Passes unexpected (p.moved k) ⟨.fault .unexpectedCharacter, [c]⟩ := by
  have hbytes : (p.moved k).bytes = utf8 (before ++ c :: cs ++ []) := by
    rw [List.append_nil]
    simpa using h.bytes
  have hlength : (utf8 before).length + (utf8 (c :: cs)).length = p.bytes.length := by
    have := h.length
    rw [h.curr, h.start] at this
    exact this.symm
  have htext := textBetween_eq hbytes
  rw [hlength, ← h.start] at htext
  have hwidth : c.utf8Size = (utf8 [c]).length := by
    rw [utf8_cons, List.length_append, String.length_utf8EncodeChar]
    rfl
  unfold Passes unexpected
  show ∃ q, (textBetween p.start p.bytes.length >>= _) (p.moved k) = _ ∧ _
  rw [bind_of_ok htext, String.toList_ofList]
  refine ⟨_, rfl, rfl, rfl, ?_, ?_, h.pending, rfl⟩
  · show p.start + c.utf8Size = _
    rw [hwidth]
  · show p.line = p.line + [c].count '\n'
    simp [hc]

end Runs

section Spans

theorem Within.unbroken (hc : c ≠ '\n') (line : Nat) : line = line + [c].count '\n' := by
  simp [hc]

theorem comparison_passes {alone joined : TokenKind} (h : p.Within before [c] cs)
    (hc : comparison? c = some (alone, joined)) :
    Passes (do
      if ← Pointing.accept '='.toUInt8 then emit joined none else emit alone none
      pure none) p (Span.cut c cs).1 := by
  obtain ⟨_, hline⟩ := comparison_plain hc
  unfold Passes
  by_cases hequal : cs.head? = some '='
  · obtain ⟨rest, rfl⟩ : ∃ rest, cs = '=' :: rest := by
      cases cs with
      | nil => cases hequal
      | cons d rest => exact ⟨rest, by simpa using hequal⟩
    obtain ⟨hahead, hmoved⟩ := h.second (by decide)
    rw [cut_joined hc, bind_of_ok (accept_yes hahead)]
    refine ⟨_, rfl, rfl, rfl, hmoved.curr, ?_, rfl, rfl⟩
    show p.line = p.line + [c, '='].count '\n'
    simp [hline]
  · have hno : p.ahead.head? ≠ some '='.toUInt8 := by
      rw [h.ahead]
      exact mt (head?_utf8 (by decide) cs).1 hequal
    rw [cut_alone hc hequal, bind_of_ok (accept_no hno)]
    exact ⟨_, rfl, rfl, rfl, h.curr, Within.unbroken hline p.line, rfl, rfl⟩

theorem slash_passes (h : p.Within before ['/'] cs) : Passes slash p (Span.cutSlash cs).1 := by
  rcases cs with _ | ⟨d, tail⟩
  · exact slash_alone h nofun nofun
  by_cases hline : d = '/'
  · subst hline
    have hsplit : tail.takeWhile (· != '\n') ++ tail.dropWhile (· != '\n') = tail :=
      List.takeWhile_append_dropWhile
    refine slash_line (by rwa [List.cons_append, hsplit]) (fun hmem => by simpa using mem_takeWhile hmem)
      fun d hd => ?_
    have hhead := List.head?_dropWhile_not (· != '\n') tail
    rw [hd] at hhead
    simpa using hhead
  by_cases hblock : d = '*'
  · subst hblock
    obtain ⟨_, hmoved⟩ := h.second (by decide)
    refine slash_block h ?_
    cases hclose : Span.closeComment? tail with
    | none =>
      simp only [Span.cutSlash, hclose]
      exact blockComment_open hmoved (closeComment?_none hclose)
    | some found =>
      obtain ⟨inside, rest⟩ := found
      obtain ⟨body, rfl, hbody⟩ := closeComment?_first hclose
      simp only [Span.cutSlash, hclose]
      rw [← Span.closeComment?_append hclose, List.append_assoc] at hmoved
      exact blockComment_closed hmoved hbody
  · have hcut : (Span.cutSlash (d :: tail)).1 = Span.ofToken .slash ['/'] := by
      simp [Span.cutSlash, hline, hblock]
    rw [hcut]
    exact slash_alone h (by simpa using hline) (by simpa using hblock)

theorem nothing_ascii {d : Char} (h : 128 ≤ d.toNat) : BeginsNothing d := by
  have hfirst : ∀ o ∈ operators, (o.1.head?.all fun a => decide (a.toNat < 128)) = true := by decide
  refine ⟨fun o ho hhead => ?_, digit_ascii h, wordStart_ascii h, ?_, ?_⟩
  · have hsmall : d.toNat < 128 := by simpa [hhead] using hfirst o ho
    omega
  · rintro rfl
    revert h
    decide
  · simp [isBlank, ne_ascii h]

theorem string_passes (h : p.Within before ['"'] cs) (hn : p.bytes.length < n) :
    Passes (Pointing.string n) p (Span.cutString cs).1 := by
  have hinside : '"' ∉ cs.takeWhile (· != '"') := fun hmem => by simpa using mem_takeWhile hmem
  have hsplit : cs.takeWhile (· != '"') ++ cs.dropWhile (· != '"') = cs :=
    List.takeWhile_append_dropWhile
  unfold Span.cutString
  split
  next d rest hrest =>
    have hhead := List.head?_dropWhile_not (· != '"') cs
    rw [hrest] at hhead hsplit
    obtain rfl : d = '"' := by simpa using hhead
    exact string_closed (show p.Within before ['"'] (_ ++ '"' :: rest) by rwa [hsplit]) hn hinside
  next hrest =>
    rw [hrest, List.append_nil] at hsplit
    exact string_open (by rwa [hsplit]) hn hinside

/-- The pointer passes a character that begins no span of its own. -/
theorem span_nothing {b : UInt8} {bs : List UInt8} (h : p.Within before [] (c :: cs))
    (hahead : p.ahead = b :: bs) (hb : BeginsNothing (byteChar b)) (hc : BeginsNothing c) :
    Passes (Pointing.span n) p (Span.cut c cs).1 := by
  obtain ⟨hoperator, hdigit, hword, hquote, hblank⟩ := hb
  obtain ⟨hp, hcomparison, hslash⟩ := nothing_plain hoperator
  have hline : c ≠ '\n' := by
    rintro rfl
    exact absurd hc.2.2.2.2 (by decide)
  simp only [isBlank, Bool.or_eq_false_iff] at hblank
  unfold Passes Pointing.span
  rw [bind_of_ok (advance_eq hahead), cut_nothing hc]
  simp only [hp, hcomparison, hdigit, hword, hblank, beq_eq_false_iff_ne.2 hslash,
    beq_eq_false_iff_ne.2 hquote, Bool.or_false, Bool.false_eq_true, if_false]
  exact (unexpected_passes h hline).of_moved

/-- The pointer passes what is cut off, from the first byte of it. -/
theorem span_ascii (h : p.Within before [] (c :: cs)) (hn : p.bytes.length < n)
    (hascii : c.toNat < 128) : Passes (Pointing.span n) p (Span.cut c cs).1 := by
  have hahead : p.ahead = c.toUInt8 :: utf8 cs := by rw [h.ahead, utf8_ascii hascii]
  have hmoved : (p.moved 1).Within before [c] cs := by
    have hone : (utf8 [c]).length = 1 := by rw [utf8_ascii hascii]; rfl
    have hmoved := Within.moved (show p.Within before [] ([c] ++ cs) from h)
    rwa [hone] at hmoved
  by_cases hnothing : BeginsNothing c
  · exact span_nothing h hahead (by rwa [byteChar_toUInt8 hascii]) hnothing
  unfold Passes Pointing.span
  rw [bind_of_ok (advance_eq hahead), byteChar_toUInt8 hascii]
  cases hp : punctuation? c with
  | some kind =>
    have hline : c ≠ '\n' := by
      rintro rfl
      cases hp
    have hcut : (Span.cut c cs).1 = Span.ofToken kind [c] := by
      unfold Span.cut
      rw [hp]
    rw [hcut]
    exact ⟨_, rfl, rfl, rfl, hmoved.curr, Within.unbroken hline p.line, rfl, rfl⟩
  | none =>
    cases hc : comparison? c with
    | some kinds =>
      obtain ⟨alone, joined⟩ := kinds
      exact (comparison_passes hmoved hc).of_moved
    | none =>
      rw [cut_plain hp hc]
      by_cases hblank : isBlank c = true
      · rw [if_pos hblank]
        have hpassed {k : Nat} (hk : k = [c].count '\n') : p.Passed ⟨.blank, [c]⟩
            { p.moved 1 with line := p.line + k } :=
          ⟨rfl, rfl, hmoved.curr, congrArg (p.line + ·) hk, h.pending, rfl⟩
        rcases blank_cases hblank with rfl | rfl | rfl | rfl
        · exact ⟨_, rfl, hpassed (k := 0) (by decide)⟩
        · exact ⟨_, rfl, hpassed (k := 0) (by decide)⟩
        · exact ⟨_, rfl, hpassed (k := 0) (by decide)⟩
        · exact ⟨_, rfl, hpassed (k := 1) (by decide)⟩
      · have hnewline : c ≠ '\n' := by
          rintro rfl
          exact hblank rfl
        have hspace : ¬ (c == ' ' || c == '\r' || c == '\t') = true := by
          intro hspace
          simp [isBlank, hspace] at hblank
        rw [if_neg hblank]
        dsimp only
        rw [if_neg hspace, if_neg (by simpa using hnewline)]
        by_cases hslash : c = '/'
        · subst hslash
          exact (slash_passes hmoved).of_moved
        have hslash' : ¬ (c == '/') = true := by simpa using hslash
        rw [if_neg hslash', if_neg hslash']
        by_cases hquote : c = '"'
        · subst hquote
          exact (string_passes hmoved hn).of_moved
        have hquote' : ¬ (c == '"') = true := by simpa using hquote
        rw [if_neg hquote', if_neg hquote']
        by_cases hdigit : c.isDigit = true
        · rw [if_pos hdigit, if_pos hdigit]
          exact (number_passes hmoved hn hdigit).of_moved
        rw [if_neg hdigit, if_neg hdigit]
        by_cases hword : isWordStart c = true
        · rw [if_pos hword, if_pos hword]
          exact (word_passes hmoved hn hword).of_moved
        refine absurd ⟨fun o ho hhead => ?_, by simpa using hdigit, by simpa using hword, hquote,
          by simpa using hblank⟩ hnothing
        rcases operators_first o ho with hfirst | hfirst | hfirst
        · simp [hhead, hp] at hfirst
        · simp [hhead, hc] at hfirst
        · rw [hfirst] at hhead
          exact hslash (by simpa using hhead.symm)

theorem span_passes (h : p.Within before [] (c :: cs)) (hn : p.bytes.length < n) :
    Passes (Pointing.span n) p (Span.cut c cs).1 := by
  by_cases hascii : c.toNat < 128
  · exact span_ascii h hn hascii
  · have hlarge : 128 ≤ c.toNat := Nat.le_of_not_lt hascii
    obtain ⟨b, bs, hb⟩ := List.exists_cons_of_ne_nil (encode_ne_nil c)
    have hahead : p.ahead = b :: (bs ++ utf8 cs) := by
      rw [h.ahead, utf8_cons, hb]
      rfl
    have hbyte : 128 ≤ b.toNat := encode_large hlarge b (hb ▸ List.mem_cons_self)
    exact span_nothing h hahead (nothing_ascii (by rwa [toNat_byteChar])) (nothing_ascii hlarge)

end Spans

end Pointer

end Lox
