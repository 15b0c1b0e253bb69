import Lox.Token.Span

/-!
Characters as bytes. A character of ASCII is one byte, and no byte of another character looks like
one, so that a search for ASCII among the bytes finds what a search among the characters finds.
-/

namespace Lox

/-- The text in bytes. -/
def utf8 (cs : List Char) : List UInt8 := cs.flatMap String.utf8EncodeChar

@[simp] theorem utf8_nil : utf8 [] = [] := rfl

theorem utf8_cons (c : Char) (cs : List Char) : utf8 (c :: cs) = String.utf8EncodeChar c ++ utf8 cs :=
  List.flatMap_cons

theorem utf8_append (cs ds : List Char) : utf8 (cs ++ ds) = utf8 cs ++ utf8 ds :=
  List.flatMap_append

/-- A string is kept as the bytes of its characters. -/
theorem toByteArray_utf8 (source : String) : source.toByteArray.data.toList = utf8 source.toList := by
  have hbytes := @String.toByteArray_ofList source.toList
  rw [String.ofList_toList] at hbytes
  rw [hbytes]
  exact List.toList_data_toByteArray

/-- The bytes of a text are read as that text. -/
theorem fromUTF8?_utf8 (cs : List Char) :
    String.fromUTF8? (utf8 cs).toByteArray = some (String.ofList cs) := by
  have hvalid : (utf8 cs).toByteArray.IsValidUTF8 := ⟨cs, rfl⟩
  unfold String.fromUTF8?
  rw [dif_pos hvalid, Option.some.injEq, ← String.toByteArray_inj, String.toByteArray_ofList]
  rfl

theorem utf8_injective {cs ds : List Char} (h : utf8 cs = utf8 ds) : cs = ds := by
  have hstrings : some (String.ofList cs) = some (String.ofList ds) := by
    rw [← fromUTF8?_utf8, ← fromUTF8?_utf8, h]
  have hlists := congrArg (Option.map String.toList) hstrings
  simpa using hlists

section Character

variable {c : Char}

theorem encode_ascii (h : c.toNat < 128) : String.utf8EncodeChar c = [c.toUInt8] := by
  have hv : c.val.toNat ≤ 127 := Nat.le_of_lt_succ h
  unfold String.utf8EncodeChar
  simp only [if_pos hv]
  rfl

theorem utf8_ascii (h : c.toNat < 128) (cs : List Char) : utf8 (c :: cs) = c.toUInt8 :: utf8 cs := by
  rw [utf8_cons, encode_ascii h]
  rfl

theorem encode_large (h : 128 ≤ c.toNat) : ∀ b ∈ String.utf8EncodeChar c, 128 ≤ b.toNat := by
  have hv : ¬ c.val.toNat ≤ 127 := Nat.not_le_of_lt h
  intro b hb
  unfold String.utf8EncodeChar at hb
  simp only [if_neg hv] at hb
  split at hb
  · simp only [List.mem_cons, List.not_mem_nil, or_false] at hb
    rcases hb with rfl | rfl <;> rw [UInt8.toNat_ofNat'] <;> omega
  split at hb
  · simp only [List.mem_cons, List.not_mem_nil, or_false] at hb
    rcases hb with rfl | rfl | rfl <;> rw [UInt8.toNat_ofNat'] <;> omega
  · simp only [List.mem_cons, List.not_mem_nil, or_false] at hb
    rcases hb with rfl | rfl | rfl | rfl <;> rw [UInt8.toNat_ofNat'] <;> omega

theorem encode_ne_nil (c : Char) : String.utf8EncodeChar c ≠ [] := by
  intro h
  have hlength := String.length_utf8EncodeChar c
  have hpos := c.utf8Size_pos
  rw [h] at hlength
  simp only [List.length_nil] at hlength
  omega

theorem utf8_ne_nil {cs : List Char} (h : cs ≠ []) : utf8 cs ≠ [] := by
  obtain ⟨c, cs, rfl⟩ := List.exists_cons_of_ne_nil h
  rw [utf8_cons]
  exact List.append_ne_nil_of_left_ne_nil (encode_ne_nil c) _

/-- The first byte of a character is none that goes on with one. -/
theorem encode_first (c : Char) :
    ∃ b bs, String.utf8EncodeChar c = b :: bs ∧ (b.toNat < 128 ∨ 192 ≤ b.toNat) := by
  unfold String.utf8EncodeChar
  dsimp only
  split
  · refine ⟨_, _, rfl, .inl ?_⟩
    rw [UInt8.toNat_ofNat']
    omega
  split
  · refine ⟨_, _, rfl, .inr ?_⟩
    rw [UInt8.toNat_ofNat']
    omega
  split
  · refine ⟨_, _, rfl, .inr ?_⟩
    rw [UInt8.toNat_ofNat']
    omega
  · refine ⟨_, _, rfl, .inr ?_⟩
    rw [UInt8.toNat_ofNat']
    omega

theorem toNat_toUInt8 (h : c.toNat < 128) : c.toUInt8.toNat = c.toNat := by
  unfold Char.toUInt8
  rw [UInt32.toNat_toUInt8]
  exact Nat.mod_eq_of_lt (Nat.lt_trans h (by decide))

/-- The character that a byte is on its own. -/
def byteChar (b : UInt8) : Char := Char.ofNat b.toNat

theorem byteChar_toUInt8 (h : c.toNat < 128) : byteChar c.toUInt8 = c := by
  rw [byteChar, toNat_toUInt8 h, Char.ofNat_toNat]

theorem toNat_byteChar (b : UInt8) : (byteChar b).toNat = b.toNat := by
  have hvalid : b.toNat.isValidChar := .inl (Nat.lt_trans b.toNat_lt (by decide))
  unfold byteChar Char.ofNat
  rw [dif_pos hvalid]
  rfl

end Character

/-- A test of bytes that finds of every byte of a character what a test of characters finds of it. -/
def Mirrored (q : UInt8 → Bool) (p : Char → Bool) : Prop :=
  ∀ c, ∀ b ∈ String.utf8EncodeChar c, q b = p c

section Mirrored

variable {q : UInt8 → Bool} {p : Char → Bool}

theorem mirrored_of_ascii (hp : ∀ c, 128 ≤ c.toNat → p c = false) :
    Mirrored (fun b => p (byteChar b)) p := by
  intro c b hb
  show p (byteChar b) = p c
  by_cases hc : c.toNat < 128
  · rw [encode_ascii hc, List.mem_singleton] at hb
    rw [hb, byteChar_toUInt8 hc]
  · have hc : 128 ≤ c.toNat := Nat.le_of_not_lt hc
    rw [hp c hc, hp _ (by rw [toNat_byteChar]; exact encode_large hc b hb)]

theorem mirrored_eq {a : Char} (ha : a.toNat < 128) : Mirrored (· == a.toUInt8) (· == a) := by
  intro c b hb
  rw [Bool.eq_iff_iff, beq_iff_eq, beq_iff_eq]
  by_cases hc : c.toNat < 128
  · rw [encode_ascii hc, List.mem_singleton] at hb
    rw [hb]
    refine ⟨fun h => ?_, fun h => h ▸ rfl⟩
    rw [← byteChar_toUInt8 hc, h, byteChar_toUInt8 ha]
  · have hlarge := encode_large (Nat.le_of_not_lt hc) b hb
    constructor
    · rintro rfl
      rw [toNat_toUInt8 ha] at hlarge
      omega
    · rintro rfl
      exact absurd ha hc

theorem mirrored_ne {a : Char} (ha : a.toNat < 128) : Mirrored (· != a.toUInt8) (· != a) :=
  fun c b hb => congrArg not (mirrored_eq ha c b hb)

/-- Whether a text begins with a character of ASCII is seen from its first byte. -/
theorem head?_utf8 {a : Char} (ha : a.toNat < 128) (cs : List Char) :
    (utf8 cs).head? = some a.toUInt8 ↔ cs.head? = some a := by
  cases cs with
  | nil => simp
  | cons c cs =>
    obtain ⟨b, bs, hb, _⟩ := encode_first c
    have hbyte : (b == a.toUInt8) = (c == a) := mirrored_eq ha c b (hb ▸ List.mem_cons_self)
    rw [utf8_cons, hb, List.cons_append, List.head?_cons, List.head?_cons, Option.some.injEq,
      Option.some.injEq, ← beq_iff_eq, ← beq_iff_eq (a := c), hbyte]

/-- A test of the first byte, or of zero if there is none. -/
theorem head_utf8 (h : Mirrored q p) (h0 : q 0 = false) (cs : List Char) :
    q ((utf8 cs).head?.getD 0) = cs.head?.any p := by
  cases cs with
  | nil => exact h0
  | cons c cs =>
    obtain ⟨b, bs, hb, _⟩ := encode_first c
    rw [utf8_cons, hb]
    exact h c b (hb ▸ List.mem_cons_self)

theorem takeWhile_utf8 (h : Mirrored q p) (cs : List Char) :
    (utf8 cs).takeWhile q = utf8 (cs.takeWhile p) ∧
      (utf8 cs).dropWhile q = utf8 (cs.dropWhile p) := by
  induction cs with
  | nil => exact ⟨rfl, rfl⟩
  | cons c cs ih =>
    rw [utf8_cons, List.takeWhile_cons, List.dropWhile_cons]
    by_cases hc : p c = true
    · have hall : ∀ b ∈ String.utf8EncodeChar c, q b = true := fun b hb => (h c b hb).trans hc
      rw [List.takeWhile_append_of_pos hall, List.dropWhile_append_of_pos hall, ih.1, ih.2,
        if_pos hc, if_pos hc, utf8_cons]
      exact ⟨rfl, rfl⟩
    · rw [if_neg hc, if_neg hc, utf8_cons]
      obtain ⟨b, bs, hb⟩ := List.exists_cons_of_ne_nil (encode_ne_nil c)
      have hq : ¬ q b = true := by rwa [h c b (hb ▸ List.mem_cons_self)]
      rw [hb, List.cons_append, List.takeWhile_cons, List.dropWhile_cons, if_neg hq, if_neg hq]
      exact ⟨rfl, rfl⟩

theorem count_utf8 {a : Char} (ha : a.toNat < 128) (cs : List Char) :
    (utf8 cs).count a.toUInt8 = cs.count a := by
  induction cs with
  | nil => rfl
  | cons c cs ih =>
    rw [utf8_cons, List.count_append, ih, List.count_cons, Nat.add_comm]
    congr 1
    by_cases hc : (c == a) = true
    · obtain rfl : c = a := by simpa using hc
      rw [encode_ascii ha]
      simp
    · rw [if_neg hc, List.count_eq_zero]
      intro hmem
      exact hc ((mirrored_eq ha c _ hmem).symm.trans (beq_self_eq_true _))

end Mirrored

end Lox
