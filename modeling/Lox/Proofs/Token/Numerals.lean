import Lox.Proofs.Token.Lexeme
import Lox.Value

/-!
The numbers of a text are neither negative nor undefined. If they are not infinite either they are
printed as numerals.
-/

namespace Lox

open Float.Model Float.Model.UnpackedFloat

namespace Decimal

theorem toNat_append {v w : Nat} (a : BitVec v) (b : BitVec w) :
    (a ++ b).toNat = a.toNat * 2 ^ w + b.toNat := by
  rw [BitVec.toNat_append, ← Nat.shiftLeft_add_eq_or_of_lt b.isLt, Nat.shiftLeft_eq]

/-- The bits of a number from its parts. -/
theorem toNat_packComponents (sign : Sign) (exponent : BitVec 11) (mantissa : BitVec 52) :
    (packComponents .binary64 sign exponent mantissa).toNat =
      (sign.toBitVec.toNat * 2 ^ 11 + exponent.toNat) * 2 ^ 52 + mantissa.toNat := by
  show ((sign.toBitVec ++ exponent) ++ mantissa : BitVec (1 + 11 + 52)).toNat = _
  rw [toNat_append, toNat_append]

/-- A number by its bits is not negative, and is a number. -/
def Unsigned (bits : UInt64) : Prop := signBit bits = false ∧ Magnitude.ofBits bits ≠ .nan

theorem unsigned_components (exponent : BitVec 11) (mantissa : BitVec 52)
    (h : exponent.toNat = 2047 → mantissa.toNat = 0) :
    Unsigned (.ofBitVec (packComponents .binary64 .positive exponent mantissa)) := by
  have hnat : (UInt64.ofBitVec (packComponents .binary64 .positive exponent mantissa)).toNat =
      exponent.toNat * 2 ^ 52 + mantissa.toNat := by
    show (packComponents .binary64 .positive exponent mantissa).toNat = _
    rw [toNat_packComponents]
    show (0 * 2 ^ 11 + exponent.toNat) * 2 ^ 52 + mantissa.toNat = _
    rw [Nat.zero_mul, Nat.zero_add]
  have hexponent : exponent.toNat < 2 ^ 11 := exponent.isLt
  have hmantissa : mantissa.toNat < 2 ^ 52 := mantissa.isLt
  have hfraction : (exponent.toNat * 2 ^ 52 + mantissa.toNat) % 2 ^ 52 = mantissa.toNat := by omega
  have hbiased : (exponent.toNat * 2 ^ 52 + mantissa.toNat) / 2 ^ 52 % 2 ^ 11 = exponent.toNat := by
    omega
  have hsign : (exponent.toNat * 2 ^ 52 + mantissa.toNat) / 2 ^ 63 ≠ 1 := by omega
  constructor
  · unfold signBit
    rw [hnat]
    exact decide_eq_false hsign
  · unfold Magnitude.ofBits
    rw [hnat]
    simp only [storedBits, Nat.pow_eq, hfraction, hbiased]
    split
    next heq =>
      rw [if_pos (h heq)]
      nofun
    · split <;> nofun

/-- What is packed without a sign. -/
theorem unsigned_pack {u : UnpackedFloat} (h : u = .infinity .positive ∨ u = .zero .positive ∨
    ∃ mantissa exponent hm, u = .finite .positive mantissa exponent hm) :
    Unsigned (.ofBitVec (UnpackedFloat.pack .binary64 u)) := by
  have hinfinity : Unsigned (.ofBitVec (packedInfinity .binary64 .positive)) :=
    unsigned_components _ _ fun _ => rfl
  rcases h with rfl | rfl | ⟨mantissa, exponent, hm, rfl⟩
  · exact hinfinity
  · exact unsigned_components _ _ fun _ => rfl
  · unfold UnpackedFloat.pack
    simp only
    split
    · exact hinfinity
    next hexponent =>
      split
      · refine unsigned_components _ _ fun heq => absurd heq ?_
        rw [BitVec.toNat_ofNat]
        have hlt : ¬ 2 ^ 11 ≤ (exponent + (Format.exponentBias .binary64 : Nat) + (52 : Nat)).toNat + 1 := hexponent
        show ¬ (exponent + (Format.exponentBias .binary64 : Nat) + (52 : Nat)).toNat % 2 ^ 11 = 2047
        omega
      · exact unsigned_components _ _ fun heq => absurd heq (by decide)

theorem unpack_unsigned {bits : BitVec 64} (h : bits.toNat ≤ 2047 * 2 ^ 52) :
    let u := UnpackedFloat.unpack .binary64 bits
    u = .infinity .positive ∨ u = .zero .positive ∨
      ∃ mantissa exponent hm, u = .finite .positive mantissa exponent hm := by
  have hsign : Sign.ofBitVec (@unpackSign .binary64 bits) = .positive := by
    have hzero : @unpackSign .binary64 bits = 0#1 := by
      apply BitVec.eq_of_toNat_eq
      show (bits.toNat >>> 63) % 2 = 0
      rw [Nat.shiftRight_eq_div_pow]
      omega
    rw [hzero]
    rfl
  intro u
  unfold u UnpackedFloat.unpack
  simp only [hsign]
  split
  next hexponent =>
    split
    · exact .inl rfl
    next hmantissa =>
      refine absurd ?_ hmantissa
      have hones : (bits.toNat >>> 52) % 2 ^ 11 = 2047 := congrArg BitVec.toNat hexponent
      rw [Nat.shiftRight_eq_div_pow] at hones
      apply BitVec.eq_of_toNat_eq
      show (bits.toNat >>> 0) % 2 ^ 52 = 0
      rw [Nat.shiftRight_zero]
      omega
  · split
    · split
      · exact .inr (.inl rfl)
      next hmantissa =>
        have hpos : 0 < (@unpackMantissa .binary64 bits).toNat :=
          Nat.pos_of_ne_zero fun hzero => hmantissa (BitVec.eq_of_toNat_eq hzero)
        exact .inr (.inr ⟨_, _, hpos, rfl⟩)
    · have hpos : 0 < (1#1 ++ @unpackMantissa .binary64 bits).toNat := by
        rw [toNat_append]
        exact Nat.add_pos_left (Nat.two_pow_pos 52) _
      exact .inr (.inr ⟨_, _, hpos, rfl⟩)

/-- Numbers are made of decimals without a sign. -/
theorem toFloat_unsigned (digits : Nat) (exponent : Int) : Unsigned (toFloat digits exponent).toBits := by
  have hbits (num den : Nat) : (nearestBits num den).toNat ≤ 2047 * 2 ^ 52 := by
    unfold nearestBits
    split
    · exact Nat.zero_le _
    · simp only [UInt64.toNat_ofNat', storedBits, Nat.pow_eq]
      omega
  exact unsigned_pack (unpack_unsigned (hbits _ _))

section Digits

theorem isDigits_toString (n : Nat) : IsDigits (toString n).toList := by
  show IsDigits (Nat.repr n).toList
  rw [Nat.repr_eq_ofList_toDigits, String.toList_ofList]
  exact ⟨Nat.toDigits_ne_nil, fun c hc => Nat.isDigit_of_mem_toDigits (by decide) (by decide) hc⟩

theorem zeros_digits (n : Nat) : ∀ c ∈ (zeros n).toList, c.isDigit = true := by
  intro c hc
  rw [zeros, String.toList_ofList] at hc
  rw [List.eq_of_mem_replicate hc]
  rfl

/-- Without an exponent a decimal is written as a numeral. -/
theorem positional_numeral (s : Scaled) : IsNumeral s.positional.toList := by
  obtain ⟨hsome, hdigits⟩ := isDigits_toString s.digits
  unfold Scaled.positional
  simp only
  split
  · refine .inl ⟨?_, ?_⟩
    · rw [String.toList_append]
      exact List.append_ne_nil_of_left_ne_nil hsome _
    · rw [String.toList_append]
      exact List.forall_mem_append.2 ⟨hdigits, zeros_digits _⟩
  next hexponent =>
    let places := (-s.exponent).toNat
    let padded := (zeros (places + 1 - (toString s.digits).length) ++ toString s.digits).toList
    have hpadded : ∀ c ∈ padded, c.isDigit = true := by
      simp only [padded, String.toList_append]
      exact List.forall_mem_append.2 ⟨zeros_digits _, hdigits⟩
    have hlength : places < padded.length := by
      simp only [padded, String.toList_append, List.length_append, zeros, String.toList_ofList,
        List.length_replicate, String.length_toList]
      omega
    have hplaces : 0 < places := by omega
    rw [String.toList_ofList, List.splitAt_eq]
    refine .inr ⟨padded.take (padded.length - places), padded.drop (padded.length - places),
      ⟨?_, fun c hc => hpadded c (List.mem_of_mem_take hc)⟩,
      ⟨?_, fun c hc => hpadded c (List.mem_of_mem_drop hc)⟩, rfl⟩
    · rw [Ne, ← List.length_eq_zero_iff, List.length_take]
      omega
    · rw [Ne, ← List.length_eq_zero_iff, List.length_drop]
      omega

end Digits

end Decimal

/-- Whether a number is not one of the infinite ones. -/
def Limited (x : Float) : Prop := Decimal.Magnitude.ofBits x.toBits ≠ .infinite

open Decimal in
/-- A number that has no sign and is not infinite is printed as a numeral. -/
theorem text_numeral {x : Float} (h : Unsigned x.toBits) (hlimited : Limited x) :
    IsNumeral (Value.number x).text.toList := by
  obtain ⟨hsign, hnan⟩ := h
  show IsNumeral (render Value.numberStyle x).toList
  unfold render
  cases hmagnitude : Magnitude.ofBits x.toBits with
  | nan => exact absurd hmagnitude hnan
  | infinite => exact absurd hmagnitude hlimited
  | finite d =>
    have hunsigned (text : String) (b : Bool) : signed (signBit x.toBits && b) text = text := by
      rw [hsign]
      rfl
    have hpositional : IsNumeral (signed (signBit x.toBits) (shortest .up d).positional).toList := by
      rw [hsign]
      exact positional_numeral _
    simp only [hmagnitude, hunsigned]
    split
    · split
      next n _ _ =>
        show IsNumeral (toString n ++ "").toList
        rw [String.append_empty]
        exact .inl (isDigits_toString n)
      · exact hpositional
    · exact hpositional

end Lox
