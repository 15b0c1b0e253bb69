namespace Lox.Decimal

/-- The magnitude `mantissa * 2 ^ exponent`. -/
structure Dyadic where
  mantissa : Nat
  exponent : Int
deriving DecidableEq, Repr

/-- What the 64 bits of a number stand for, its sign aside. -/
inductive Magnitude where
  | nan
  | infinite
  | finite (d : Dyadic)
deriving DecidableEq, Repr

/-- Bits stored of a mantissa; a normal number has one more, which is not stored. -/
def storedBits : Nat := 52

/-- The exponent of the smallest positive number, which is also that of every subnormal one. -/
def leastExponent : Int := -1074

def Magnitude.ofBits (bits : UInt64) : Magnitude :=
  let fraction := bits.toNat % Nat.pow 2 storedBits
  let biased := bits.toNat / Nat.pow 2 storedBits % Nat.pow 2 11
  if biased = 2047 then
    if fraction = 0 then .infinite else .nan
  else if biased = 0 then .finite ⟨fraction, leastExponent⟩
  else .finite ⟨Nat.pow 2 storedBits + fraction, leastExponent + (biased - 1 : Nat)⟩

def signBit (bits : UInt64) : Bool := bits.toNat / Nat.pow 2 63 = 1

namespace Dyadic

/-- The magnitude as a quotient of two naturals, the second positive. -/
def quotient (d : Dyadic) : Nat × Nat :=
  (d.mantissa * Nat.pow 2 d.exponent.toNat, Nat.pow 2 (-d.exponent).toNat)

/-- The magnitude, when it is a whole number. -/
def whole? (d : Dyadic) : Option Nat :=
  let (num, den) := d.quotient
  if num % den = 0 then some (num / den) else none

end Dyadic

/-- The quotient `num / den` rounded to the nearest natural, a tie to the even one. -/
def roundHalfEven (num den : Nat) : Nat :=
  let q := num / den
  let twice := 2 * (num % den)
  if twice < den then q
  else if twice = den then q + q % 2
  else q + 1

/-- The exponent at which the mantissa of `num / den` has all its bits before the point, but for
magnitudes that are too small for that. -/
def exponentFor (num den : Nat) : Int :=
  let guess : Int := (num.log2 : Int) - den.log2 - storedBits
  let scaled := num * Nat.pow 2 (-guess).toNat / (den * Nat.pow 2 guess.toNat)
  let exact := if scaled < Nat.pow 2 storedBits then guess - 1 else guess
  max exact leastExponent

/-- The bits of the number nearest to `num / den`, a tie to the even mantissa. The exponent and the
mantissa are added, so that a mantissa rounded up to the next power of two carries over. -/
def nearestBits (num den : Nat) : UInt64 :=
  if num = 0 ∨ den = 0 then 0
  else
    let e := exponentFor num den
    let mantissa := roundHalfEven (num * Nat.pow 2 (-e).toNat) (den * Nat.pow 2 e.toNat)
    let bits := (e - leastExponent).toNat * Nat.pow 2 storedBits + mantissa
    UInt64.ofNat (min bits (2047 * Nat.pow 2 storedBits))

/-- The number nearest to `digits * 10 ^ exponent`. -/
def toFloat (digits : Nat) (exponent : Int) : Float :=
  let den := Nat.pow 10 (-exponent).toNat
  Float.ofBits (nearestBits (digits * Nat.pow 10 exponent.toNat) den)

end Lox.Decimal
