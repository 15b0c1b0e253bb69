import Lox.Decimal.Shortest

namespace Lox.Decimal

def zeros (n : Nat) : String := String.ofList (List.replicate n '0')

/-- The digits in positional form: no exponent, and a point only before a fraction. -/
def Scaled.positional (s : Scaled) : String :=
  let digits := toString s.digits
  if 0 ≤ s.exponent then digits ++ zeros s.exponent.toNat
  else
    let places := (-s.exponent).toNat
    let padded := (zeros (places + 1 - digits.length) ++ digits).toList
    let (whole, fraction) := padded.splitAt (padded.length - places)
    String.ofList (whole ++ '.' :: fraction)

/-- How the numbers of one kind of output are written: the words for what is not finite, and what
follows the digits of a whole number. -/
structure Style where
  nan : String
  infinity : String
  wholeSuffix : String

/-- Whole numbers below this are written by all their digits, and zero without a sign. -/
def wholeLimit : Nat := Nat.pow 2 63

def signed (negative : Bool) (text : String) : String := if negative then "-" ++ text else text

/-- The text of a number. Beyond the whole numbers it is the shortest decimal that reads back, a tie
upward, in positional form whatever its size. -/
def render (style : Style) (x : Float) : String :=
  let bits := x.toBits
  match Magnitude.ofBits bits with
  | .nan => style.nan
  | .infinite => signed (signBit bits) style.infinity
  | .finite d =>
    match d.whole? with
    | some n =>
      if n < wholeLimit then signed (signBit bits && n != 0) (toString n) ++ style.wholeSuffix
      else signed (signBit bits) (shortest .up d).positional
    | none => signed (signBit bits) (shortest .up d).positional

/-- The digits with a point after the first and the power of ten behind. -/
def Scaled.scientific (s : Scaled) : String :=
  match (toString s.digits).toList with
  | [] => ""
  | first :: others =>
    let power := s.exponent + others.length
    let fraction := if others.isEmpty then [] else '.' :: others
    String.ofList (first :: fraction) ++ (if 0 ≤ power then "e+" else "e-") ++ toString power.natAbs

/-- The exponents of the leading digit that are written in positional form in JSON. -/
def positionalExponents (power : Int) : Bool := -5 ≤ power && power ≤ 15

/-- The text of a number in JSON, which has no word for what is not finite. A whole number keeps a
fraction, and a tie goes to the even digit. -/
def renderJson (x : Float) : String :=
  let bits := x.toBits
  match Magnitude.ofBits bits with
  | .nan | .infinite => "null"
  | .finite d =>
    let s := shortest .even d
    let power := s.exponent + ((toString s.digits).length : Int) - 1
    let text :=
      if positionalExponents power then
        if 0 ≤ s.exponent then s.positional ++ ".0" else s.positional
      else s.scientific
    signed (signBit bits) text

end Lox.Decimal
