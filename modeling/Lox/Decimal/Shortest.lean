import Lox.Decimal.Dyadic

namespace Lox.Decimal

/-- The magnitude `digits * 10 ^ exponent`. -/
structure Scaled where
  digits : Nat
  exponent : Int
deriving DecidableEq, Repr

/-- Which of two equally near neighbours is taken. -/
inductive Tie where
  | up
  | even
deriving DecidableEq, Repr

/-- The decimals that read back as one number: those between `low / den` and `high / den`, the ends
included when `closed`. -/
structure Interval where
  low : Nat
  value : Nat
  high : Nat
  den : Nat
  closed : Bool

/-- Half the gap to each neighbour belongs to the number, and the ends go to the even mantissa. Below
a power of two the gap is half as wide. -/
def Dyadic.interval (d : Dyadic) : Interval :=
  let (num, den) := d.quotient
  let unit := Nat.pow 2 d.exponent.toNat
  let narrow := d.mantissa = Nat.pow 2 storedBits ∧ leastExponent < d.exponent
  { low := 4 * num - (if narrow then unit else 2 * unit)
    value := 4 * num
    high := 4 * num + 2 * unit
    den := 4 * den
    closed := d.mantissa % 2 = 0 }

namespace Interval

/-- Both sides of a comparison with a multiple of `10 ^ grid`, with no fraction left. -/
def onGrid (i : Interval) (grid : Int) : Interval :=
  let up := Nat.pow 10 (-grid).toNat
  let down := Nat.pow 10 grid.toNat
  { i with low := i.low * up, value := i.value * up, high := i.high * up, den := i.den * down }

/-- Whether `count` units lie in the interval, its unit being one. -/
def holds (i : Interval) (count : Nat) : Bool :=
  let point := count * i.den
  if i.closed then i.low ≤ point && point ≤ i.high else i.low < point && point < i.high

/-- The multiple of the grid nearest to the value among its two neighbours that lie in the interval. -/
def nearest? (i : Interval) (tie : Tie) : Option Nat :=
  let below := i.value / i.den
  let above := below + 1
  match i.holds below, i.holds above with
  | false, false => none
  | true, false => some below
  | false, true => some above
  | true, true =>
    let twice := 2 * (i.value % i.den)
    if twice < i.den then some below
    else if i.den < twice then some above
    else match tie with
      | .up => some above
      | .even => some (below + below % 2)

end Interval

/-- The exponent of the leading decimal digit of `num / den`. -/
def decimalExponent (num den : Nat) : Int :=
  if den ≤ num then ((Nat.toDigits 10 (num / den)).length : Int) - 1
  else -((Nat.toDigits 10 ((den - 1) / num)).length : Int)

def trimZeros : Nat → Scaled → Scaled
  | 0, s => s
  | n + 1, s => if s.digits % 10 = 0 then trimZeros n ⟨s.digits / 10, s.exponent + 1⟩ else s

/-- The first grid, from coarse to fine, on which a neighbour of the value reads back. -/
def firstHit (tie : Tie) (i : Interval) (top : Int) : Nat → Nat → Scaled
  | 0, _ => ⟨0, 0⟩
  | n + 1, k =>
    let grid := top + 1 - (k : Int)
    match (i.onGrid grid).nearest? tie with
    | some c => trimZeros k ⟨c, grid⟩
    | none => firstHit tie i top n (k + 1)

/-- The shortest decimal that reads back, and of those the nearest. Seventeen digits are always
enough. -/
def shortest (tie : Tie) (d : Dyadic) : Scaled :=
  if d.mantissa = 0 then ⟨0, 0⟩
  else
    let (num, den) := d.quotient
    firstHit tie d.interval (decimalExponent num den) 17 1

end Lox.Decimal
