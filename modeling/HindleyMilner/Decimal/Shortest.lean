/-! The shortest decimal that stands for a binary floating point value. The
reals that round to a value form an interval around it. Of the decimals in that
interval the one with the fewest digits is chosen, among those of equal length
the nearest, and of two equally near ones the greater. All comparisons are made
in exact integer arithmetic. -/
namespace HindleyMilner.Decimal

/-- A positive binary value `significand * 2 ^ power`. -/
structure Binary where
  significand : Nat
  power : Int
  /-- Whether the next smaller value is half as far away as the next greater. -/
  narrowBelow : Bool
deriving DecidableEq, Repr

/-- The decimal `digits * 10 ^ exponent`. -/
structure Scaled where
  digits : Nat
  exponent : Int
deriving DecidableEq, Repr

/-- Compare `a * 10 ^ i` with `b * 2 ^ j`. -/
def compareScaled (a : Nat) (i : Int) (b : Nat) (j : Int) : Ordering :=
  compare (a * Nat.pow 10 i.toNat * Nat.pow 2 (-j).toNat)
    (b * Nat.pow 2 j.toNat * Nat.pow 10 (-i).toNat)

namespace Binary

/-- Whether a decimal rounds to the value. The interval reaches half way to both
neighbours, and its ends belong to it when the significand is even. -/
def readsBack (x : Binary) (d : Scaled) : Bool :=
  let low := 4 * x.significand - if x.narrowBelow then 1 else 2
  let high := 4 * x.significand + 2
  let ends := x.significand % 2 = 0
  match compareScaled d.digits d.exponent low (x.power - 2),
      compareScaled d.digits d.exponent high (x.power - 2) with
  | .gt, .lt => true
  | .eq, .lt => ends
  | .gt, .eq => ends
  | _, _ => false

/-- The numerator of the value over `denominator`. -/
def numerator (x : Binary) : Nat := x.significand * Nat.pow 2 x.power.toNat

/-- The power of two that divides the value's numerator. -/
def denominator (x : Binary) : Nat := Nat.pow 2 (-x.power).toNat

def digitCount (n : Nat) : Nat := (Nat.toDigits 10 n).length

/-- The least `k` with the value below `10 ^ k`. -/
def magnitude (x : Binary) : Int :=
  if x.denominator ≤ x.numerator then digitCount (x.numerator / x.denominator)
  else 1 - (digitCount ((x.denominator - 1) / x.numerator) : Int)

/-- The greatest multiple of `10 ^ g` that is at most the value, counted
in steps of `10 ^ g`. -/
def floorAt (x : Binary) (g : Int) : Nat :=
  x.numerator * Nat.pow 10 (-g).toNat / (x.denominator * Nat.pow 10 g.toNat)

/-- Whether the value lies below the middle of its two neighbours on the grid of
multiples of `10 ^ g`. -/
def nearerBelow (x : Binary) (g : Int) : Bool :=
  2 * (x.numerator * Nat.pow 10 (-g).toNat) <
    (2 * x.floorAt g + 1) * (x.denominator * Nat.pow 10 g.toNat)

/-- The decimal on the grid of multiples of `10 ^ g` that reads back, if one of
the value's two neighbours there does. -/
def onGrid? (x : Binary) (g : Int) : Option Scaled :=
  let below : Scaled := ⟨x.floorAt g, g⟩
  let above : Scaled := ⟨x.floorAt g + 1, g⟩
  match x.readsBack below, x.readsBack above with
  | true, true => some (if x.nearerBelow g then below else above)
  | true, false => some below
  | false, true => some above
  | false, false => none

def exact (x : Binary) : Scaled :=
  if 0 ≤ x.power then ⟨x.significand * Nat.pow 2 x.power.toNat, 0⟩
  else ⟨x.significand * Nat.pow 5 (-x.power).toNat, x.power⟩

/-- The shortest decimal that reads back: the grid gets finer by one digit at a
time. Seventeen digits are enough for a significand of 53 bits. -/
def shortest (x : Binary) : Scaled :=
  ((List.range 17).findSome? fun n => x.onGrid? (x.magnitude - (n + 1 : Nat))).getD x.exact

end Binary

namespace Scaled

/-- The text of a decimal in positional notation, without an exponent and
without a point when the value is integral. -/
def positional (d : Scaled) : String :=
  let digits := Nat.toDigits 10 d.digits
  if 0 ≤ d.exponent then
    String.ofList (digits ++ List.replicate d.exponent.toNat '0')
  else
    let places := (-d.exponent).toNat
    let padded := List.replicate (places + 1 - digits.length) '0' ++ digits
    let (whole, fraction) := padded.splitAt (padded.length - places)
    let fraction := (fraction.reverse.dropWhile (· = '0')).reverse
    String.ofList (if fraction.isEmpty then whole else whole ++ '.' :: fraction)

end Scaled

end HindleyMilner.Decimal
