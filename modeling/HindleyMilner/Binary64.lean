import HindleyMilner.Decimal.Shortest

/-! Floating point literals in the 64-bit binary format. A literal is never
computed with: it is only written out again. -/
namespace HindleyMilner

/-- A value of the 64-bit binary floating point format, as its bits. -/
structure Binary64 where
  bits : UInt64
deriving DecidableEq, Repr

namespace Binary64

def isNegative (x : Binary64) : Bool := x.bits >>> 63 = 1

def exponentField (x : Binary64) : Nat := ((x.bits >>> 52) &&& 0x7FF).toNat

/-- The stored bits of the significand. -/
def fractionField (x : Binary64) : Nat := (x.bits &&& 0xFFFFFFFFFFFFF).toNat

/-- The absolute value of a finite value. -/
def absolute (x : Binary64) : Decimal.Binary :=
  match x.exponentField with
  | 0 => ⟨x.fractionField, -1074, false⟩
  | e + 1 => ⟨0x10000000000000 + x.fractionField, (e : Int) - 1074, x.fractionField = 0 && e ≠ 0⟩

/-- The text of a value: the shortest decimal that reads back, in positional
notation. A zero keeps its sign, and a value that is not a number has none. -/
def text (x : Binary64) : String :=
  let sign := if x.isNegative then "-" else ""
  if x.exponentField = 0x7FF then
    if x.fractionField = 0 then sign ++ "inf" else "NaN"
  else if x.absolute.significand = 0 then sign ++ "0"
  else sign ++ x.absolute.shortest.positional

end Binary64

end HindleyMilner
