import HindleyMilner.Substitution
import HindleyMilner.Text.Pretty
import HindleyMilner.Units.Exponents

/-! Types with units of measure: the syntax and its printer. -/
namespace HindleyMilner.Units

inductive Kind where
  /-- The kind of the types that values have. -/
  | value
  /-- The kind of units of measure. -/
  | unit
deriving DecidableEq, Repr

instance : Text.Pretty Kind where
  doc
    | _, .value => Text.Token.star
    | _, .unit => Text.Token.hash

/-- A type. Units are products of powers of variables and primitive units. -/
inductive Ty where
  | var (x : Name)
  | arrow (domain codomain : Ty)
  /-- Floating point numbers that carry a unit. -/
  | float (unit : Ty)
  /-- The unit of dimensionless numbers. -/
  | one
  | mul (left right : Ty)
  | pow (base : Ty) (exponent : Exponent)
  /-- A primitive unit. -/
  | prim (p : Name)
deriving DecidableEq, Repr

namespace Ty

def arrows (domains : List Ty) (codomain : Ty) : Ty := domains.foldr arrow codomain

def asVar? : Ty → Option Name
  | var x => some x
  | _ => none

def freeVars : Ty → List Name
  | var x => [x]
  | arrow a b => a.freeVars ++ b.freeVars
  | float u => u.freeVars
  | one => []
  | mul a b => a.freeVars ++ b.freeVars
  | pow a _ => a.freeVars
  | prim _ => []

instance : FreeVars Ty := ⟨freeVars⟩

open Text in
/-- The document of a type. A first power is written as its base. -/
def toDoc (p : Position) : Ty → Doc
  | var x => Doc.styled .typeVariable x
  | prim u => Doc.styled .constant u
  | one => Doc.styled .constant "1"
  | arrow a b => arrowDoc p (fun q => a.toDoc q) (fun q => b.toDoc q)
  | float u =>
      Doc.styled .constant "F" ++ Token.openAngle ++ u.toDoc .top ++ Token.closeAngle
  | mul a b => parensIf (p = .argument) (a.toDoc .left ++ Token.space ++ b.toDoc .left)
  | pow a e =>
      if e = 1 then a.toDoc p
      else a.toDoc .argument ++ Token.caret ++ Doc.text e.toInt.repr

instance : Text.Pretty Ty := ⟨toDoc⟩

end Ty

end HindleyMilner.Units
