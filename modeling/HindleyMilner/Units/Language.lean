import HindleyMilner.Context.Entry
import HindleyMilner.Units.Measure

/-! The language of types with units. Units are equated as elements of an
Abelian group, so equations between them are goals of their own. -/
namespace HindleyMilner.Units

/-- What constraints ask for beside the equality of types. -/
inductive UnitGoal where
  /-- A variable is to equal a type in which every unit is a variable that occurs
  nowhere else. -/
  | hull (x : Name) (shape : Ty)
  /-- A unit is to be that of dimensionless numbers. -/
  | identity (unit : Measure)

namespace UnitGoal

open Text

def toDoc : UnitGoal → Doc
  | hull x shape =>
      doc .top (Ty.var x) ++ Token.spaced Token.equation ++ Doc.styled .tag "hull"
        ++ Token.space ++ doc .top shape
  | identity unit => doc .top unit ++ Token.spaced Token.equation ++ Doc.text "1"

instance : Pretty UnitGoal := ⟨fun _ => toDoc⟩

end UnitGoal

abbrev language : Language where
  Kind := Kind
  Ty := Ty
  Pred := Empty
  Decl := Empty
  Special := UnitGoal
  valueKind := .value
  var x _ := .var x
  arrow := .arrow
  asVar? := Ty.asVar?

end HindleyMilner.Units
