import HindleyMilner.Simple.Type
import HindleyMilner.Solver.Rules
import HindleyMilner.Term

/-! The language of simple types: no predicates, no declarations, and no
constraints beside equations. -/
namespace HindleyMilner.Simple

abbrev language : Language where
  Kind := Kind
  Ty := Ty
  Pred := Empty
  Decl := Empty
  Special := Empty
  valueKind := .type
  var x _ := .var x
  arrow := .arrow
  asVar? := Ty.asVar?

/-- Two arrows are equal if their domains and their codomains are. -/
def decompose : Ty → Ty → Except TypeError (List (Goal language))
  | .arrow a b, .arrow c d => .ok [.eq a c, .eq b d]
  | l, r => .error (.mismatch (Text.plain l) (Text.plain r))

instance : Rules language where
  decompose := decompose
  flexRigid _ _ _ := .ok none
  special _ _ g := nomatch g
  literal value := .error (.unsupportedTerm (Text.plain (Term.float value)))
  reduce ps _ := .ok ps
  finish := .ok

end HindleyMilner.Simple
