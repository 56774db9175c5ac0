import HindleyMilner.Substitution
import HindleyMilner.Text.Pretty

/-! Simple types: variables and arrows, all of one kind. -/
namespace HindleyMilner.Simple

inductive Kind where
  | type
deriving DecidableEq, Repr

instance : Text.Pretty Kind := ⟨fun _ _ => Text.Token.star⟩

inductive Ty where
  | var (x : Name)
  | arrow (domain codomain : Ty)
deriving DecidableEq, Repr

namespace Ty

def arrows (domains : List Ty) (codomain : Ty) : Ty := domains.foldr arrow codomain

def asVar? : Ty → Option Name
  | var x => some x
  | arrow .. => none

def freeVars : Ty → List Name
  | var x => [x]
  | arrow a b => a.freeVars ++ b.freeVars

/-- Replace all assigned variables at once. -/
def subst (σ : Assignment Ty) : Ty → Ty
  | var x => (σ x).getD (var x)
  | arrow a b => arrow (a.subst σ) (b.subst σ)

instance : FreeVars Ty := ⟨freeVars⟩
instance : Substitute Ty Ty := ⟨subst⟩

open Text in
def toDoc (p : Position) : Ty → Doc
  | var x => Doc.styled .typeVariable x
  | arrow a b => arrowDoc p (fun q => a.toDoc q) (fun q => b.toDoc q)

instance : Text.Pretty Ty := ⟨toDoc⟩

end Ty

end HindleyMilner.Simple
