import HindleyMilner.Text.Pretty

/-! Kinds of constructor types. -/
namespace HindleyMilner.Classes

inductive Kind where
  /-- The kind of the types that values have. -/
  | data
  | arrow (domain codomain : Kind)
deriving DecidableEq, Repr

namespace Kind

/-- The kind of a constructor of data types. -/
def constructor : Nat → Kind
  | 0 => data
  | arity + 1 => arrow data (constructor arity)

open Text in
def toDoc (p : Position) : Kind → Doc
  | data => Token.star
  | arrow a b => arrowDoc p (fun q => a.toDoc q) (fun q => b.toDoc q)

instance : Text.Pretty Kind := ⟨toDoc⟩

end Kind

end HindleyMilner.Classes
