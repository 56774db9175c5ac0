import HindleyMilner.Classes.Type

/-! Finite substitutions of types, one-way matching and unification. -/
namespace HindleyMilner.Classes

/-- A finite substitution, applied to all its variables at once. -/
structure Subst where
  map : NameMap Ty
deriving DecidableEq

namespace Subst

def empty : Subst := ⟨∅⟩

def single (x : Name) (t : Ty) : Subst := ⟨(∅ : NameMap Ty).insert x t⟩

def isEmpty (s : Subst) : Bool := s.map.isEmpty

def toAssignment (s : Subst) : Assignment Ty := fun x => s.map[x]?

/-- The substituted variables with their types, in name order. -/
def toList (s : Subst) : List (Name × Ty) := s.map.toList

def apply {α : Type} [Substitute Ty α] (s : Subst) (a : α) : α :=
  HindleyMilner.subst s.toAssignment a

/-- First the second substitution, then the first. -/
def compose (s t : Subst) : Subst := ⟨s.map ∪ t.map.map fun _ u => s.apply u⟩

/-- The union of two substitutions that agree where both are defined. -/
def merge (s t : Subst) : Option Subst :=
  if t.map.toList.all fun p => s.map[p.1]?.all (· = p.2) then some ⟨s.map ∪ t.map⟩ else none

end Subst

namespace Ty

/-- One-way matching: a substitution of the pattern's variables that makes it
the target. Variables are bound to types of the kind they carry, and
constructors are compared by name. -/
def matchWith : Ty → Ty → Option Subst
  | var x k, t => if t.hasKind k then some (.single x t) else none
  | con a _, con b _ => if a = b then some .empty else none
  | app f a, app g b =>
      match f.matchWith g, a.matchWith b with
      | some s, some t => s.merge t
      | _, _ => none
  | _, _ => none

def size : Ty → Nat
  | var .. => 1
  | con .. => 1
  | app f a => f.size + a.size + 1

end Ty

end HindleyMilner.Classes
