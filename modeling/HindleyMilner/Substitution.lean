import HindleyMilner.Name

/-! Type variables: where they occur and what replaces them. Substitution is
simultaneous, so a replacement that mentions a replaced variable is left alone. -/
namespace HindleyMilner

/-- What replaces each variable, if anything does. -/
abbrev Assignment (τ : Type) := Name → Option τ

namespace Assignment

def single {τ : Type} (x : Name) (t : τ) : Assignment τ := fun y => if y = x then some t else none

/-- The assignment listed by pairs. A later pair wins over an earlier one
for the same variable. -/
def ofPairs {τ : Type} (pairs : List (Name × τ)) : Assignment τ := fun x => pairs.reverse.lookup x

end Assignment

/-- Values in which type variables occur. -/
class FreeVars (α : Type) where
  /-- The occurrences of free type variables. -/
  freeVars : α → List Name

export FreeVars (freeVars)

def mentions {α : Type} [FreeVars α] (a : α) (x : Name) : Bool := x ∈ freeVars a

/-- Values in which types can be put for variables. -/
class Substitute (τ α : Type) where
  /-- Replace all assigned variables at once. -/
  subst : Assignment τ → α → α

export Substitute (subst)

def subst1 {τ α : Type} [Substitute τ α] (x : Name) (t : τ) (a : α) : α :=
  subst (Assignment.single x t) a

instance : FreeVars Empty := ⟨fun a => nomatch a⟩
instance {τ : Type} : Substitute τ Empty := ⟨fun _ a => a⟩

instance {α : Type} [FreeVars α] : FreeVars (List α) := ⟨fun as => as.flatMap freeVars⟩
instance {τ α : Type} [Substitute τ α] : Substitute τ (List α) := ⟨fun σ as => as.map (subst σ)⟩

end HindleyMilner
