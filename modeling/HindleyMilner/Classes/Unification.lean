import HindleyMilner.Classes.Subst
import HindleyMilner.Total

/-! Unification of types. Equations are solved one after the other, and a
variable that gets bound is replaced in all that follow. Each binding removes a
variable and each decomposition a node, so the list runs out. -/
namespace HindleyMilner.Classes

abbrev Equations := List (Ty × Ty)

namespace Equations

def vars (eqs : Equations) : List Name := eqs.flatMap fun e => e.1.freeVars ++ e.2.freeVars

def varCount (eqs : Equations) : Nat := (Name.distinct eqs.vars).length

def size (eqs : Equations) : Nat := total (fun e => e.1.size + e.2.size) eqs

/-- Replace one variable on both sides of every equation. -/
def subst1 (x : Name) (t : Ty) (eqs : Equations) : Equations :=
  eqs.map fun e => (HindleyMilner.subst1 x t e.1, HindleyMilner.subst1 x t e.2)

theorem vars_cons (l r : Ty) (eqs : Equations) :
    vars ((l, r) :: eqs) = l.freeVars ++ r.freeVars ++ vars eqs := rfl

end Equations

namespace Ty

theorem size_pos (t : Ty) : 0 < t.size := by
  cases t <;> simp [size]

/-- A variable is gone once it is replaced by a type that does not mention it,
and nothing but the replacement's variables is new. -/
theorem mem_freeVars_subst1 {x y : Name} {u t : Ty} (hx : x ∉ u.freeVars)
    (hy : y ∈ (subst1 x u t).freeVars) : y ≠ x ∧ (y ∈ t.freeVars ∨ y ∈ u.freeVars) := by
  induction t with
  | var z k =>
      simp only [subst1, HindleyMilner.subst, subst, Assignment.single] at hy
      by_cases hz : z = x
      · rw [if_pos hz] at hy
        exact ⟨fun h => hx (h ▸ hy), .inr hy⟩
      · rw [if_neg hz] at hy
        obtain rfl := List.mem_singleton.mp hy
        exact ⟨hz, .inl (List.mem_singleton.mpr rfl)⟩
  | con c k => simp [subst1, HindleyMilner.subst, subst, freeVars] at hy
  | app f a ihf iha =>
      rw [show (subst1 x u (app f a)).freeVars =
        (subst1 x u f).freeVars ++ (subst1 x u a).freeVars from rfl, List.mem_append] at hy
      rcases hy with hy | hy
      · obtain ⟨hne, hmem⟩ := ihf hy
        exact ⟨hne, hmem.imp_left fun h => List.mem_append.mpr (.inl h)⟩
      · obtain ⟨hne, hmem⟩ := iha hy
        exact ⟨hne, hmem.imp_left fun h => List.mem_append.mpr (.inr h)⟩

end Ty

namespace Equations

/-- A variable that is replaced throughout a list of equations by a type
without it is gone from all of them, and the type's own variables are
all that can be new. -/
theorem mem_vars_subst1 {x y : Name} {u : Ty} {eqs : Equations} (hx : x ∉ u.freeVars)
    (hy : y ∈ (eqs.subst1 x u).vars) : y ≠ x ∧ (y ∈ eqs.vars ∨ y ∈ u.freeVars) := by
  simp only [vars, subst1, List.mem_flatMap, List.mem_map] at hy
  obtain ⟨_, ⟨e, he, rfl⟩, hy⟩ := hy
  have mem_vars : ∀ {z}, z ∈ e.1.freeVars ∨ z ∈ e.2.freeVars → z ∈ eqs.vars := fun h =>
    List.mem_flatMap.mpr ⟨e, he, List.mem_append.mpr h⟩
  rcases List.mem_append.mp hy with hy | hy
  · obtain ⟨hne, hmem⟩ := Ty.mem_freeVars_subst1 hx hy
    exact ⟨hne, hmem.imp_left fun h => mem_vars (.inl h)⟩
  · obtain ⟨hne, hmem⟩ := Ty.mem_freeVars_subst1 hx hy
    exact ⟨hne, hmem.imp_left fun h => mem_vars (.inr h)⟩

/-- Binding a variable of the first equation leaves fewer variables behind. -/
theorem varCount_subst1_lt {x : Name} {l r u : Ty} {eqs : Equations} (hx : x ∉ u.freeVars)
    (hvar : x ∈ l.freeVars ++ r.freeVars)
    (hu : ∀ y ∈ u.freeVars, y ∈ l.freeVars ++ r.freeVars) :
    varCount (eqs.subst1 x u) < varCount ((l, r) :: eqs) := by
  refine Name.length_distinct_lt (List.mem_append.mpr (.inl hvar)) fun y hy => ?_
  obtain ⟨hne, hmem⟩ := mem_vars_subst1 hx hy
  exact ⟨hne, hmem.elim (fun h => List.mem_append.mpr (.inr h))
    (fun h => List.mem_append.mpr (.inl (hu y h)))⟩

/-- Dropping the first equation leaves fewer nodes and no new variable. -/
theorem drop_lt (l r : Ty) (eqs : Equations) :
    Prod.Lex (· < ·) (· < ·) (eqs.varCount, eqs.size)
      (varCount ((l, r) :: eqs), size ((l, r) :: eqs)) := by
  have hle : eqs.varCount ≤ varCount ((l, r) :: eqs) :=
    Name.length_distinct_le fun _ hy => List.mem_append.mpr (.inr hy)
  have := l.size_pos
  rcases Nat.lt_or_eq_of_le hle with h | h
  · exact .left _ _ h
  · rw [h]
    exact .right _ (by simp only [size, total_cons]; omega)

/-- Taking two applications apart leaves fewer nodes and the same variables. -/
theorem decompose_lt (f a g b : Ty) (eqs : Equations) :
    Prod.Lex (· < ·) (· < ·) (varCount ((f, g) :: (a, b) :: eqs), size ((f, g) :: (a, b) :: eqs))
      (varCount ((.app f a, .app g b) :: eqs), size ((.app f a, .app g b) :: eqs)) := by
  have hle : varCount ((f, g) :: (a, b) :: eqs) ≤ varCount ((.app f a, .app g b) :: eqs) :=
    Name.length_distinct_le fun y hy => by
      simp only [vars_cons, Ty.freeVars, List.mem_append] at hy ⊢
      grind
  rcases Nat.lt_or_eq_of_le hle with h | h
  · exact .left _ _ h
  · rw [h]
    exact .right _ (by simp only [size, total_cons, Ty.size]; omega)

/-- The most general substitution that solves all the equations, if there is
one. A variable is bound only to a type of the kind it carries that does not
mention it, and constructors are compared by name. -/
def unify : Equations → Option Subst
  | [] => some .empty
  | (.var x k, t) :: eqs =>
      if t.asVar? = some x then unify eqs
      else if _h : t.hasKind k ∧ x ∉ t.freeVars then
        (unify (subst1 x t eqs)).map fun s => s.compose (.single x t)
      else none
  | (t, .var x k) :: eqs =>
      if _h : t.hasKind k ∧ x ∉ t.freeVars then
        (unify (subst1 x t eqs)).map fun s => s.compose (.single x t)
      else none
  | (.con a _, .con b _) :: eqs => if a = b then unify eqs else none
  | (.app f a, .app g b) :: eqs => unify ((f, g) :: (a, b) :: eqs)
  | (.con .., .app ..) :: _ => none
  | (.app .., .con ..) :: _ => none
termination_by eqs => (eqs.varCount, eqs.size)
decreasing_by
  · exact drop_lt _ _ _
  · exact .left _ _ (varCount_subst1_lt (l := .var x k) (r := t) _h.2 (by simp [Ty.freeVars])
      fun y hy => List.mem_append.mpr (.inr hy))
  · exact .left _ _ (varCount_subst1_lt (l := t) (r := .var x k) _h.2 (by simp [Ty.freeVars])
      fun y hy => List.mem_append.mpr (.inl hy))
  · exact drop_lt _ _ _
  · exact decompose_lt _ _ _ _ _

end Equations

namespace Ty

/-- The most general unifier of two types, if there is one. -/
def unify (l r : Ty) : Option Subst := Equations.unify [(l, r)]

/-- Whether some instantiation makes both types equal. -/
def overlaps (l r : Ty) : Bool := (l.unify r).isSome

end Ty

end HindleyMilner.Classes
