import HindleyMilner.Simple.Language
import HindleyMilner.Solver.Descent

/-! The solver comes to an end on simple types. Every variable counts, and the
size of a type is the number of its nodes. -/
namespace HindleyMilner.Simple

namespace Ty

def size : Ty → Nat
  | var _ => 1
  | arrow a b => a.size + b.size + 1

theorem size_pos (t : Ty) : 0 < t.size := by
  cases t <;> simp [size]

theorem subst1_arrow (x : Name) (u a b : Ty) :
    subst1 x u (arrow a b) = arrow (subst1 x u a) (subst1 x u b) := rfl

/-- Putting a type for a variable changes no type that does not
mention the variable. -/
theorem subst1_of_not_mem {x : Name} {u t : Ty} (h : x ∉ t.freeVars) : subst1 x u t = t := by
  induction t with
  | var y =>
      have hNe : ¬y = x := fun hEq => h (List.mem_singleton.mpr hEq.symm)
      simp [subst1, HindleyMilner.subst, subst, Assignment.single, hNe]
  | arrow a b iha ihb =>
      rw [freeVars, List.mem_append, not_or] at h
      rw [subst1_arrow, iha h.1, ihb h.2]

/-- A variable of a type in which one variable was replaced comes from that type
or from what was put into it. -/
theorem mem_freeVars_subst1 {x y : Name} {u t : Ty} (h : y ∈ (subst1 x u t).freeVars) :
    y ∈ t.freeVars ∨ y ∈ u.freeVars := by
  induction t with
  | var z =>
      simp only [subst1, HindleyMilner.subst, subst, Assignment.single] at h
      split at h
      · exact .inr h
      · exact .inl h
  | arrow a b iha ihb =>
      rw [subst1_arrow, freeVars, List.mem_append] at h
      rw [freeVars, List.mem_append]
      rcases h with h | h
      · exact (iha h).imp_left .inl
      · exact (ihb h).imp_left .inr

end Ty

instance : Sized language where
  weight := Ty.size
  shapeVars := Ty.freeVars
  specialSides g := nomatch g
  specialRank g := nomatch g
  weight_pos := Ty.size_pos
  mem_shapeVars {t x} h := by
    cases t with
    | var y => cases h; exact List.mem_singleton.mpr rfl
    | arrow a b => cases h
  eq_of_mem_freeVars {t x y} h hy := by
    cases t with
    | var z => cases h; exact List.mem_singleton.mp hy
    | arrow a b => cases h
  mem_shapeVars_subst1 := Ty.mem_freeVars_subst1
  weight_unwind_le u defs h := Nat.le_of_eq (by rw [Ty.subst1_of_not_mem h])

/-- Types that are no variables are taken apart only if both are arrows, into
the equations of their sides. -/
theorem decompose_eq_ok {l r : Ty} {goals : List (Goal language)} (h : decompose l r = .ok goals) :
    ∃ a b c d, l = .arrow a b ∧ r = .arrow c d ∧ goals = [.eq a c, .eq b d] := by
  unfold decompose at h
  split at h
  · cases h
    exact ⟨_, _, _, _, rfl, rfl, rfl⟩
  · cases h

instance : Descending language where
  decompose_shapeVars {l r goals} h g hg x hx := by
    obtain ⟨a, b, c, d, rfl, rfl, rfl⟩ := decompose_eq_ok h
    simp only [List.mem_cons, List.not_mem_nil, or_false] at hg
    simp only [Goal.shapeVars, Goal.sides, Sized.shapeVars, Ty.freeVars, List.mem_append]
    rcases hg with rfl | rfl <;>
      simp only [Goal.shapeVars, Goal.sides, Sized.shapeVars, List.mem_append] at hx <;> grind
  decompose_weight {l r goals} h defs := by
    obtain ⟨a, b, c, d, rfl, rfl, rfl⟩ := decompose_eq_ok h
    have hUnwind := Context.unwind_binary (L := language) Ty.arrow Ty.subst1_arrow
    simp only [List.map_cons, List.map_nil, Context.weight, Entry.ofGoal, Constraint.ofGoal,
      Entry.weight, Entry.definition?, Option.toList_none, List.append_nil, Goal.weight,
      Goal.sides, hUnwind, Sized.weight, Ty.size]
    omega
  flexRigid _ _ _ h := nomatch h
  special {f deps g t} _ _ := nomatch g

end HindleyMilner.Simple
