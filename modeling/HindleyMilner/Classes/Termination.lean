import HindleyMilner.Classes.Rules
import HindleyMilner.Solver.Descent

/-! The solver comes to an end on types with classes. Every variable counts, and
the size of a type is the number of its nodes. -/
namespace HindleyMilner.Classes

namespace Ty

theorem subst1_app (x : Name) (u f a : Ty) :
    subst1 x u (app f a) = app (subst1 x u f) (subst1 x u a) := rfl

/-- Putting a type for a variable changes no type that does not
mention the variable. -/
theorem subst1_of_not_mem {x : Name} {u t : Ty} (h : x ∉ t.freeVars) : subst1 x u t = t := by
  induction t with
  | var y k =>
      have hNe : ¬y = x := fun hEq => h (List.mem_singleton.mpr hEq.symm)
      simp [subst1, HindleyMilner.subst, subst, Assignment.single, hNe]
  | con c k => rfl
  | app f a ihf iha =>
      rw [freeVars, List.mem_append, not_or] at h
      rw [subst1_app, ihf h.1, iha h.2]

/-- A variable of a type in which one variable was replaced comes from that type
or from what was put into it. -/
theorem mem_freeVars_of_subst1 {x y : Name} {u t : Ty} (h : y ∈ (subst1 x u t).freeVars) :
    y ∈ t.freeVars ∨ y ∈ u.freeVars := by
  induction t with
  | var z k =>
      simp only [subst1, HindleyMilner.subst, subst, Assignment.single] at h
      split at h
      · exact .inr h
      · exact .inl h
  | con c k => cases h
  | app f a ihf iha =>
      rw [subst1_app, freeVars, List.mem_append] at h
      rw [freeVars, List.mem_append]
      rcases h with h | h
      · exact (ihf h).imp_left .inl
      · exact (iha h).imp_left .inr

/-- Definitions are expanded in the function and in the argument of an
application. -/
theorem unwind_app (defs : List (Name × Ty)) (f a : Ty) :
    Context.unwind (L := language) defs (app f a) =
      app (Context.unwind (L := language) defs f) (Context.unwind (L := language) defs a) :=
  Context.unwind_binary (L := language) app subst1_app defs f a

end Ty

instance : Sized language where
  weight := Ty.size
  shapeVars := Ty.freeVars
  specialSides g := nomatch g
  specialRank g := nomatch g
  weight_pos := Ty.size_pos
  mem_shapeVars {t x} h := by
    cases t with
    | var y k => cases h; exact List.mem_singleton.mpr rfl
    | con c k => cases h
    | app f a => cases h
  eq_of_mem_freeVars {t x y} h hy := by
    cases t with
    | var z k => cases h; exact List.mem_singleton.mp hy
    | con c k => cases h
    | app f a => cases h
  mem_shapeVars_subst1 := Ty.mem_freeVars_of_subst1
  weight_unwind_le u defs h := Nat.le_of_eq (by rw [Ty.subst1_of_not_mem h])

/-- Two types neither of which is a variable are taken apart into nothing, if
they are one constructor, or into the equations of functions and arguments. -/
theorem decompose_eq_ok {l r : Ty} {goals : List (Goal language)} (h : decompose l r = .ok goals) :
    goals = [] ∨ ∃ f a g b, l = .app f a ∧ r = .app g b ∧ goals = [.eq f g, .eq a b] := by
  unfold decompose at h
  split at h
  · split at h
    · cases h
      exact .inl rfl
    · cases h
  · cases h
    exact .inr ⟨_, _, _, _, rfl, rfl, rfl⟩
  · cases h

instance : Descending language where
  decompose_shapeVars {l r goals} h g hg x hx := by
    rcases decompose_eq_ok h with rfl | ⟨f, a, f', a', rfl, rfl, rfl⟩
    · cases hg
    · simp only [List.mem_cons, List.not_mem_nil, or_false] at hg
      simp only [Goal.shapeVars, Goal.sides, Sized.shapeVars, Ty.freeVars, List.mem_append]
      rcases hg with rfl | rfl <;>
        simp only [Goal.shapeVars, Goal.sides, Sized.shapeVars, List.mem_append] at hx <;> grind
  decompose_weight {l r goals} h defs := by
    rcases decompose_eq_ok h with rfl | ⟨f, a, f', a', rfl, rfl, rfl⟩
    · exact Nat.add_pos_left (Sized.weight_pos (L := language) _) _
    · simp only [List.map_cons, List.map_nil, Context.weight, Entry.ofGoal, Constraint.ofGoal,
        Entry.weight, Entry.definition?, Option.toList_none, List.append_nil, Goal.weight,
        Goal.sides, Ty.unwind_app, Sized.weight, Ty.size]
      omega
  flexRigid {f deps eq g made} _ _ _ h := by
    simp only [Rules.flexRigid, bind, Except.bind] at h
    split at h
    · cases h
    · cases h
  special {f deps g t} _ _ := nomatch g

end HindleyMilner.Classes
