import HindleyMilner.Classes.Termination
import HindleyMilner.Proofs.InternalErrors

/-! The free variables of types with classes, and what the rules of the language do to
them. -/
namespace HindleyMilner.Classes

open Context

namespace Ty

/-- A variable of a type after a substitution is one of what was put for a
variable, or a variable that was not replaced. -/
theorem mem_freeVars_subst {σ : Assignment Ty} {t : Ty} {y : Name} (h : y ∈ (t.subst σ).freeVars) :
    ∃ x ∈ t.freeVars, (∃ u, σ x = some u ∧ y ∈ u.freeVars) ∨ (σ x = none ∧ y = x) := by
  induction t with
  | var x k =>
      refine ⟨x, List.mem_singleton.mpr rfl, ?_⟩
      rw [subst] at h
      cases hσ : σ x with
      | some u =>
          rw [hσ] at h
          exact .inl ⟨u, rfl, h⟩
      | none =>
          rw [hσ] at h
          exact .inr ⟨rfl, List.mem_singleton.mp h⟩
  | con c k => cases h
  | app f a ihf iha =>
      rcases List.mem_append.mp h with h | h
      · obtain ⟨x, hx, hSource⟩ := ihf h
        exact ⟨x, List.mem_append_left _ hx, hSource⟩
      · obtain ⟨x, hx, hSource⟩ := iha h
        exact ⟨x, List.mem_append_right _ hx, hSource⟩

end Ty

instance : Lexical language where
  asVar_var _ _ := rfl
  mem_freeVars := Sized.mem_shapeVars (L := language)
  freeVars_var _ hy := List.mem_singleton.mp hy
  freeVars_arrow hx := hx
  freeVars_subst _ hy := Ty.mem_freeVars_subst hy
  freeVars_decompose {l r goals} h g hg x hx := by
    rcases decompose_eq_ok h with rfl | ⟨f, a, f', a', rfl, rfl, rfl⟩
    · cases hg
    · simp only [List.mem_cons, List.not_mem_nil, or_false] at hg
      rcases hg with rfl | rfl
      · exact mem_of_mem_sides (.inl hx)
      · exact mem_of_mem_sides (.inr hx)
  freeVars_literal h := nomatch h

/-- Types with classes have no constraints but equations, and their variables
walk. -/
theorem equationsOnly : EquationsOnly language where
  special g := nomatch g
  flexRigid {supply deps eq made} h := by
    obtain ⟨-, -, h⟩ := bind_eq_ok.mp h
    cases h

/-- Every step keeps the variables of a context in scope. -/
theorem stepsRefine_scoping : StepsRefine (Discipline.scoping language) (Model.onePoint language) :=
  equationsOnly.stepsRefine _ _

/-- Types fail to have a kind only with errors of the rules. -/
theorem Ty.kind_failsOnly (t : Ty) : FailsOnly TypeError.IsOfRules t.kind := by
  induction t with
  | var x k => exact .ok _
  | con c k => exact .ok _
  | app f a ihf iha =>
      apply ihf.bind
      intro k _
      cases k with
      | data => exact .error trivial
      | arrow domain codomain =>
          apply iha.bind
          intro found _
          split
          · exact .ok _
          · exact .error trivial

/-- Comparing two kinds fails only with such errors. -/
theorem sameKind_failsOnly (expected found : Ty) :
    FailsOnly TypeError.IsOfRules (sameKind expected found) := by
  apply (Ty.kind_failsOnly expected).bind
  intro k _
  apply (Ty.kind_failsOnly found).bind
  intro j _
  split
  · exact .ok _
  · exact .error trivial

/-- A search that fails, other than by its limit, does so with an
error of the rules. -/
def Search.FailsOnly {α : Type} (m : Search α) : Prop :=
  ∀ e, m = .error (.fault e) → e.IsOfRules

/-- Looking for an instance fails only where a class is not declared. -/
theorem subgoals_failsOnly (ctx : ClassContext) (p : Predicate) :
    FailsOnly TypeError.IsOfRules (subgoals ctx p) := by
  rw [subgoals]
  split
  · exact .error trivial
  · exact .ok _

/-- Head normal forms are missed only with an error of the rules, or where the
search is given up. -/
theorem normalizeFrom_failsOnly (ctx : ClassContext) (limit : Nat)
    (found pending : List Predicate) :
    Search.FailsOnly (normalizeFrom ctx limit found pending) := by
  intro e h
  fun_induction normalizeFrom ctx limit found pending with
  | case1 => cases h
  | case2 => cases h
  | case3 limit found p pending hNormal ih => exact ih h
  | case4 limit found p pending hNormal err hGoals =>
      cases h
      exact subgoals_failsOnly ctx p _ hGoals
  | case5 => cases h; trivial
  | case6 limit found p pending hNormal goals hGoals ih => exact ih h

theorem entailsAll_failsOnly (ctx : ClassContext) (given : List Predicate) (limit : Nat)
    (pending : List Predicate) : Search.FailsOnly (entailsAll ctx given limit pending) := by
  intro e h
  fun_induction entailsAll ctx given limit pending with
  | case1 => cases h
  | case2 => cases h
  | case3 limit p pending hGiven ih => exact ih h
  | case4 limit p pending hGiven err hGoals =>
      cases h
      exact subgoals_failsOnly ctx p _ hGoals
  | case5 => cases h
  | case6 limit p pending hGiven goals hGoals ih => exact ih h

theorem simplifyFrom_failsOnly (ctx : ClassContext) (limit : Nat) (kept ps : List Predicate) :
    Search.FailsOnly (simplifyFrom ctx limit kept ps) := by
  induction ps generalizing kept with
  | nil => exact fun _ h => nomatch h
  | cons p ps ih =>
      intro e h
      rw [simplifyFrom] at h
      cases hEntails : entails ctx (ps ++ kept) limit p with
      | error failure =>
          rw [hEntails] at h
          cases h
          exact entailsAll_failsOnly ctx (ps ++ kept) limit [p] e hEntails
      | ok implied =>
          rw [hEntails] at h
          cases implied with
          | true => exact ih kept e h
          | false => exact ih (kept ++ [p]) e h

/-- So is the reduction of predicates. -/
theorem reduce_failsOnly (ctx : ClassContext) (limit : Nat) (ps : List Predicate) :
    Search.FailsOnly (reduce ctx limit ps) := by
  intro e h
  rw [reduce] at h
  cases hNormal : headNormalForm ctx limit ps with
  | error failure =>
      rw [hNormal] at h
      cases h
      exact normalizeFrom_failsOnly ctx limit [] ps e hNormal
  | ok normal =>
      rw [hNormal] at h
      exact simplifyFrom_failsOnly ctx limit [] normal e h

/-- A search that is given up is reported as an error of the rules. -/
theorem Search.FailsOnly.toExcept {α : Type} {m : Search α} (h : m.FailsOnly) :
    HindleyMilner.FailsOnly TypeError.IsOfRules m.toExcept := by
  intro e he
  cases m with
  | ok a => cases he
  | error failure =>
      cases failure with
      | fault e' =>
          cases he
          exact h e rfl
      | exhausted =>
          cases he
          trivial

/-- None of the rules for classes blames the context. -/
theorem ownErrors : OwnErrors language where
  decompose l r := by
    change FailsOnly TypeError.IsOfRules (decompose l r)
    unfold decompose
    split
    · split
      · exact .ok _
      · exact .error trivial
    · exact .ok _
    · exact .error trivial
  flexRigid _ _ eq := (sameKind_failsOnly eq.flex eq.rigid).bind fun _ _ => .ok _
  literal _ := .error trivial
  reduce ps ctx := (reduce_failsOnly ctx searchLimit ps).toExcept
  finish _ := .ok _

theorem faultlessRules : FaultlessRules language := ownErrors.faultlessRules

/-- So the solver never blames the contexts that inference builds. -/
theorem faultlessSolver : FaultlessSolver language := equationsOnly.faultlessSolver faultlessRules

end HindleyMilner.Classes
