import HindleyMilner.Proofs.InternalErrors
import HindleyMilner.Proofs.Simple.Reading

/-! The free variables of simple types, and what the rules of the language do to them. -/
namespace HindleyMilner.Simple

open Context

instance : Lexical language where
  asVar_var _ _ := rfl
  mem_freeVars := Sized.mem_shapeVars (L := language)
  freeVars_var _ hy := List.mem_singleton.mp hy
  freeVars_arrow hx := hx
  freeVars_subst {σ t} y hy := by
    obtain ⟨x, hx, hy⟩ := Ty.mem_freeVars_subst.mp hy
    refine ⟨x, hx, ?_⟩
    cases hσ : σ x with
    | some u =>
        rw [hσ] at hy
        exact .inl ⟨u, rfl, hy⟩
    | none =>
        rw [hσ] at hy
        exact .inr ⟨rfl, List.mem_singleton.mp hy⟩
  freeVars_decompose {l r goals} h g hg x hx := by
    obtain ⟨a, b, c, d, rfl, rfl, rfl⟩ := decompose_eq_ok h
    simp only [List.mem_cons, List.not_mem_nil, or_false] at hg
    rcases hg with rfl | rfl
    · exact mem_of_mem_sides (.inl hx)
    · exact mem_of_mem_sides (.inr hx)
  freeVars_literal h := nomatch h

/-- Every constraint is an equation, and the language never replaces an
equation of a variable. -/
theorem equationsOnly : EquationsOnly language where
  special g := g.elim
  flexRigid h := by cases h

theorem stepsRefine_scoping : StepsRefine (Discipline.scoping language) (Model.onePoint language) :=
  equationsOnly.stepsRefine _ _

/-- The rules of the language fail with errors about types only. -/
theorem ownErrors : OwnErrors language where
  decompose l r := by
    change FailsOnly TypeError.IsOfRules (decompose l r)
    unfold decompose
    split
    · exact .ok _
    · exact .error trivial
  flexRigid _ _ _ := .ok _
  literal _ := .error trivial
  reduce _ _ := .ok _
  finish _ := .ok _

theorem faultlessRules : FaultlessRules language := ownErrors.faultlessRules

theorem faultlessSolver : FaultlessSolver language := equationsOnly.faultlessSolver faultlessRules

end HindleyMilner.Simple
