import HindleyMilner.Proofs.Refinement
import HindleyMilner.Simple.Termination

/-! Simple types read as themselves: the algebra of simple types is free. -/
namespace HindleyMilner.Simple

open Context

namespace Ty

/-- The variables of a substituted type are those of the types that were
put for its variables. -/
theorem mem_freeVars_subst {σ : Assignment Ty} {t : Ty} {y : Name} :
    y ∈ (t.subst σ).freeVars ↔ ∃ x ∈ t.freeVars, y ∈ ((σ x).getD (var x)).freeVars := by
  induction t with
  | var x => simp [subst, freeVars]
  | arrow a b iha ihb =>
      simp only [subst, freeVars, List.mem_append, iha, ihb, or_and_right, exists_or]

/-- A substitution matters on the variables that occur. -/
theorem subst_congr {σ σ' : Assignment Ty} {t : Ty}
    (h : ∀ x ∈ t.freeVars, (σ x).getD (var x) = (σ' x).getD (var x)) :
    t.subst σ = t.subst σ' := by
  induction t with
  | var x => exact h x List.mem_cons_self
  | arrow a b iha ihb =>
      rw [subst, subst, iha fun x hx => h x (List.mem_append_left _ hx),
        ihb fun x hx => h x (List.mem_append_right _ hx)]

/-- Equal results come from equal values of the variables that occur, because
types are free: an arrow is built from its sides in one way. -/
theorem eq_of_subst_eq {σ σ' : Assignment Ty} {t : Ty} (h : t.subst σ = t.subst σ') :
    ∀ x ∈ t.freeVars, (σ x).getD (var x) = (σ' x).getD (var x) := by
  induction t with
  | var y =>
      intro x hx
      rw [List.mem_singleton.mp hx]
      exact h
  | arrow a b iha ihb =>
      intro x hx
      rw [subst, subst, Ty.arrow.injEq] at h
      rcases List.mem_append.mp hx with hx | hx
      · exact iha h.1 x hx
      · exact ihb h.2 x hx

/-- To substitute twice is to substitute once, by types in which the second
substitution has been made. -/
theorem subst_subst (σ σ' : Assignment Ty) (t : Ty) :
    (t.subst σ').subst σ = t.subst fun x => some (((σ' x).getD (var x)).subst σ) := by
  induction t with
  | var x => rfl
  | arrow a b iha ihb =>
      rw [subst, subst, iha, ihb]
      rfl

theorem subst_id (t : Ty) : t.subst (fun x => some (var x)) = t := by
  induction t with
  | var x => rfl
  | arrow a b iha ihb => rw [subst, iha, ihb]

end Ty

/-- The algebra of simple types. Literals have no type. -/
def algebra : TypeAlgebra Kind .type where
  Ty _ := Ty
  var x _ := .var x
  arrow := .arrow
  literal? := none
  freeVars t := t.freeVars.map fun x => (x, .type)
  subst := fun θ {_} t => Ty.subst (fun x => some (θ x .type)) t
  subst_var _ _ k := by cases k; rfl
  subst_arrow _ _ _ := rfl
  subst_literal _ _ h := nomatch h
  subst_congr {θ θ' k t} h := by
    apply Ty.subst_congr
    intro x hx
    exact h (x, .type) (List.mem_map_of_mem hx)
  subst_subst θ θ' k t := Ty.subst_subst _ _ t
  subst_id t := Ty.subst_id t

/-- Every variable of a type is declared. -/
def scoping : Discipline language where
  Ty K t _ := ∀ x ∈ t.freeVars, ∃ k, K x k
  Equated _ := True
  Special _ g := nomatch g
  ty_declared h := h
  ty_mono h hTy x hx := by
    obtain ⟨k, hk⟩ := hTy x hx
    exact ⟨k, h x k hx hk⟩
  special_mono {_ _ g} := nomatch g
  ty_subst {K K' σ t k} h hTy y hy := by
    obtain ⟨x, hx, hy⟩ := Ty.mem_freeVars_subst.mp hy
    obtain ⟨j, hj⟩ := hTy x hx
    rcases h x j hx hj with ⟨u, hu, hTyped⟩ | ⟨hNone, hK⟩
    · rw [hu] at hy
      exact hTyped y hy
    · rw [hNone] at hy
      rw [List.mem_singleton.mp hy]
      exact ⟨j, hK⟩
  ty_solve _ _ _ h := h
  decompose {K l r goals} hEquation h g hg := by
    obtain ⟨a, b, c, d, rfl, rfl, rfl⟩ := decompose_eq_ok h
    obtain ⟨k, -, hl, hr⟩ := hEquation
    simp only [List.mem_cons, List.not_mem_nil, or_false] at hg
    rcases hg with rfl | rfl
    · exact ⟨k, trivial, fun x hx => hl x (List.mem_append_left _ hx),
        fun x hx => hr x (List.mem_append_left _ hx)⟩
    · exact ⟨k, trivial, fun x hx => hl x (List.mem_append_right _ hx),
        fun x hx => hr x (List.mem_append_right _ hx)⟩
  equated_value := trivial
  ty_var {K x k} h y hy := by
    rw [List.mem_singleton.mp hy]
    exact ⟨k, h⟩
  ty_arrow ha hb x hx := by
    rcases List.mem_append.mp hx with hx | hx
    · exact ha x hx
    · exact hb x hx
  ty_literal h := nomatch h

/-- Simple types stand for themselves. -/
def reading : Reading language where
  algebra := algebra
  denote _ t := t
  Special _ g := nomatch g

def model : Model language where
  toReading := reading
  asVar_var _ _ := rfl
  denote_var {t x} h k := by
    cases t with
    | var y => cases h; rfl
    | arrow a b => cases h
  denote_arrow _ _ := rfl
  denote_subst σ k t := by
    apply Ty.subst_congr
    intro x _
    change (σ x).getD (.var x) = reading.assign algebra.var σ x .type
    unfold Reading.assign
    cases σ x with
    | none => rfl
    | some u => exact (Ty.subst_id u).symm
  freeVars_denote p hp := by
    obtain ⟨x, hx, rfl⟩ := List.mem_map.mp hp
    exact hx
  decompose {θ l r goals} h hGoals := by
    obtain ⟨a, b, c, d, rfl, rfl, rfl⟩ := decompose_eq_ok h
    exact congrArg₂ Ty.arrow (hGoals _ List.mem_cons_self)
      (hGoals _ (List.mem_cons_of_mem _ List.mem_cons_self))
  literal h := nomatch h
  finish h := by cases h; rfl

/-- The value of a type depends on its variables, so the model fits the
discipline of scopes. -/
theorem compatible : model.Compatible scoping := by
  intro K t k hTy p hp
  obtain ⟨x, hx, rfl⟩ := List.mem_map.mp hp
  obtain ⟨j, hj⟩ := hTy x hx
  cases j
  exact hj

end HindleyMilner.Simple
