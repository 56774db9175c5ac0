import HindleyMilner.Proofs.Typing
import HindleyMilner.Units.Magnitude
import Mathlib.LinearAlgebra.Finsupp.LinearCombination

/-! The algebra of types with units. Units form the free Abelian group over
variables and primitive units, so types whose units are equal by the laws of
Abelian groups are the same element of the algebra. -/
namespace HindleyMilner.Units

/-- The group of units, written additively: the power of every factor. -/
abbrev UnitGroup := Factor →₀ Int

namespace UnitGroup

noncomputable def var (x : Name) : UnitGroup := Finsupp.single (.var x) 1

noncomputable def prim (p : Name) : UnitGroup := Finsupp.single (.prim p) 1

/-- What a factor stands for when variables have values. -/
noncomputable def factor (ρ : Name → UnitGroup) : Factor → UnitGroup
  | .var x => ρ x
  | .prim p => prim p

noncomputable def subst (ρ : Name → UnitGroup) : UnitGroup →ₗ[Int] UnitGroup :=
  Finsupp.linearCombination Int (factor ρ)

noncomputable def freeVars (u : UnitGroup) : List Name :=
  u.support.toList.filterMap fun
    | .var x => some x
    | .prim _ => none

/-- A variable occurs in a unit if its power is not zero. -/
theorem mem_freeVars {u : UnitGroup} {x : Name} : x ∈ u.freeVars ↔ u (.var x) ≠ 0 := by
  rw [freeVars, List.mem_filterMap]
  constructor
  · rintro ⟨f, hf, hVar⟩
    cases f with
    | var y =>
        cases hVar
        exact Finsupp.mem_support_iff.mp (Finset.mem_toList.mp hf)
    | prim p => cases hVar
  · intro hx
    exact ⟨.var x, Finset.mem_toList.mpr (Finsupp.mem_support_iff.mpr hx), rfl⟩

theorem mem_freeVars_var {x y : Name} : x ∈ (var y).freeVars ↔ x = y := by
  rw [mem_freeVars, var, Finsupp.single_apply]
  by_cases h : y = x
  · simp [h]
  · simp [h, Ne.symm h]

theorem not_mem_freeVars_prim {x p : Name} : x ∉ (prim p).freeVars := by
  rw [mem_freeVars]
  simp [prim]

theorem not_mem_freeVars_zero {x : Name} : x ∉ (0 : UnitGroup).freeVars := by
  rw [mem_freeVars]
  simp

/-- A product has no variables but those of its factors. It may have fewer,
where powers cancel. -/
theorem mem_freeVars_add {u v : UnitGroup} {x : Name} (h : x ∈ (u + v).freeVars) :
    x ∈ u.freeVars ∨ x ∈ v.freeVars := by
  simp only [mem_freeVars, Finsupp.add_apply] at h ⊢
  omega

theorem mem_freeVars_sub {u v : UnitGroup} {x : Name} (h : x ∈ (u - v).freeVars) :
    x ∈ u.freeVars ∨ x ∈ v.freeVars := by
  simp only [mem_freeVars, Finsupp.sub_apply] at h ⊢
  omega

theorem mem_freeVars_smul {n : Int} {u : UnitGroup} {x : Name} (h : x ∈ (n • u).freeVars) :
    x ∈ u.freeVars := by
  simp only [mem_freeVars, Finsupp.smul_apply, smul_eq_mul] at h ⊢
  exact right_ne_zero_of_mul h

/-- A power of one factor becomes that power of what is put for the factor. -/
theorem subst_single (ρ : Name → UnitGroup) (f : Factor) (n : Int) :
    subst ρ (Finsupp.single f n) = n • factor ρ f := Finsupp.linearCombination_single Int n f

theorem subst_var (ρ : Name → UnitGroup) (x : Name) : subst ρ (var x) = ρ x := by
  rw [var, subst_single, one_smul]
  rfl

theorem subst_prim (ρ : Name → UnitGroup) (p : Name) : subst ρ (prim p) = prim p := by
  rw [prim, subst_single, one_smul]
  rfl

/-- What becomes of a unit depends on the variables that occur in it. -/
theorem subst_congr {ρ ρ' : Name → UnitGroup} {u : UnitGroup}
    (h : ∀ x ∈ u.freeVars, ρ x = ρ' x) : subst ρ u = subst ρ' u := by
  rw [subst, subst, Finsupp.linearCombination_apply, Finsupp.linearCombination_apply]
  apply Finsupp.sum_congr
  intro f hf
  cases f with
  | var x =>
      have hSame : ρ x = ρ' x := h x (mem_freeVars.mpr (Finsupp.mem_support_iff.mp hf))
      simp only [factor, hSame]
  | prim p => rfl

/-- To substitute twice is to substitute once, by units in which the second
substitution has been made. -/
theorem subst_subst (ρ ρ' : Name → UnitGroup) (u : UnitGroup) :
    subst ρ (subst ρ' u) = subst (fun x => subst ρ (ρ' x)) u := by
  have hMaps : (subst ρ).comp (subst ρ') = subst fun x => subst ρ (ρ' x) := by
    apply Finsupp.lhom_ext
    intro f n
    rw [LinearMap.comp_apply, subst_single, subst_single, map_smul]
    cases f with
    | var x => rfl
    | prim p => simp only [factor, subst_prim]
  exact LinearMap.congr_fun hMaps u

theorem subst_id (u : UnitGroup) : subst var u = u := by
  have hMaps : subst var = LinearMap.id := by
    apply Finsupp.lhom_ext
    intro f n
    rw [subst_single]
    cases f with
    | var x => simp [factor, var]
    | prim p => simp [factor, prim]
  exact LinearMap.congr_fun hMaps u

end UnitGroup

/-- Value types over the group of units. -/
inductive ValueTy where
  | var (x : Name)
  | arrow (domain codomain : ValueTy)
  | float (unit : UnitGroup)

abbrev Meaning : Kind → Type
  | .value => ValueTy
  | .unit => UnitGroup

namespace ValueTy

noncomputable def freeVars : ValueTy → List (Name × Kind)
  | var x => [(x, .value)]
  | arrow a b => a.freeVars ++ b.freeVars
  | float u => u.freeVars.map fun x => (x, .unit)

noncomputable def subst (θ : Name → (k : Kind) → Meaning k) : ValueTy → ValueTy
  | var x => θ x .value
  | arrow a b => arrow (a.subst θ) (b.subst θ)
  | float u => float (UnitGroup.subst (fun x => θ x .unit) u)

/-- The same for types: each variable matters at the kind at which it occurs. -/
theorem subst_congr {θ θ' : Name → (k : Kind) → Meaning k} {t : ValueTy}
    (h : ∀ p ∈ t.freeVars, θ p.1 p.2 = θ' p.1 p.2) : t.subst θ = t.subst θ' := by
  induction t with
  | var x => exact h (x, .value) List.mem_cons_self
  | arrow a b iha ihb =>
      rw [subst, subst, iha fun p hp => h p (List.mem_append_left _ hp),
        ihb fun p hp => h p (List.mem_append_right _ hp)]
  | float u =>
      rw [subst, subst, UnitGroup.subst_congr fun x hx => ?_]
      exact h (x, .unit) (List.mem_map_of_mem hx)

/-- Substitutions of types are put together kind by kind. -/
theorem subst_subst (θ θ' : Name → (k : Kind) → Meaning k) (t : ValueTy) :
    (t.subst θ').subst θ = t.subst fun x k =>
      match k with
      | .value => ValueTy.subst θ (θ' x .value)
      | .unit => UnitGroup.subst (fun y => θ y .unit) (θ' x .unit) := by
  induction t with
  | var x => rfl
  | arrow a b iha ihb => rw [subst, subst, iha, ihb, subst]
  | float u => rw [subst, subst, UnitGroup.subst_subst, subst]

theorem subst_id {θ : Name → (k : Kind) → Meaning k} (hValue : ∀ x, θ x .value = var x)
    (hUnit : ∀ x, θ x .unit = UnitGroup.var x) (t : ValueTy) : t.subst θ = t := by
  induction t with
  | var x => exact hValue x
  | arrow a b iha ihb => rw [subst, iha, ihb]
  | float u =>
      have hVars : (fun x => θ x .unit) = UnitGroup.var := funext hUnit
      rw [subst, hVars, UnitGroup.subst_id]

end ValueTy

/-- Literals are dimensionless numbers. -/
noncomputable def algebra : TypeAlgebra Kind .value where
  Ty := Meaning
  var x
    | .value => .var x
    | .unit => UnitGroup.var x
  arrow := .arrow
  literal? := some (.float 0)
  freeVars {k} t :=
    match k, t with
    | .value, t => ValueTy.freeVars t
    | .unit, u => (UnitGroup.freeVars u).map fun x => (x, .unit)
  subst := fun θ {k} t =>
    match k, t with
    | .value, t => ValueTy.subst θ t
    | .unit, u => UnitGroup.subst (fun x => θ x .unit) u
  subst_var θ x k := by
    cases k with
    | value => rfl
    | unit => exact UnitGroup.subst_var _ x
  subst_arrow _ _ _ := rfl
  subst_literal θ t h := by
    cases h
    exact congrArg ValueTy.float (map_zero _)
  subst_congr {θ θ' k t} h := by
    cases k with
    | value => exact ValueTy.subst_congr h
    | unit =>
        apply UnitGroup.subst_congr
        intro x hx
        exact h (x, .unit) (List.mem_map_of_mem hx)
  subst_subst θ θ' k t := by
    cases k with
    | value =>
        refine (ValueTy.subst_subst θ θ' t).trans (ValueTy.subst_congr fun p _ => ?_)
        obtain ⟨x, j⟩ := p
        cases j <;> rfl
    | unit => exact UnitGroup.subst_subst _ _ t
  subst_id {k} t := by
    cases k with
    | value => exact ValueTy.subst_id (fun _ => rfl) (fun _ => rfl) t
    | unit => exact UnitGroup.subst_id t

end HindleyMilner.Units
