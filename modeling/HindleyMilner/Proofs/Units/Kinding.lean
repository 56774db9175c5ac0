import HindleyMilner.Proofs.Units.Reading

/-! Kinds of types with units. A variable is written the same way whatever its kind,
so its kind is read from where it is declared. -/
namespace HindleyMilner.Units

open Context

instance : FreeVars UnitGoal where
  freeVars
    | .hull x shape => x :: shape.freeVars
    | .identity u => u.vars.names

/-- A type has a kind when variables have the given kinds. -/
inductive HasKind (K : language.Scope) : Ty → Kind → Prop where
  | var {x : Name} {k : Kind} (h : K x k) : HasKind K (.var x) k
  | arrow {a b : Ty} (ha : HasKind K a .value) (hb : HasKind K b .value) :
      HasKind K (.arrow a b) .value
  | float {u : Ty} (hu : HasKind K u .unit) : HasKind K (.float u) .value
  | one : HasKind K .one .unit
  | mul {a b : Ty} (ha : HasKind K a .unit) (hb : HasKind K b .unit) : HasKind K (.mul a b) .unit
  | pow {a : Ty} (ha : HasKind K a .unit) (e : Exponent) : HasKind K (.pow a e) .unit
  | prim (p : Name) : HasKind K (.prim p) .unit

/-- A variable occurs in the group element of a unit if it has an exponent. -/
theorem Measure.mem_freeVars {u : Measure} {x : Name} :
    x ∈ u.toUnit.freeVars ↔ u.exponent x ≠ 0 := by
  rw [UnitGroup.mem_freeVars, toUnit_apply, power_var]
  exact not_congr ⟨fun h => Int32.toInt_inj.mp h, fun h => by rw [h]; rfl⟩

theorem Measure.mem_names {u : Measure} {x : Name} :
    x ∈ u.vars.names ↔ x ∈ u.toUnit.freeVars := Exponents.mem_names.trans mem_freeVars.symm

namespace HasKind

variable {K K' : language.Scope} {t : Ty} {k : Kind}

/-- A type that has a kind uses declared variables. -/
theorem declared (h : HasKind K t k) : ∀ x ∈ t.freeVars, ∃ j, K x j := by
  induction h with
  | @var x k h =>
      intro y hy
      rw [List.mem_singleton.mp hy]
      exact ⟨k, h⟩
  | arrow _ _ iha ihb => exact fun x hx => (List.mem_append.mp hx).elim (iha x) (ihb x)
  | float _ ih => exact ih
  | mul _ _ iha ihb => exact fun x hx => (List.mem_append.mp hx).elim (iha x) (ihb x)
  | pow _ _ ih => exact ih
  | _ => exact fun _ hx => nomatch hx

/-- It has that kind wherever its variables are declared with the same kinds. -/
theorem mono (hK : ∀ x j, x ∈ t.freeVars → K x j → K' x j) (h : HasKind K t k) :
    HasKind K' t k := by
  induction h with
  | var h => exact .var (hK _ _ List.mem_cons_self h)
  | arrow _ _ iha ihb =>
      exact .arrow (iha fun x j hx => hK x j (List.mem_append_left _ hx))
        (ihb fun x j hx => hK x j (List.mem_append_right _ hx))
  | float _ ih => exact .float (ih hK)
  | one => exact .one
  | mul _ _ iha ihb =>
      exact .mul (iha fun x j hx => hK x j (List.mem_append_left _ hx))
        (ihb fun x j hx => hK x j (List.mem_append_right _ hx))
  | pow _ e ih => exact .pow (ih hK) e
  | prim p => exact .prim p

/-- The variables that count in a unit are unit variables. Those whose powers
cancel do not count, but they have a kind as well. -/
theorem of_mem_toUnit (h : HasKind K t .unit) {x : Name} (hx : x ∈ t.toUnit.freeVars) :
    K x .unit := by
  induction t with
  | var y =>
      cases h with
      | var h =>
          rw [UnitGroup.mem_freeVars_var.mp hx]
          exact h
  | prim p => exact absurd hx UnitGroup.not_mem_freeVars_prim
  | mul a b iha ihb =>
      cases h with
      | mul ha hb => exact (UnitGroup.mem_freeVars_add hx).elim (iha ha) (ihb hb)
  | pow a e ih =>
      cases h with
      | pow ha => exact ih ha (UnitGroup.mem_freeVars_smul hx)
  | _ => exact absurd hx UnitGroup.not_mem_freeVars_zero

/-- The canonical type of a unit uses the variables that count in it, so it
is a unit if these are. It is a product from left to right, hence the
induction on the factors. -/
theorem toType {u : Measure} (h : ∀ x ∈ u.toUnit.freeVars, K x .unit) :
    HasKind K u.toType .unit := by
  have hFold : ∀ (ts : List Ty) (t : Ty), HasKind K t .unit → (∀ s ∈ ts, HasKind K s .unit) →
      HasKind K (ts.foldl .mul t) .unit := by
    intro ts
    induction ts with
    | nil => exact fun _ ht _ => ht
    | cons s ts ih =>
        intro t ht hts
        apply ih _ (.mul ht (hts s List.mem_cons_self))
        exact fun r hr => hts r (List.mem_cons_of_mem _ hr)
  have hFactors : ∀ s ∈ u.factors, HasKind K s .unit := by
    intro s hs
    rcases List.mem_append.mp hs with hs | hs
    · obtain ⟨⟨x, e⟩, hx, rfl⟩ := List.mem_map.mp hs
      refine .pow (.var (h x (Measure.mem_names.mp ?_))) e
      rw [← Exponents.map_fst_toList]
      exact List.mem_map_of_mem hx
    · obtain ⟨⟨p, e⟩, -, rfl⟩ := List.mem_map.mp hs
      exact .pow (.prim p) e
  rw [Measure.toType]
  cases hList : u.factors with
  | nil => exact .one
  | cons first rest =>
      rw [hList] at hFactors
      apply hFold _ _ (hFactors first List.mem_cons_self)
      exact fun s hs => hFactors s (List.mem_cons_of_mem _ hs)

/-- The normal form of a unit is a unit, as it uses no other variables. -/
theorem toType_of_toMeasure {m : Measure} (h : HasKind K t .unit) (hm : t.toMeasure = .ok m) :
    HasKind K m.toType .unit := by
  apply toType
  rw [Ty.toUnit_of_toMeasure hm]
  exact fun x hx => h.of_mem_toUnit hx

/-- So is a unit that has been normalized after a substitution. -/
theorem renormalized (h : HasKind K t .unit) : HasKind K t.renormalized .unit := by
  rw [Ty.renormalized]
  cases hm : t.toMeasure with
  | ok m => exact h.toType_of_toMeasure hm
  | error e => exact h

/-- Substituting types of the kinds of their variables keeps the kind. The units
that a substitution has changed are normalized, which keeps their kind too. -/
theorem subst {σ : Assignment Ty} (hσ : ∀ x j, x ∈ t.freeVars → K x j →
      (∃ u, σ x = some u ∧ HasKind K' u j) ∨ (σ x = none ∧ K' x j)) (h : HasKind K t k) :
    HasKind K' (t.subst σ) k := by
  induction h with
  | @var x k h =>
      rw [Ty.subst]
      rcases hσ x k List.mem_cons_self h with ⟨u, hu, hKind⟩ | ⟨hNone, hx⟩
      · rw [hu]
        exact hKind
      · rw [hNone]
        exact .var hx
  | arrow _ _ iha ihb =>
      exact .arrow (iha fun x j hx => hσ x j (List.mem_append_left _ hx))
        (ihb fun x j hx => hσ x j (List.mem_append_right _ hx))
  | float _ ih => exact .float (ih hσ).renormalized
  | one => exact .one
  | mul _ _ iha ihb =>
      exact .mul (iha fun x j hx => hσ x j (List.mem_append_left _ hx))
        (ihb fun x j hx => hσ x j (List.mem_append_right _ hx))
  | pow _ e ih => exact .pow (ih hσ) e
  | prim p => exact .prim p

/-- The canonical form of a value type is a value type, since normal forms of
units use no variables that were not there. -/
theorem canonical {u : Ty} (h : HasKind K t .value) (hu : t.canonical = .ok u) :
    HasKind K u .value := by
  induction t generalizing u with
  | var x =>
      cases hu
      exact h
  | arrow a b iha ihb =>
      cases h with
      | arrow ha hb =>
          obtain ⟨c, hc, hu⟩ := bind_eq_ok.mp hu
          obtain ⟨d, hd, hu⟩ := bind_eq_ok.mp hu
          cases hu
          exact .arrow (iha ha hc) (ihb hb hd)
  | float v =>
      cases h with
      | float hv =>
          obtain ⟨m, hm, hu⟩ := bind_eq_ok.mp hu
          cases hu
          exact .float (hv.toType_of_toMeasure hm)
  | _ => cases h

end HasKind

/-- Equated types are value types, and a unit goal is about unit variables. -/
def kinding : Discipline language where
  Ty := HasKind
  Equated k := k = .value
  Special K
    | .hull .. => True
    | .identity u => ∀ x ∈ u.toUnit.freeVars, K x .unit
  ty_declared h := h.declared
  ty_mono := HasKind.mono
  special_mono {K K' g} h hGoal := by
    cases g with
    | hull x shape => trivial
    | identity u => exact fun x hx => h x .unit (Measure.mem_names.mpr hx) (hGoal x hx)
  ty_subst := HasKind.subst
  ty_solve {K x l r j k} hVar hKind hl hr := by
    cases l with
    | var y =>
        cases hVar
        cases hl with
        | var h =>
            rw [← hKind k h]
            exact hr
    | _ => cases hVar
  decompose {K l r goals} hEquation h g hg := by
    obtain ⟨k, rfl, hl, hr⟩ := hEquation
    rcases decompose_eq_ok h with
      ⟨a, b, c, d, rfl, rfl, rfl⟩ | ⟨u, v, m, n, unit, rfl, rfl, hm, hn, hUnit, rfl⟩
    · cases hl with
      | arrow ha hb =>
          cases hr with
          | arrow hc hd =>
              simp only [List.mem_cons, List.not_mem_nil, or_false] at hg
              rcases hg with rfl | rfl
              · exact ⟨.value, rfl, ha, hc⟩
              · exact ⟨.value, rfl, hb, hd⟩
    · cases hl with
      | float hu =>
          cases hr with
          | float hv =>
              rw [List.mem_singleton.mp hg]
              intro x hx
              rw [Measure.toUnit_subtract hUnit, Ty.toUnit_of_toMeasure hm,
                Ty.toUnit_of_toMeasure hn] at hx
              exact (UnitGroup.mem_freeVars_sub hx).elim hu.of_mem_toUnit hv.of_mem_toUnit
  equated_value := rfl
  ty_var h := .var h
  ty_arrow ha hb := .arrow ha hb
  ty_literal h := by
    cases h
    exact .float .one

/-- The value of a type depends on its variables at the kinds they are declared
with, so the model fits the discipline of kinds. -/
theorem compatible : model.Compatible kinding := by
  have hUnit : ∀ {K : language.Scope} {t : Ty}, HasKind K t .unit →
      ∀ p ∈ t.toUnit.freeVars.map (fun x => (x, Kind.unit)), K p.1 p.2 := by
    intro K t h p hp
    obtain ⟨x, hx, rfl⟩ := List.mem_map.mp hp
    exact h.of_mem_toUnit hx
  intro K t k hTy p hp
  cases k with
  | unit => exact hUnit hTy p hp
  | value =>
      induction t with
      | var x =>
          cases hTy with
          | var h =>
              rw [List.mem_singleton.mp hp]
              exact h
      | arrow a b iha ihb =>
          cases hTy with
          | arrow ha hb => exact (List.mem_append.mp hp).elim (iha ha) (ihb hb)
      | float u =>
          cases hTy with
          | float hu => exact hUnit hu p hp
      | _ => cases hTy

end HindleyMilner.Units
