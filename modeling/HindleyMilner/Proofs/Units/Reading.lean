import HindleyMilner.Proofs.Refinement
import HindleyMilner.Proofs.Synthesis
import HindleyMilner.Proofs.Units.Algebra
import HindleyMilner.Units.Termination

/-! Types with units read in their algebra. The reading of a unit is given by the
integer powers of its factors, so operations on units that succeed are those of
the group. -/
namespace HindleyMilner.Units

open Context

namespace Ty

/-- The unit that a type stands for, if it is one. -/
noncomputable def toUnit : Ty → UnitGroup
  | var x => .var x
  | prim p => .prim p
  | one => 0
  | mul a b => a.toUnit + b.toUnit
  | pow a e => e.toInt • a.toUnit
  | arrow .. => 0
  | float _ => 0

/-- The value type that a type stands for, if it is one. -/
noncomputable def toValue : Ty → ValueTy
  | var x => .var x
  | arrow a b => .arrow a.toValue b.toValue
  | float u => .float u.toUnit
  | one => .float 0
  | mul .. => .float 0
  | pow .. => .float 0
  | prim _ => .float 0

/-- A product of types stands for the sum of what they stand for. -/
theorem toUnit_foldl (ts : List Ty) (t : Ty) :
    (ts.foldl mul t).toUnit = t.toUnit + (ts.map toUnit).sum := by
  induction ts generalizing t with
  | nil => exact (add_zero _).symm
  | cons s ts ih => rw [List.foldl_cons, ih, toUnit, List.map_cons, List.sum_cons, add_assoc]

end Ty

namespace Measure

/-- A unit in normal form as an element of the group. -/
noncomputable def toUnit (u : Measure) : UnitGroup := u.toType.toUnit

/-- A unit stands for the sum of its factors. -/
theorem toUnit_eq_sum (u : Measure) : u.toUnit = (u.factors.map Ty.toUnit).sum := by
  rw [toUnit, toType]
  cases u.factors with
  | nil => rfl
  | cons t ts => rw [Ty.toUnit_foldl, List.map_cons, List.sum_cons]

end Measure

/-- Of the exponents of distinct factors, one alone counts for each factor, so
summing over the list gives the exponent that is looked up. -/
theorem Exponents.sum_toList (a : Exponents) (x : Name) :
    (a.toList.map fun p => if p.1 = x then p.2.toInt else 0).sum = (a.get x).toInt := by
  have hNodup := a.nodup_toList
  by_cases hx : x ∈ a.names
  · rw [← map_fst_toList] at hx
    obtain ⟨p, hp, rfl⟩ := List.mem_map.mp hx
    obtain ⟨before, after, hSplit⟩ := List.append_of_mem hp
    rw [get_of_mem_toList hp]
    rw [hSplit, List.map_append, List.nodup_append] at hNodup
    have hBefore : ∀ n ∈ before.map (fun q => if q.1 = p.1 then q.2.toInt else 0), n = 0 := by
      intro n hn
      obtain ⟨q, hq, rfl⟩ := List.mem_map.mp hn
      apply if_neg
      exact hNodup.2.2 q.1 (List.mem_map_of_mem hq) p.1 List.mem_cons_self
    have hAfter : ∀ n ∈ after.map (fun q => if q.1 = p.1 then q.2.toInt else 0), n = 0 := by
      intro n hn
      obtain ⟨q, hq, rfl⟩ := List.mem_map.mp hn
      apply if_neg
      intro hEq
      exact (List.nodup_cons.mp hNodup.2.1).1 (hEq ▸ List.mem_map_of_mem hq)
    rw [hSplit, List.map_append, List.sum_append, List.map_cons, List.sum_cons, if_pos rfl,
      List.sum_eq_zero hBefore, List.sum_eq_zero hAfter]
    omega
  · have hZero : a.get x = 0 := by
      refine Decidable.byContradiction fun hNe => hx (mem_names.mpr hNe)
    rw [hZero]
    apply List.sum_eq_zero
    intro n hn
    obtain ⟨q, hq, rfl⟩ := List.mem_map.mp hn
    apply if_neg
    rintro rfl
    rw [← map_fst_toList] at hx
    exact hx (List.mem_map_of_mem hq)

namespace Measure

/-- The element of the group has the powers of the unit: those of its variables,
and those of its base units. -/
theorem toUnit_apply (u : Measure) (f : Factor) : u.toUnit f = u.power f := by
  have hApply : ∀ us : List UnitGroup, us.sum f = (us.map fun v => v f).sum :=
    fun us => map_list_sum (Finsupp.applyAddHom f) us
  rw [toUnit_eq_sum, hApply, factors, List.map_map, List.map_append, List.sum_append, List.map_map,
    List.map_map]
  cases f with
  | var x =>
      rw [power, ← u.vars.sum_toList x]
      have hPrims : (u.prims.toList.map (fun p => (Ty.pow (.prim p.1) p.2).toUnit (.var x))).sum =
          0 := by
        apply List.sum_eq_zero
        intro n hn
        obtain ⟨p, -, rfl⟩ := List.mem_map.mp hn
        simp [Ty.toUnit, UnitGroup.prim]
      refine (congrArg₂ (· + ·) (congrArg List.sum (List.map_congr_left fun p _ => ?_))
        hPrims).trans (add_zero _)
      simp [Ty.toUnit, UnitGroup.var, Finsupp.single_apply]
  | prim q =>
      rw [power, ← u.prims.sum_toList q]
      have hVars : (u.vars.toList.map (fun p => (Ty.pow (.var p.1) p.2).toUnit (.prim q))).sum =
          0 := by
        apply List.sum_eq_zero
        intro n hn
        obtain ⟨p, -, rfl⟩ := List.mem_map.mp hn
        simp [Ty.toUnit, UnitGroup.var]
      refine (congrArg₂ (· + ·) hVars (congrArg List.sum (List.map_congr_left fun p _ => ?_))).trans
        (zero_add _)
      simp [Ty.toUnit, UnitGroup.prim, Finsupp.single_apply]

/-- The unit without factors stands for the neutral element. -/
theorem toUnit_identity : identity.toUnit = 0 := by
  ext f
  simp [toUnit_apply]

theorem toUnit_of_isIdentity {u : Measure} (h : u.isIdentity = true) : u.toUnit = 0 := by
  have hEmpty : ∀ {a : Exponents} (x : Name), a.isEmpty = true → a.get x = 0 := by
    intro a x ha
    rw [Exponents.get, Std.ExtTreeMap.isEmpty_iff.mp ha]
    exact Std.ExtTreeMap.getD_empty
  obtain ⟨hVars, hPrims⟩ := Bool.and_eq_true_iff.mp h
  ext f
  rw [toUnit_apply, Finsupp.zero_apply]
  cases f with
  | var x => rw [power, hEmpty x hVars]; rfl
  | prim p => rw [power, hEmpty p hPrims]; rfl

theorem toUnit_var (x : Name) : (var x).toUnit = .var x := by
  ext f
  rw [toUnit_apply, power_of_var, UnitGroup.var, Finsupp.single_apply]
  simp only [eq_comm]

theorem toUnit_prim (p : Name) : (prim p).toUnit = .prim p := by
  ext f
  rw [toUnit_apply, power_of_prim, UnitGroup.prim, Finsupp.single_apply]
  simp only [eq_comm]

/-- A product stands for the sum in the group. -/
theorem toUnit_add {u v w : Measure} (h : u.add v = .ok w) : w.toUnit = u.toUnit + v.toUnit := by
  ext f
  rw [Finsupp.add_apply, toUnit_apply, toUnit_apply, toUnit_apply, power_add h]

/-- A power stands for the multiple. -/
theorem toUnit_scale {u w : Measure} {n : Exponent} (h : u.scale n = .ok w) :
    w.toUnit = n.toInt • u.toUnit := by
  ext f
  rw [Finsupp.smul_apply, toUnit_apply, toUnit_apply, power_scale h, smul_eq_mul, Int.mul_comm]

theorem toUnit_subtract {u v w : Measure} (h : u.subtract v = .ok w) :
    w.toUnit = u.toUnit - v.toUnit := by
  ext f
  rw [Finsupp.sub_apply, toUnit_apply, toUnit_apply, toUnit_apply, power_subtract h]

/-- To put a unit for a variable adds their difference as often as
the variable occurs. -/
theorem toUnit_substitute {u v w : Measure} {x : Name} (h : u.substitute x v = .ok w) :
    w.toUnit = (u.exponent x).toInt • (v.toUnit - .var x) + u.toUnit := by
  ext f
  rw [Finsupp.add_apply, Finsupp.smul_apply, Finsupp.sub_apply, ← toUnit_var, toUnit_apply,
    toUnit_apply, toUnit_apply, toUnit_apply, power_substitute h, power_of_var, smul_eq_mul,
    Int.mul_comm]

/-- The variable is gone from the result, unless what was put in brings it back. -/
theorem mem_freeVars_substitute {u v w : Measure} {x y : Name} (h : u.substitute x v = .ok w)
    (hy : y ∈ w.toUnit.freeVars) : y ∈ v.toUnit.freeVars ∨ (y ∈ u.toUnit.freeVars ∧ y ≠ x) := by
  simp only [UnitGroup.mem_freeVars, toUnit_apply] at hy ⊢
  rw [power_substitute h] at hy
  by_cases hv : v.power (.var y) = 0
  · right
    by_cases hx : y = x
    · subst hx
      rw [hv, if_pos rfl, power_var] at hy
      omega
    · rw [hv, if_neg (fun hEq => hx (Factor.var.inj hEq)), sub_zero, Int.zero_mul,
        Int.zero_add] at hy
      exact ⟨hy, hx⟩
  · exact .inl hv

/-- The quotient for a variable does not have the variable itself. -/
theorem mem_freeVars_pivot {u w : Measure} {x y : Name} (hx : u.exponent x ≠ 0)
    (h : u.pivot x = .ok w) (hy : y ∈ w.toUnit.freeVars) : y ∈ u.toUnit.freeVars ∧ y ≠ x := by
  simp only [UnitGroup.mem_freeVars, toUnit_apply] at hy ⊢
  rw [power_pivot hx h] at hy
  by_cases hEq : y = x
  · rw [hEq, if_pos rfl] at hy
    exact absurd rfl hy
  · rw [if_neg (fun hVar => hEq (Factor.var.inj hVar))] at hy
    refine ⟨fun hZero => hy ?_, hEq⟩
    rw [hZero, Int.zero_tdiv, Int.neg_zero]

/-- Divisibility of the exponents is divisibility of all powers. Factors that do
not occur have the power zero, which everything divides. -/
theorem dvd_power {u : Measure} {d : Exponent} (h : u.divisibleBy d = true) (f : Factor) :
    d.toInt ∣ u.power f := by
  have hAll := (Bool.and_eq_true_iff.mp h).2
  have hFactor : ∀ {a : Exponents} (x : Name), (∀ p ∈ a.toList, d.toInt ∣ p.2.toInt) →
      d.toInt ∣ (a.get x).toInt := by
    intro a x hList
    by_cases hx : a.get x = 0
    · rw [hx]
      exact Int.dvd_zero _
    · have hMem : (x, a.get x) ∈ a.toList := by
        apply Std.ExtTreeMap.mem_toList_iff_getElem?_eq_some.mpr
        rw [Exponents.getElem?_map, if_neg hx]
      exact hList _ hMem
  have hList : ∀ p ∈ u.vars.toList ++ u.prims.toList, d.toInt ∣ p.2.toInt := by
    intro p hp
    exact of_decide_eq_true (List.all_eq_true.mp hAll p hp)
  cases f with
  | var x => exact hFactor x fun p hp => hList p (List.mem_append_left _ hp)
  | prim q => exact hFactor q fun p hp => hList p (List.mem_append_right _ hp)

/-- Where a variable's exponent divides all others, the equation that the unit
is dimensionless is solved by the pivot. -/
theorem toUnit_pivot {u w : Measure} {x : Name} (hx : u.exponent x ≠ 0)
    (hDivides : u.divisibleBy (u.exponent x) = true) (h : u.pivot x = .ok w) :
    (u.exponent x).toInt • (w.toUnit - .var x) + u.toUnit = 0 := by
  ext f
  rw [Finsupp.add_apply, Finsupp.smul_apply, Finsupp.sub_apply, ← toUnit_var, toUnit_apply,
    toUnit_apply, toUnit_apply, power_pivot hx h, power_of_var, smul_eq_mul, Finsupp.zero_apply]
  by_cases hf : f = .var x
  · subst hf
    rw [if_pos rfl, if_pos rfl, power_var]
    omega
  · rw [if_neg hf, if_neg hf, sub_zero]
    have hExact := Int.mul_tdiv_cancel' (dvd_power hDivides f)
    rw [mul_neg, hExact]
    omega

end Measure

namespace Ty

/-- The normal form of a unit is the unit it stands for. Computed exponents are
exact, so that products and powers of units are read as sums and multiples. -/
theorem toUnit_of_toMeasure {t : Ty} {u : Measure} (h : t.toMeasure = .ok u) :
    u.toUnit = t.toUnit := by
  induction t generalizing u with
  | var x =>
      cases h
      exact Measure.toUnit_var x
  | prim p =>
      cases h
      exact Measure.toUnit_prim p
  | one =>
      cases h
      exact Measure.toUnit_identity
  | mul a b iha ihb =>
      obtain ⟨v, hv, h⟩ := bind_eq_ok.mp h
      obtain ⟨w, hw, h⟩ := bind_eq_ok.mp h
      rw [Measure.toUnit_add h, iha hv, ihb hw, toUnit]
  | pow a e ih =>
      obtain ⟨v, hv, h⟩ := bind_eq_ok.mp h
      rw [Measure.toUnit_scale h, ih hv, toUnit]
  | arrow a b => cases h
  | float v => cases h

/-- Normalizing a unit does not change what it stands for. -/
theorem toUnit_renormalized (t : Ty) : t.renormalized.toUnit = t.toUnit := by
  rw [renormalized]
  cases h : t.toMeasure with
  | ok u => exact toUnit_of_toMeasure h
  | error e => rfl

/-- Units have no arrows, so the type of a unit is read as that of plain numbers. -/
theorem toValue_toType (m : Measure) : m.toType.toValue = .float 0 := by
  have hFold : ∀ (ts : List Ty) (t : Ty), t.toValue = .float 0 →
      (ts.foldl mul t).toValue = .float 0 := by
    intro ts
    induction ts with
    | nil => exact fun _ ht => ht
    | cons s ts ih => exact fun t _ => ih _ rfl
  rw [Measure.toType]
  cases hFactors : m.factors with
  | nil => rfl
  | cons first rest =>
      apply hFold
      have hMem : first ∈ m.factors := hFactors ▸ List.mem_cons_self
      simp only [Measure.factors, List.mem_append, List.mem_map] at hMem
      rcases hMem with ⟨p, -, rfl⟩ | ⟨p, -, rfl⟩ <;> rfl

/-- The canonical form of a type is read as the type, since the normal form of a
unit stands for the same element of the group. -/
theorem toValue_canonical {t u : Ty} (h : t.canonical = .ok u) : u.toValue = t.toValue := by
  induction t generalizing u with
  | arrow a b iha ihb =>
      obtain ⟨c, hc, h⟩ := bind_eq_ok.mp h
      obtain ⟨d, hd, h⟩ := bind_eq_ok.mp h
      cases h
      rw [toValue, iha hc, ihb hd, toValue]
  | float v =>
      obtain ⟨m, hm, h⟩ := bind_eq_ok.mp h
      cases h
      rw [toValue, toValue, ← toUnit_of_toMeasure hm]
      rfl
  | mul a b =>
      obtain ⟨m, -, h⟩ := bind_eq_ok.mp h
      cases h
      exact toValue_toType m
  | pow a e =>
      obtain ⟨m, -, h⟩ := bind_eq_ok.mp h
      cases h
      exact toValue_toType m
  | _ =>
      cases h
      rfl

/-- Reading a unit brings in no variables. It may lose some, as powers cancel. -/
theorem mem_freeVars_of_toUnit {t : Ty} {x : Name} (h : x ∈ t.toUnit.freeVars) :
    x ∈ t.freeVars := by
  induction t with
  | var y =>
      rw [UnitGroup.mem_freeVars_var.mp h]
      exact List.mem_cons_self
  | prim p => exact absurd h UnitGroup.not_mem_freeVars_prim
  | mul a b iha ihb =>
      rcases UnitGroup.mem_freeVars_add h with h | h
      · exact List.mem_append_left _ (iha h)
      · exact List.mem_append_right _ (ihb h)
  | pow a e ih => exact ih (UnitGroup.mem_freeVars_smul h)
  | _ => exact absurd h UnitGroup.not_mem_freeVars_zero

theorem mem_freeVars_of_toValue {t : Ty} {p : Name × Kind} (h : p ∈ t.toValue.freeVars) :
    p.1 ∈ t.freeVars := by
  induction t with
  | var x =>
      rw [List.mem_singleton.mp h]
      exact List.mem_cons_self
  | arrow a b iha ihb =>
      rcases List.mem_append.mp h with h | h
      · exact List.mem_append_left _ (iha h)
      · exact List.mem_append_right _ (ihb h)
  | float u =>
      obtain ⟨x, hx, rfl⟩ := List.mem_map.mp h
      exact mem_freeVars_of_toUnit (t := u) hx
  | _ =>
      obtain ⟨x, hx, rfl⟩ := List.mem_map.mp h
      exact absurd hx UnitGroup.not_mem_freeVars_zero

noncomputable def denote : (k : Kind) → Ty → Meaning k
  | .value => toValue
  | .unit => toUnit

/-- Reading a substituted unit is substituting in the group what the units that
were put in stand for. -/
theorem toUnit_subst (σ : Assignment Ty) (t : Ty) :
    (t.subst σ).toUnit = UnitGroup.subst (fun x => ((σ x).getD (var x)).toUnit) t.toUnit := by
  induction t with
  | var x =>
      rw [toUnit, UnitGroup.subst_var]
      rfl
  | prim p => exact (UnitGroup.subst_prim _ p).symm
  | mul a b iha ihb => rw [subst, toUnit, iha, ihb, toUnit, map_add]
  | pow a e ih => rw [subst, toUnit, ih, toUnit, map_smul]
  | _ => exact (map_zero _).symm

/-- Reading a substituted type is substituting, at each kind, what the types
that were put in stand for. -/
theorem toValue_subst (σ : Assignment Ty) (t : Ty) :
    (t.subst σ).toValue = t.toValue.subst fun x k => ((σ x).getD (var x)).denote k := by
  induction t with
  | var x => rfl
  | arrow a b iha ihb =>
      rw [subst, toValue, iha, ihb]
      rfl
  | float u =>
      rw [subst, toValue, toUnit_renormalized, toUnit_subst]
      rfl
  | _ => exact congrArg ValueTy.float (map_zero _).symm

end Ty

/-- Types read as value types and as units. A unit goal asks that a
unit be dimensionless. -/
noncomputable def reading : Reading language where
  algebra := algebra
  denote k t := t.denote k
  Special θ
    | .hull .. => True
    | .identity u => UnitGroup.subst (fun x => θ x .unit) u.toUnit = 0

theorem assign_var (σ : Assignment Ty) (x : Name) (k : Kind) :
    reading.assign reading.algebra.var σ x k = ((σ x).getD (.var x)).denote k := by
  unfold Reading.assign
  cases σ x with
  | none => cases k <;> rfl
  | some u => exact algebra.subst_id (u.denote k)

/-- The reading respects substitution and the rules. -/
noncomputable def model : Model language where
  toReading := reading
  asVar_var _ _ := rfl
  denote_var {t x} h k := by
    cases t with
    | var y => cases h; cases k <;> rfl
    | _ => cases h
  denote_arrow _ _ := rfl
  denote_subst σ k t := by
    rw [show reading.assign reading.algebra.var σ = _ from funext₂ (assign_var σ)]
    cases k with
    | value => exact Ty.toValue_subst σ t
    | unit => exact Ty.toUnit_subst σ t
  freeVars_denote {k t} p hp := by
    cases k with
    | value => exact Ty.mem_freeVars_of_toValue hp
    | unit =>
        obtain ⟨x, hx, rfl⟩ := List.mem_map.mp hp
        exact Ty.mem_freeVars_of_toUnit hx
  decompose {θ l r goals} h hGoals := by
    rcases decompose_eq_ok h with
      ⟨a, b, c, d, rfl, rfl, rfl⟩ | ⟨u, v, m, n, unit, rfl, rfl, hm, hn, hUnit, rfl⟩
    · exact congrArg₂ ValueTy.arrow (hGoals _ List.mem_cons_self)
        (hGoals _ (List.mem_cons_of_mem _ List.mem_cons_self))
    · have hOne : UnitGroup.subst (fun x => θ x .unit) unit.toUnit = 0 :=
        hGoals _ List.mem_cons_self
      rw [Measure.toUnit_subtract hUnit, Ty.toUnit_of_toMeasure hm, Ty.toUnit_of_toMeasure hn,
        map_sub, sub_eq_zero] at hOne
      exact congrArg ValueTy.float hOne
  literal h := by cases h; rfl
  finish h := Ty.toValue_canonical h

end HindleyMilner.Units
