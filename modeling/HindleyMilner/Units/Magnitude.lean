import HindleyMilner.Total
import HindleyMilner.Units.Power

/-! The magnitude of a unit is the sum of the absolute powers of its variables.
Eliminating a variable up to a new one leaves a smaller magnitude, if another
variable has as large a power. -/
namespace HindleyMilner.Units

namespace Exponents

theorem get_of_mem_toList {a : Exponents} {p : Name × Exponent} (h : p ∈ a.toList) :
    a.get p.1 = p.2 := (mem_toList.mp h).1

/-- The factors that are listed are those whose exponent is not zero. -/
theorem mem_names {a : Exponents} {x : Name} : x ∈ a.names ↔ a.get x ≠ 0 := by
  rw [names, Std.ExtTreeMap.mem_keys, Std.ExtTreeMap.mem_iff_isSome_getElem?, getElem?_map]
  by_cases h : a.get x = 0 <;> simp [h]

theorem map_fst_toList (a : Exponents) : a.toList.map Prod.fst = a.names :=
  Std.ExtTreeMap.map_fst_toList_eq_keys

theorem nodup_names (a : Exponents) : a.names.Nodup := a.map_fst_toList ▸ a.nodup_toList

end Exponents

namespace Measure

/-- The sum of the absolute powers of the variables. -/
def magnitude (u : Measure) : Nat := total (fun p => p.2.toInt.natAbs) u.vars.toList

def absPower (u : Measure) (x : Name) : Nat := (u.power (.var x)).natAbs

/-- The magnitude is the total of the absolute powers of the listed variables. -/
theorem magnitude_eq (u : Measure) : u.magnitude = total u.absPower u.vars.names := by
  rw [magnitude, ← Exponents.map_fst_toList, total_map]
  exact total_congr fun p hp => by rw [absPower, power, Exponents.get_of_mem_toList hp]

/-- A variable that contributes to the magnitude is listed. -/
theorem mem_names_of_absPower {u : Measure} {x : Name} (h : u.absPower x ≠ 0) :
    x ∈ u.vars.names := by
  refine Exponents.mem_names.mpr fun hZero => h ?_
  rw [absPower, power, hZero]
  rfl

/-- The magnitude is at most the total over any list that holds all
variables of the unit. -/
theorem magnitude_le {u : Measure} {xs : List Name}
    (h : ∀ x, u.absPower x ≠ 0 → x ∈ xs) : u.magnitude ≤ total u.absPower xs := by
  rw [magnitude_eq]
  exact total_le_of_nodup u.vars.nodup_names fun x _ => h x

/-- Distinct variables contribute at most the magnitude together. -/
theorem le_magnitude {u : Measure} {xs : List Name} (h : xs.Nodup) :
    total u.absPower xs ≤ u.magnitude := by
  rw [magnitude_eq]
  exact total_le_of_nodup h fun x _ => mem_names_of_absPower

/-- The powers after a variable was eliminated up to a new one: the remainders
of the others, with the power of the variable added to that of the new one. -/
theorem power_eliminate {u quotient solution reduced : Measure} {x b : Name}
    (hx : u.exponent x ≠ 0) (hQuotient : u.pivot x = .ok quotient)
    (hSolution : quotient.add (.var b) = .ok solution)
    (hReduced : u.substitute x solution = .ok reduced) (f : Factor) :
    reduced.power f =
      (if f = .var x then 0 else (u.power f).tmod (u.exponent x).toInt)
        + if f = .var b then (u.exponent x).toInt else 0 := by
  rw [power_substitute hReduced, power_add hSolution, power_pivot hx hQuotient, power_of_var]
  by_cases hf : f = .var x
  · subst hf
    rw [power_var, if_pos rfl, if_pos rfl, if_pos rfl]
    by_cases hb : Factor.var x = .var b
    · simp only [if_pos hb, Int.zero_add, Int.sub_self, Int.zero_mul]
    · simp only [if_neg hb, Int.add_zero, Int.zero_sub, Int.neg_mul, Int.one_mul]
      omega
  · rw [if_neg hf, if_neg hf, if_neg hf, Int.tmod_def, Int.mul_comm (u.exponent x).toInt]
    by_cases hb : f = .var b
    · simp only [hb, if_true, Int.sub_zero, Int.add_mul, Int.neg_mul, Int.one_mul]
      omega
    · simp only [if_neg hb, Int.sub_zero, Int.add_zero, Int.neg_mul]
      omega

/-- Eliminating a variable up to a new one makes the magnitude smaller, if
another variable has as large a power. -/
theorem magnitude_eliminate_lt {u quotient solution reduced : Measure} {x b : Name}
    (hx : u.exponent x ≠ 0) (hRival : u.hasRival x = true) (hQuotient : u.pivot x = .ok quotient)
    (hSolution : quotient.add (.var b) = .ok solution)
    (hReduced : u.substitute x solution = .ok reduced) : reduced.magnitude < u.magnitude := by
  have hPower := power_eliminate hx hQuotient hSolution hReduced
  obtain ⟨⟨y, e⟩, hy, hRival⟩ := List.any_eq_true.mp hRival
  simp only [ne_eq, decide_not, Bool.and_eq_true, Bool.not_eq_true', decide_eq_false_iff_not,
    decide_eq_true_eq] at hRival
  obtain ⟨hyx, hLarge⟩ := hRival
  have hPos : 0 < (u.exponent x).toInt.natAbs := by
    rw [Int.natAbs_pos]
    exact fun h => hx (Int32.toInt_inj.mp h)
  have hRivalPower : u.absPower y = e.toInt.natAbs := by
    rw [absPower, power, Exponents.get_of_mem_toList hy]
  let others := (Name.distinct (u.vars.names ++ reduced.vars.names)).filter (· ≠ x)
  have hOthers : others.Nodup := (Name.nodup_distinct _).filter _
  have hMem : ∀ {z}, z ∈ others ↔ (z ∈ u.vars.names ∨ z ∈ reduced.vars.names) ∧ z ≠ x := by
    intro z
    simp [others, Name.mem_distinct]
  have hNodup : (x :: others).Nodup := List.nodup_cons.mpr ⟨fun h => (hMem.mp h).2 rfl, hOthers⟩
  have hBefore : total u.absPower (x :: others) ≤ u.magnitude := le_magnitude hNodup
  have hAfter : reduced.magnitude ≤ total reduced.absPower (x :: others) := by
    refine magnitude_le fun z hz => ?_
    by_cases hzx : z = x
    · exact hzx ▸ List.mem_cons_self
    · exact List.mem_cons_of_mem _ (hMem.mpr ⟨.inr (mem_names_of_absPower hz), hzx⟩)
  have hSplit : total reduced.absPower others ≤
      total (fun z => u.absPower z % (u.exponent x).toInt.natAbs) others
        + total (fun z => if z = b then (u.exponent x).toInt.natAbs else 0) others := by
    rw [← total_add]
    refine total_le fun z hz => ?_
    have hzx : Factor.var z ≠ .var x := fun h => (hMem.mp hz).2 (Factor.var.inj h)
    rw [absPower, hPower, if_neg hzx, absPower, ← Int.natAbs_tmod]
    by_cases hzb : z = b
    · rw [if_pos (congrArg Factor.var hzb), if_pos hzb]
      exact Int.natAbs_add_le _ _
    · rw [if_neg (fun h => hzb (Factor.var.inj h)), if_neg hzb, Int.add_zero]
      exact Nat.le_refl _
  have hSmaller : total (fun z => u.absPower z % (u.exponent x).toInt.natAbs) others <
      total u.absPower others := by
    refine total_lt (hMem.mpr ⟨.inl (mem_names_of_absPower ?_), hyx⟩) ?_
      fun z _ => Nat.mod_le _ _
    · omega
    · have := Nat.mod_lt (u.absPower y) hPos
      omega
  have hNew : reduced.absPower x
      + total (fun z => if z = b then (u.exponent x).toInt.natAbs else 0) others ≤
        u.absPower x := by
    have hOwn : u.absPower x = (u.exponent x).toInt.natAbs := rfl
    rw [absPower, hPower, if_pos rfl, Int.zero_add, hOwn]
    by_cases hxb : x = b
    · have hNone : total (fun z => if z = b then (u.exponent x).toInt.natAbs else 0) others ≤
          total (fun z => if z = b then (u.exponent x).toInt.natAbs else 0) [] := by
        refine total_le_of_nodup hOthers fun z hz hNe => absurd ?_ hNe
        rw [if_neg fun h => (hMem.mp hz).2 (h.trans hxb.symm)]
      rw [if_pos (congrArg Factor.var hxb)]
      rw [total_nil] at hNone
      omega
    · rw [if_neg fun h => hxb (Factor.var.inj h), Int.natAbs_zero, Nat.zero_add]
      exact total_ite_le hOthers b _
  rw [total_cons] at hBefore hAfter
  omega

end Measure

end HindleyMilner.Units
