import HindleyMilner.Proofs.Units.Arithmetic

/-! Eliminating a variable from a unit equation. The equation is solved for the variable as far
as integers allow, a new variable takes up the rest, and the solution is put for the variable.
That leaves the remainders of all other powers, so the equation gets smaller as long as another
variable has as large a power; and the equation is solved where there are no remainders. -/
namespace HindleyMilner.Units.Measure

/-- Solve for a variable up to a new one, and put the solution for the variable. -/
def eliminated (u : Measure) (x b : Name) : Except TypeError Measure := do
  let quotient ← u.pivot x
  let solution ← quotient.add (.var b)
  u.substitute x solution

/-- Solve for a variable, and put the solution for it. -/
def solvedFor (u : Measure) (x : Name) : Except TypeError Measure := do
  let solution ← u.pivot x
  u.substitute x solution

variable {u : Measure} {x b : Name}

/-- Elimination up to a new variable is made of three computations: a quotient,
its product with the new variable, and the substitution of that. -/
theorem eliminated_eq_ok {r : Measure} (h : u.eliminated x b = .ok r) :
    ∃ quotient solution, u.pivot x = .ok quotient ∧ quotient.add (.var b) = .ok solution ∧
      u.substitute x solution = .ok r := by
  obtain ⟨quotient, hQuotient, h⟩ := bind_eq_ok.mp h
  obtain ⟨solution, hSolution, h⟩ := bind_eq_ok.mp h
  exact ⟨quotient, solution, hQuotient, hSolution, h⟩

/-- A variable whose power divides all others is solved without remainder. -/
theorem solvedFor_eq_identity {r : Measure} (hx : u.exponent x ≠ 0)
    (hDivides : u.divisibleBy (u.exponent x) = true) (h : u.solvedFor x = .ok r) :
    r = identity := by
  obtain ⟨solution, hSolution, h⟩ := bind_eq_ok.mp h
  apply ext_power
  intro f
  rw [power_substitute h, power_pivot hx hSolution, power_identity]
  by_cases hf : f = .var x
  · rw [if_pos hf, if_pos hf, hf, power_var]
    omega
  · rw [if_neg hf, if_neg hf, Int.sub_zero, Int.neg_mul, Int.tdiv_mul_cancel (dvd_power hDivides f)]
    omega

theorem inRange_iff {n : Int} : Exponent.InRange n ↔ -2 ^ 31 ≤ n ∧ n < 2 ^ 31 := by
  have hLeast : Int32.minValue.toInt = -2 ^ 31 := rfl
  have hGreatest : Int32.maxValue.toInt = 2 ^ 31 - 1 := rfl
  rw [Exponent.InRange, hLeast, hGreatest]
  omega

theorem power_mem_range (u : Measure) (f : Factor) : -2 ^ 31 ≤ u.power f ∧ u.power f < 2 ^ 31 :=
  inRange_iff.mp (u.inRange_power f)

theorem exists_of_not_fails {m : Except TypeError Measure} (h : ¬∃ e, m = .error e) :
    ∃ w, m = .ok w := by
  cases m with
  | error e => exact absurd ⟨e, rfl⟩ h
  | ok w => exact ⟨w, rfl⟩

/-- A product is computed if all sums fit. -/
theorem exists_add {v : Measure}
    (h : ∀ f, -2 ^ 31 ≤ u.power f + v.power f ∧ u.power f + v.power f < 2 ^ 31) :
    ∃ w, u.add v = .ok w := by
  apply exists_of_not_fails
  rw [add_fails_iff]
  rintro ⟨f, hf⟩
  exact hf (inRange_iff.mpr (h f))

theorem exists_scale {n : Exponent}
    (h : ∀ f, -2 ^ 31 ≤ u.power f * n.toInt ∧ u.power f * n.toInt < 2 ^ 31) :
    ∃ w, u.scale n = .ok w := by
  apply exists_of_not_fails
  rw [scale_fails_iff]
  rintro ⟨f, hf⟩
  exact hf (inRange_iff.mpr (h f))

/-- An inverse is computed if no power is the least one. -/
theorem exists_invert (h : ∀ f, u.power f ≠ -2 ^ 31) : ∃ w, u.invert = .ok w := by
  apply exists_scale
  intro f
  have hRange := u.power_mem_range f
  have hNe := h f
  show -2 ^ 31 ≤ u.power f * -1 ∧ u.power f * -1 < 2 ^ 31
  omega

theorem exists_subtract {v : Measure} (hInverse : ∀ f, v.power f ≠ -2 ^ 31)
    (h : ∀ f, -2 ^ 31 ≤ u.power f - v.power f ∧ u.power f - v.power f < 2 ^ 31) :
    ∃ w, u.subtract v = .ok w := by
  obtain ⟨inverse, hw⟩ := exists_invert hInverse
  rw [subtract, hw]
  apply exists_add
  intro f
  rw [power_invert hw]
  have hf := h f
  omega

/-- No power that the power of the variable divides is the least one. -/
def Eliminable (u : Measure) (x : Name) : Prop :=
  ∀ f, (u.exponent x).toInt ∣ u.power f → u.power f ≠ -2 ^ 31

theorem toInt_exponent_ne_zero (hx : u.exponent x ≠ 0) : (u.exponent x).toInt ≠ 0 :=
  fun h => hx (Int32.toInt_inj.mp h)

/-- A quotient times the divisor is no larger than what was divided, and as
large only if nothing remains. -/
theorem Eliminable.natAbs_tdiv_mul_lt (h : u.Eliminable x) (f : Factor) :
    ((u.power f).tdiv (u.exponent x).toInt * (u.exponent x).toInt).natAbs < 2 ^ 31 := by
  have hRange := u.power_mem_range f
  have hDivision := Nat.div_add_mod' (u.power f).natAbs (u.exponent x).toInt.natAbs
  have hAbs : ((u.power f).tdiv (u.exponent x).toInt * (u.exponent x).toInt).natAbs =
      (u.power f).natAbs / (u.exponent x).toInt.natAbs * (u.exponent x).toInt.natAbs := by
    rw [Int.natAbs_mul, Int.natAbs_tdiv]
    rfl
  rw [hAbs]
  by_contra hLarge
  have hLeast : u.power f = -2 ^ 31 := by omega
  refine h f (Int.natAbs_dvd_natAbs.mp (Nat.dvd_of_mod_eq_zero ?_)) hLeast
  omega

/-- The quotients are not too large to be negated. -/
theorem Eliminable.natAbs_tdiv_lt (hx : u.exponent x ≠ 0) (h : u.Eliminable x) (f : Factor) :
    ((u.power f).tdiv (u.exponent x).toInt).natAbs < 2 ^ 31 := by
  have hPos : 0 < (u.exponent x).toInt.natAbs := Int.natAbs_pos.mpr (toInt_exponent_ne_zero hx)
  have hProduct := h.natAbs_tdiv_mul_lt f
  rw [Int.natAbs_mul] at hProduct
  exact Nat.lt_of_le_of_lt (Nat.le_mul_of_pos_right _ hPos) hProduct

/-- The other factors can be taken apart from the power of the
variable. The power is subtracted by adding its inverse, so it must
not be the least exponent. -/
theorem exists_rest (hLeast : u.power (.var x) ≠ -2 ^ 31) :
    ∃ power rest, (var x).scale (u.exponent x) = .ok power ∧ u.subtract power = .ok rest ∧
      ∀ f, rest.power f = if f = .var x then 0 else u.power f := by
  obtain ⟨power, hPower⟩ : ∃ power, (var x).scale (u.exponent x) = .ok power := by
    apply exists_scale
    intro f
    have hRange := u.power_mem_range (.var x)
    rw [power_of_var, ← power_var]
    split <;> omega
  have hPowers : ∀ f, power.power f = if f = .var x then u.power f else 0 := by
    intro f
    rw [power_scale hPower, power_of_var, ← power_var]
    by_cases hf : f = .var x
    · rw [if_pos hf, if_pos hf, hf, Int.one_mul]
    · rw [if_neg hf, if_neg hf, Int.zero_mul]
  obtain ⟨rest, hRest⟩ : ∃ rest, u.subtract power = .ok rest := by
    refine exists_subtract (fun f => ?_) fun f => ?_
    · rw [hPowers]
      by_cases hf : f = .var x
      · rw [if_pos hf]
        exact hf ▸ hLeast
      · rw [if_neg hf]
        omega
    · have hRange := u.power_mem_range f
      rw [hPowers]
      split <;> omega
  refine ⟨power, rest, hPower, hRest, fun f => ?_⟩
  rw [power_subtract hRest, hPowers]
  split <;> omega

/-- So the quotient can be computed: the division by -1 has no least exponent to
negate, and no quotient is the least exponent. -/
theorem Eliminable.exists_pivot (hx : u.exponent x ≠ 0) (h : u.Eliminable x) :
    ∃ quotient, u.pivot x = .ok quotient := by
  obtain ⟨power, rest, hPower, hRest, hRests⟩ := exists_rest (h (.var x) (Int.dvd_refl _))
  obtain ⟨quotient, hQuotient⟩ : ∃ quotient, rest.divide (u.exponent x) = .ok quotient := by
    apply exists_of_not_fails
    rw [divide_fails_iff]
    rintro (⟨hEq, -⟩ | ⟨hEq, f, hf⟩)
    · exact hx hEq
    · rw [hRests] at hf
      split at hf
      · omega
      · refine h f ?_ hf
        rw [hEq]
        exact Int.neg_dvd.mpr (Int.one_dvd _)
  have hInverse : ∀ f, quotient.power f ≠ -2 ^ 31 := by
    intro f
    rw [power_divide hQuotient, hRests]
    split
    · rw [Int.zero_tdiv]
      omega
    · have hSmall := h.natAbs_tdiv_lt hx f
      omega
  obtain ⟨w, hw⟩ := exists_invert hInverse
  refine ⟨w, ?_⟩
  rw [pivot, if_neg hx, hPower]
  show (u.subtract power >>= fun rest => rest.divide (u.exponent x) >>= invert) = _
  rw [hRest]
  show (rest.divide (u.exponent x) >>= invert) = _
  rw [hQuotient]
  exact hw

/-- A substitution is computed if the difference of the two units, its multiple
by the exponent of the variable, and the sum with the unit do all fit. -/
theorem exists_substitute {v : Measure}
    (hDifference : ∀ f, -2 ^ 31 ≤ v.power f - (var x).power f ∧
      v.power f - (var x).power f < 2 ^ 31)
    (hChange : ∀ f, -2 ^ 31 ≤ (v.power f - (var x).power f) * (u.exponent x).toInt ∧
      (v.power f - (var x).power f) * (u.exponent x).toInt < 2 ^ 31)
    (hSum : ∀ f, -2 ^ 31 ≤ (v.power f - (var x).power f) * (u.exponent x).toInt + u.power f ∧
      (v.power f - (var x).power f) * (u.exponent x).toInt + u.power f < 2 ^ 31) :
    ∃ w, u.substitute x v = .ok w := by
  have hInverse : ∀ f, (var x).power f ≠ -2 ^ 31 := by
    intro f
    rw [power_of_var]
    split <;> omega
  obtain ⟨difference, hd⟩ := exists_subtract hInverse hDifference
  have hPowers := power_subtract hd
  obtain ⟨change, hc⟩ : ∃ change, difference.scale (u.exponent x) = .ok change := by
    apply exists_scale
    intro f
    rw [hPowers]
    exact hChange f
  have hChanges := power_scale hc
  rw [substitute, hd]
  show ∃ w, (difference.scale (u.exponent x) >>= fun change => change.add u) = .ok w
  rw [hc]
  apply exists_add
  intro f
  rw [hChanges, hPowers]
  exact hSum f

/-- A unit that may be put for a variable to eliminate it: the quotients of all
other powers, negated, and possibly a new variable. -/
structure IsSolution (u : Measure) (x : Name) (v : Measure) : Prop where
  own : v.power (.var x) = 0
  other : ∀ f, f ≠ .var x →
    v.power f = -(u.power f).tdiv (u.exponent x).toInt ∨ (v.power f = 1 ∧ u.power f = 0)

theorem isSolution_pivot {quotient : Measure} (hx : u.exponent x ≠ 0)
    (h : u.pivot x = .ok quotient) : u.IsSolution x quotient where
  own := by rw [power_pivot hx h, if_pos rfl]
  other f hf := .inl (by rw [power_pivot hx h, if_neg hf])

/-- So it does with a new variable that does not occur in the unit. -/
theorem isSolution_add {quotient solution : Measure} (hx : u.exponent x ≠ 0)
    (hb : u.exponent b = 0) (hQuotient : u.pivot x = .ok quotient)
    (hSolution : quotient.add (.var b) = .ok solution) : u.IsSolution x solution where
  own := by
    have hNe : x ≠ b := fun hEq => hx (hEq ▸ hb)
    rw [power_add hSolution, power_pivot hx hQuotient, power_of_var]
    simp [hNe]
  other f hf := by
    have hNone : u.power (.var b) = 0 := congrArg Int32.toInt hb
    rw [power_add hSolution, power_pivot hx hQuotient, power_of_var, if_neg hf]
    by_cases hfb : f = .var b
    · right
      rw [if_pos hfb, hfb, hNone, Int.zero_tdiv]
      exact ⟨rfl, rfl⟩
    · left
      rw [if_neg hfb, Int.add_zero]

/-- What a solution changes in the power of a factor. -/
theorem IsSolution.difference {v : Measure} (hv : u.IsSolution x v) (f : Factor) :
    (f = .var x ∧ v.power f - (var x).power f = -1) ∨
      (f ≠ .var x ∧ (v.power f - (var x).power f = -(u.power f).tdiv (u.exponent x).toInt ∨
        (v.power f - (var x).power f = 1 ∧ u.power f = 0))) := by
  rw [power_of_var]
  by_cases hf : f = .var x
  · left
    rw [if_pos hf, hf, hv.own]
    exact ⟨rfl, rfl⟩
  · right
    rw [if_neg hf, Int.sub_zero]
    exact ⟨hf, hv.other f hf⟩

/-- Where no power that is divided without remainder is the least one, the
substitution can be computed. -/
theorem Eliminable.exists_substitute (hx : u.exponent x ≠ 0) (h : u.Eliminable x) {v : Measure}
    (hv : u.IsSolution x v) : ∃ r, u.substitute x v = .ok r := by
  have hRange := u.power_mem_range (.var x)
  have hLeast : u.power (.var x) ≠ -2 ^ 31 := h _ (Int.dvd_refl _)
  rw [power_var] at hRange hLeast
  refine Measure.exists_substitute (fun f => ?_) (fun f => ?_) fun f => ?_
  · have hSmall := h.natAbs_tdiv_lt hx f
    rcases hv.difference f with ⟨-, hEq⟩ | ⟨-, hEq | ⟨hEq, -⟩⟩ <;> rw [hEq] <;> omega
  · have hSmall := h.natAbs_tdiv_mul_lt f
    rcases hv.difference f with ⟨-, hEq⟩ | ⟨-, hEq | ⟨hEq, -⟩⟩ <;> rw [hEq]
    · omega
    · rw [Int.neg_mul]
      omega
    · omega
  · rcases hv.difference f with ⟨hf, hEq⟩ | ⟨-, hEq | ⟨hEq, hNone⟩⟩ <;> rw [hEq]
    · rw [hf, power_var]
      omega
    · -- A remainder is smaller than the divisor.
      have hRemainder : (u.power f).tmod (u.exponent x).toInt =
          -(u.power f).tdiv (u.exponent x).toInt * (u.exponent x).toInt + u.power f := by
        rw [Int.tmod_def, Int.neg_mul, Int.mul_comm (u.exponent x).toInt]
        omega
      have hAbs := Int.natAbs_tmod (u.power f) (u.exponent x).toInt
      have hLess := Nat.mod_lt (u.power f).natAbs
        (Int.natAbs_pos.mpr (toInt_exponent_ne_zero hx))
      rw [← hRemainder]
      omega
    · rw [hNone]
      omega

/-- Conversely the substitution fails to be computed where a power divided
without remainder is the least one, as its quotient times the divisor
would be its negative. -/
theorem eliminable_of_substitute {quotient v r : Measure} (hx : u.exponent x ≠ 0)
    (hQuotient : u.pivot x = .ok quotient) (hv : u.IsSolution x v)
    (hResult : u.substitute x v = .ok r) : u.Eliminable x := by
  intro f hDivides hLeast
  rcases hv.difference f with ⟨hf, -⟩ | ⟨-, hEq | ⟨-, hNone⟩⟩
  · -- The power of the variable itself is inverted to take it out of the equation.
    rw [pivot, if_neg hx] at hQuotient
    obtain ⟨power, hPower, hQuotient⟩ := bind_eq_ok.mp hQuotient
    obtain ⟨rest, hRest, -⟩ := bind_eq_ok.mp hQuotient
    obtain ⟨inverse, hInverse, -⟩ := bind_eq_ok.mp hRest
    have hRange := inverse.power_mem_range f
    rw [power_invert hInverse, power_scale hPower, power_of_var, if_pos hf, Int.one_mul,
      ← power_var, ← hf, hLeast] at hRange
    omega
  · obtain ⟨difference, hDifference, hResult⟩ := bind_eq_ok.mp hResult
    obtain ⟨change, hChange, -⟩ := bind_eq_ok.mp hResult
    have hRange := change.power_mem_range f
    rw [power_scale hChange, power_subtract hDifference, hEq, Int.neg_mul,
      Int.tdiv_mul_cancel hDivides, hLeast] at hRange
    omega
  · omega

/-- So solving for a variable succeeds exactly if no such power is the least one. -/
theorem exists_solvedFor_iff (hx : u.exponent x ≠ 0) :
    (∃ r, u.solvedFor x = .ok r) ↔ u.Eliminable x := by
  constructor
  · rintro ⟨r, hr⟩
    obtain ⟨quotient, hQuotient, hResult⟩ := bind_eq_ok.mp hr
    exact eliminable_of_substitute hx hQuotient (isSolution_pivot hx hQuotient) hResult
  · intro h
    obtain ⟨quotient, hQuotient⟩ := h.exists_pivot hx
    rw [solvedFor, hQuotient]
    exact h.exists_substitute hx (isSolution_pivot hx hQuotient)

/-- So does elimination up to a new variable. The new variable does not occur in
the unit, so the product of the quotient with it always fits. -/
theorem exists_eliminated_iff (hx : u.exponent x ≠ 0) (hb : u.exponent b = 0) :
    (∃ r, u.eliminated x b = .ok r) ↔ u.Eliminable x := by
  constructor
  · rintro ⟨r, hr⟩
    obtain ⟨quotient, solution, hQuotient, hSolution, hResult⟩ := eliminated_eq_ok hr
    exact eliminable_of_substitute hx hQuotient (isSolution_add hx hb hQuotient hSolution) hResult
  · intro h
    obtain ⟨quotient, hQuotient⟩ := h.exists_pivot hx
    obtain ⟨solution, hSolution⟩ : ∃ solution, quotient.add (.var b) = .ok solution := by
      apply exists_add
      intro f
      have hSmall := h.natAbs_tdiv_lt hx f
      have hNone : u.power (.var b) = 0 := congrArg Int32.toInt hb
      rw [power_pivot hx hQuotient, power_of_var]
      by_cases hfb : f = .var b
      · rw [hfb, hNone, Int.zero_tdiv]
        split <;> simp
      · rw [if_neg hfb]
        split <;> omega
    rw [eliminated, hQuotient]
    show ∃ r, (quotient.add (.var b) >>= fun solution => u.substitute x solution) = .ok r
    rw [hSolution]
    exact h.exists_substitute hx (isSolution_add hx hb hQuotient hSolution)

/-- Eliminating a variable up to a new one leaves the new one with the power of
the variable, the variable with none, and every other factor with the remainder
of its power. So the magnitude gets smaller if another variable has as large a
power. A variable whose power divides all others is solved without a new one,
and nothing is left. Both succeed exactly if no power that the power of the
variable divides is the least one. -/
theorem elimination_makes_progress (hx : u.exponent x ≠ 0) (hb : u.exponent b = 0) :
    (∀ r, u.eliminated x b = .ok r →
      r.exponent b = u.exponent x ∧ r.exponent x = 0 ∧
      (∀ f, f ≠ .var x → f ≠ .var b → r.power f = (u.power f).tmod (u.exponent x).toInt) ∧
      (u.hasRival x = true → r.magnitude < u.magnitude)) ∧
    (u.divisibleBy (u.exponent x) = true → ∀ r, u.solvedFor x = .ok r → r = identity) ∧
    ((∃ r, u.eliminated x b = .ok r) ↔ u.Eliminable x) ∧
    ((∃ r, u.solvedFor x = .ok r) ↔ u.Eliminable x) := by
  refine ⟨fun r hr => ?_, fun hDivides r => solvedFor_eq_identity hx hDivides,
    exists_eliminated_iff hx hb, exists_solvedFor_iff hx⟩
  have hNe : x ≠ b := fun hEq => hx (hEq ▸ hb)
  have hNone : u.power (.var b) = 0 := congrArg Int32.toInt hb
  obtain ⟨quotient, solution, hQuotient, hSolution, hResult⟩ := eliminated_eq_ok hr
  have hPower := power_eliminate hx hQuotient hSolution hResult
  refine ⟨Int32.toInt_inj.mp ?_, Int32.toInt_inj.mp ?_, fun f hfx hfb => ?_, fun hRival =>
    magnitude_eliminate_lt hx hRival hQuotient hSolution hResult⟩
  · rw [← power_var, hPower, hNone, Int.zero_tmod]
    simp [Ne.symm hNe]
  · rw [← power_var, hPower]
    simp [hNe]
  · rw [hPower, if_neg hfx, if_neg hfb, Int.add_zero]

/-- The unit `x ^ -4 * y ^ 6 * kg ^ 7`. -/
def rivalUnit : Measure :=
  ⟨.ofMap (.ofList [("x", (-4 : Exponent)), ("y", 6)]), .ofMap (.ofList [("kg", (7 : Exponent))])⟩

theorem elimination_makes_progress_rivalUnit :
    ∃ r, rivalUnit.eliminated "x" "b" = .ok r ∧ r.exponent "b" = -4 ∧ r.exponent "x" = 0 ∧
      r.power (.var "y") = 2 ∧ r.power (.prim "kg") = 3 ∧ r.magnitude < rivalUnit.magnitude := by
  have hRun : (rivalUnit.eliminated "x" "b").map entries =
      .ok [(.var "b", -4), (.var "y", 2), (.prim "kg", 3)] := by
    decide +kernel
  obtain ⟨r, hr, -⟩ := map_eq_ok.mp hRun
  have hx : rivalUnit.exponent "x" = -4 := by decide +kernel
  have hProgress := elimination_makes_progress (u := rivalUnit) (x := "x") (b := "b")
    (by decide +kernel) (by decide +kernel)
  obtain ⟨hNew, hOld, hOthers, hSmaller⟩ := hProgress.1 r hr
  refine ⟨r, hr, hNew.trans hx, hOld, ?_, ?_, hSmaller (by decide +kernel)⟩
  · exact (hOthers (.var "y") (by decide) (by decide)).trans (by decide +kernel)
  · exact (hOthers (.prim "kg") (by decide) (by decide)).trans (by decide +kernel)

end HindleyMilner.Units.Measure
