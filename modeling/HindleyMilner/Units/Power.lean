import HindleyMilner.Units.Measure

/-! The exact value of every operation on units. A unit is looked at through the
integer power of each of its factors; where an operation succeeds, that power
is what integer arithmetic says. -/
namespace HindleyMilner.Units

namespace Exponents

/-- Exponents are added exactly, also where only one of the two maps has the
factor. -/
theorem toInt_get_of_add? {a b c : Exponents} (h : a.add? b = some c) (x : Name) :
    (c.get x).toInt = (a.get x).toInt + (b.get x).toInt := by
  have hValue := merge?_eq_some_iff.mp h x
  by_cases hb : b.get x = 0
  · rw [if_pos hb] at hValue
    rw [hValue, hb]
    exact (Int.add_zero _).symm
  · rw [if_neg hb] at hValue
    exact Exponent.add?_eq_some.mp hValue

/-- An operation that computes an exact function is exact on every factor, if
the function leaves zero as it is. -/
theorem toInt_get_of_map? {f : Exponent → Option Exponent} {g : Int → Int} (hZero : g 0 = 0)
    (hf : ∀ {e e'}, f e = some e' → e'.toInt = g e.toInt) {a b : Exponents}
    (h : a.map? f = some b) (x : Name) : (b.get x).toInt = g (a.get x).toInt := by
  have hValue := merge?_eq_some_iff.mp h x
  by_cases ha : a.get x = 0
  · rw [if_pos ha, get_zero] at hValue
    rw [hValue, ha]
    exact hZero.symm
  · rw [if_neg ha] at hValue
    exact hf hValue

end Exponents

/-- What a unit is a product of powers of. -/
inductive Factor where
  | var (x : Name)
  | prim (p : Name)
deriving DecidableEq, Repr

namespace Measure

/-- The power of a factor in a unit. -/
def power (u : Measure) : Factor → Int
  | .var x => (u.vars.get x).toInt
  | .prim p => (u.prims.get p).toInt

theorem power_var (u : Measure) (x : Name) : u.power (.var x) = (u.exponent x).toInt := rfl

@[simp]
theorem power_identity (f : Factor) : identity.power f = 0 := by
  cases f <;> simp [power, identity]

/-- A variable as a unit has itself to the first power and nothing else. -/
theorem power_of_var (x : Name) (f : Factor) :
    (var x).power f = if f = .var x then 1 else 0 := by
  cases f with
  | var y =>
      by_cases h : x = y <;> simp [power, var, Exponents.get_single, h, eq_comm]
  | prim p => simp [power, var]

/-- So has a base unit. -/
theorem power_of_prim (p : Name) (f : Factor) :
    (prim p).power f = if f = .prim p then 1 else 0 := by
  cases f with
  | var y => simp [power, prim]
  | prim q =>
      by_cases h : p = q <;> simp [power, prim, Exponents.get_single, h, eq_comm]

/-- Units with the same power of every factor are equal. -/
theorem ext_power {u v : Measure} (h : ∀ f, u.power f = v.power f) : u = v := by
  refine Measure.ext (Exponents.ext fun x => ?_) (Exponents.ext fun p => ?_)
  · exact Int32.toInt_inj.mp (h (.var x))
  · exact Int32.toInt_inj.mp (h (.prim p))

/-- Both maps of exponents must have been computed for a unit to come about. -/
theorem ofExponents_eq_ok {e : TypeError} {a b : Option Exponents} {u : Measure}
    (h : ofExponents e a b = .ok u) : a = some u.vars ∧ b = some u.prims := by
  unfold ofExponents at h
  split at h
  · cases h
    exact ⟨rfl, rfl⟩
  · cases h

/-- The powers of a product are the sums of the powers, exactly. -/
theorem power_add {u v w : Measure} (h : u.add v = .ok w) (f : Factor) :
    w.power f = u.power f + v.power f := by
  obtain ⟨hVars, hPrims⟩ := ofExponents_eq_ok h
  cases f with
  | var x => exact Exponents.toInt_get_of_add? hVars x
  | prim p => exact Exponents.toInt_get_of_add? hPrims p

/-- An operation that computes an exact function gives every factor the exact
power. -/
theorem power_mapExponents {u w : Measure} {f : Exponent → Option Exponent} {g : Int → Int}
    (hZero : g 0 = 0) (hf : ∀ {e e'}, f e = some e' → e'.toInt = g e.toInt)
    (h : u.mapExponents f = .ok w) (factor : Factor) : w.power factor = g (u.power factor) := by
  obtain ⟨hVars, hPrims⟩ := ofExponents_eq_ok h
  cases factor with
  | var x => exact Exponents.toInt_get_of_map? hZero hf hVars x
  | prim p => exact Exponents.toInt_get_of_map? hZero hf hPrims p

/-- The powers of a power are products, exactly. -/
theorem power_scale {u w : Measure} {n : Exponent} (h : u.scale n = .ok w) (f : Factor) :
    w.power f = u.power f * n.toInt :=
  power_mapExponents (g := (· * n.toInt)) (Int.zero_mul _) Exponent.mul?_eq_some.mp h f

/-- Inverting a unit negates every power. -/
theorem power_invert {u w : Measure} (h : u.invert = .ok w) (f : Factor) :
    w.power f = -u.power f := by
  rw [power_scale h]
  show _ * (-1 : Int) = _
  omega

/-- The powers of a quotient are the differences of the powers. -/
theorem power_subtract {u v w : Measure} (h : u.subtract v = .ok w) (f : Factor) :
    w.power f = u.power f - v.power f := by
  obtain ⟨inverse, hInverse, hAdd⟩ := bind_eq_ok.mp h
  rw [power_add hAdd, power_invert hInverse]
  omega

/-- Powers are divided rounding toward zero. -/
theorem power_divide {u w : Measure} {d : Exponent} (h : u.divide d = .ok w) (f : Factor) :
    w.power f = (u.power f).tdiv d.toInt :=
  power_mapExponents (g := (·.tdiv d.toInt)) (Int.zero_tdiv _)
    (fun h => (Exponent.div?_eq_some.mp h).2) h f

/-- Solving for a variable divides all other powers by its own and negates them. -/
theorem power_pivot {u w : Measure} {x : Name} (hx : u.exponent x ≠ 0) (h : u.pivot x = .ok w)
    (f : Factor) :
    w.power f = if f = .var x then 0 else -(u.power f).tdiv (u.exponent x).toInt := by
  rw [pivot, if_neg hx] at h
  obtain ⟨power, hPower, h⟩ := bind_eq_ok.mp h
  obtain ⟨rest, hRest, h⟩ := bind_eq_ok.mp h
  obtain ⟨quotient, hQuotient, hInvert⟩ := bind_eq_ok.mp h
  rw [power_invert hInvert, power_divide hQuotient, power_subtract hRest, power_scale hPower,
    power_of_var]
  by_cases hf : f = .var x
  · simp [hf, power_var]
  · simp [hf]

/-- Putting a unit for a variable adds the unit's powers as often as
the variable occurred. -/
theorem power_substitute {u v w : Measure} {x : Name} (h : u.substitute x v = .ok w) (f : Factor) :
    w.power f =
      (v.power f - if f = .var x then 1 else 0) * (u.exponent x).toInt + u.power f := by
  obtain ⟨difference, hDifference, h⟩ := bind_eq_ok.mp h
  obtain ⟨change, hChange, hAdd⟩ := bind_eq_ok.mp h
  rw [power_add hAdd, power_scale hChange, power_subtract hDifference, power_of_var]

end Measure

end HindleyMilner.Units
