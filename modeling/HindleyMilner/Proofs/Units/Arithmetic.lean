import HindleyMilner.Proofs.Units.Range
import HindleyMilner.Proofs.Units.Reading

/-! Arithmetic of units. Whatever is computed from units by products, powers, quotients,
solutions for a variable and replacements of one, the factors that occur in the result are
those whose exact power is not zero, each with that power. Products and powers fail exactly if
an exact power does not fit, and division fails in two cases only. -/
namespace HindleyMilner.Units

/-- The exponents in a list are the values that are not zero. -/
theorem Exponents.exists_mem_toList {a : Exponents} {x : Name} {n : Int} :
    (∃ e, (x, e) ∈ a.toList ∧ e.toInt = n) ↔ n = (a.get x).toInt ∧ n ≠ 0 := by
  have hZero : ∀ {e : Exponent}, e.toInt = 0 ↔ e = 0 := Int32.toInt_inj (y := 0)
  constructor
  · rintro ⟨e, he, rfl⟩
    obtain ⟨rfl, hNe⟩ := mem_toList.mp he
    exact ⟨rfl, fun h => hNe (hZero.mp h)⟩
  · rintro ⟨rfl, hNe⟩
    exact ⟨a.get x, mem_toList.mpr ⟨rfl, fun h => hNe (hZero.mpr h)⟩, rfl⟩

namespace Measure

/-- The factors that occur in a unit, with their powers. -/
def entries (u : Measure) : List (Factor × Int) :=
  u.vars.toList.map (fun p => (.var p.1, p.2.toInt)) ++
    u.prims.toList.map fun p => (.prim p.1, p.2.toInt)

/-- The entries of a unit list its factors with powers other than zero. -/
theorem mem_entries {u : Measure} {f : Factor} {n : Int} :
    (f, n) ∈ u.entries ↔ n = u.power f ∧ n ≠ 0 := by
  cases f with
  | var x => simp [entries, power, ← Exponents.exists_mem_toList]
  | prim p => simp [entries, power, ← Exponents.exists_mem_toList]

theorem map_fst_entries (u : Measure) :
    u.entries.map Prod.fst = u.vars.names.map .var ++ u.prims.names.map .prim := by
  simp only [entries, ← Exponents.map_fst_toList, List.map_append, List.map_map]
  rfl

theorem nodup_entries (u : Measure) : (u.entries.map Prod.fst).Nodup := by
  rw [map_fst_entries, List.nodup_append]
  refine ⟨u.vars.nodup_names.map fun _ _ => Factor.var.inj,
    u.prims.nodup_names.map fun _ _ => Factor.prim.inj, ?_⟩
  simp

/-- The entries of a unit are the factors to which a function gives a power that
is not zero, each with that power and once. -/
structure Lists (u : Measure) (value : Factor → Int) : Prop where
  nodup : (u.entries.map Prod.fst).Nodup
  mem_iff : ∀ f n, (f, n) ∈ u.entries ↔ n = value f ∧ n ≠ 0

/-- All powers of a unit fit into 32 bits. -/
theorem inRange_power (u : Measure) (f : Factor) : Exponent.InRange (u.power f) := by
  cases f with
  | var x => exact ⟨Int32.minValue_le_toInt _, Int32.toInt_le _⟩
  | prim p => exact ⟨Int32.minValue_le_toInt _, Int32.toInt_le _⟩

/-- An operation that is exact, and that succeeds if all exact powers fit, fails
exactly if one of them does not. -/
theorem fails_iff {m : Except TypeError Measure} {value : Factor → Int}
    (hExact : ∀ w, m = .ok w → ∀ f, w.power f = value f)
    (hFits : (∀ f, Exponent.InRange (value f)) → ∃ w, m = .ok w) :
    (∃ e, m = .error e) ↔ ∃ f, ¬Exponent.InRange (value f) := by
  constructor
  · rintro ⟨e, he⟩
    by_contra hNone
    simp only [not_exists, not_not] at hNone
    obtain ⟨w, hw⟩ := hFits hNone
    rw [he] at hw
    cases hw
  · rintro ⟨f, hf⟩
    cases m with
    | error e => exact ⟨e, rfl⟩
    | ok w => exact absurd (hExact w rfl f ▸ w.inRange_power f) hf

/-- A product is computed unless the exact sum of two powers leaves the range of
exponents. A factor that one of the units lacks counts with the power zero, so
it can never be the reason. -/
theorem add_fails_iff (u v : Measure) :
    (∃ e, u.add v = .error e) ↔ ∃ f, ¬Exponent.InRange (u.power f + v.power f) := by
  refine fails_iff (fun _ h => power_add h) fun hFits => u.reckonProduct_onlyOverflows v ?_
  intro n hn
  rcases List.mem_append.mp hn with hn | hn
  · obtain ⟨x, -, rfl⟩ := List.mem_map.mp hn
    exact hFits (.var x)
  · obtain ⟨p, -, rfl⟩ := List.mem_map.mp hn
    exact hFits (.prim p)

/-- The exact values that a function gives to the exponents of a unit. -/
theorem inRange_images {u : Measure} {g : Int → Int} (h : ∀ f, Exponent.InRange (g (u.power f)))
    {n : Int} (hn : n ∈ u.vars.images g ++ u.prims.images g) : Exponent.InRange n := by
  rcases List.mem_append.mp hn with hn | hn
  · obtain ⟨p, hp, rfl⟩ := List.mem_map.mp hn
    rw [← Exponents.get_of_mem_toList hp]
    exact h (.var p.1)
  · obtain ⟨p, hp, rfl⟩ := List.mem_map.mp hn
    rw [← Exponents.get_of_mem_toList hp]
    exact h (.prim p.1)

/-- A power is computed unless an exact product of exponents leaves the range. -/
theorem scale_fails_iff (u : Measure) (n : Exponent) :
    (∃ e, u.scale n = .error e) ↔ ∃ f, ¬Exponent.InRange (u.power f * n.toInt) :=
  fails_iff (fun _ h => power_scale h) fun hFits =>
    u.reckonPower_onlyOverflows n fun _ hn => inRange_images (g := (· * n.toInt)) hFits hn

/-- A quotient of exponents that is rounded toward zero leaves the range at one
place only, where the least exponent is divided by -1. -/
theorem not_inRange_tdiv_iff {n : Int} (hn : Exponent.InRange n) (d : Int) :
    ¬Exponent.InRange (n.tdiv d) ↔ d = -1 ∧ n = -2 ^ 31 := by
  have hLeast : Int32.minValue.toInt = -2 ^ 31 := rfl
  have hGreatest : Int32.maxValue.toInt = 2 ^ 31 - 1 := rfl
  rw [Exponent.InRange, hLeast, hGreatest] at hn ⊢
  rcases (by omega : d = 0 ∨ d = 1 ∨ d = -1 ∨ 2 ≤ d.natAbs) with rfl | rfl | rfl | hd
  · rw [Int.tdiv_zero]
    omega
  · rw [Int.tdiv_one]
    omega
  · rw [Int.tdiv_neg, Int.tdiv_one]
    omega
  · have hAbs : (n.tdiv d).natAbs = n.natAbs / d.natAbs := Int.natAbs_tdiv n d
    have hHalf : n.natAbs / d.natAbs ≤ n.natAbs / 2 := Nat.div_le_div_left hd (by decide)
    omega

/-- No exponent can be divided by zero, so only the unit without factors can. -/
theorem eq_identity_of_divide_zero {u w : Measure} (h : u.divide 0 = .ok w) : u = identity := by
  have hNone : ∀ {a b : Exponents}, a.map? (·.div? 0) = some b → ∀ x, a.get x = 0 := by
    intro a b hMap x
    have hValue := Exponents.merge?_eq_some_iff.mp hMap x
    by_contra hNonzero
    rw [if_neg hNonzero] at hValue
    exact (Exponent.div?_eq_some.mp hValue).1 rfl
  obtain ⟨hVars, hPrims⟩ := ofExponents_eq_ok h
  apply Measure.ext
  · exact Exponents.ext fun x => (hNone hVars x).trans (Exponents.get_zero x).symm
  · exact Exponents.ext fun x => (hNone hPrims x).trans (Exponents.get_zero x).symm

/-- A root is computed except in two cases: the divisor is zero and there is a
factor to be divided, or the divisor is -1 and some power is the least exponent,
which has no negative. -/
theorem divide_fails_iff (u : Measure) (d : Exponent) :
    (∃ e, u.divide d = .error e) ↔
      (d = 0 ∧ u ≠ identity) ∨ (d = -1 ∧ ∃ f, u.power f = -2 ^ 31) := by
  by_cases hd : d = 0
  · subst hd
    by_cases hu : u = identity
    · have hOk : identity.divide 0 = .ok identity := by decide +kernel
      simp [hu, hOk]
    · cases hRun : u.divide 0 with
      | ok w => exact absurd (eq_identity_of_divide_zero hRun) hu
      | error e => simp [hu]
  · have hQuotient : (∃ e, u.divide d = .error e) ↔
        ∃ f, ¬Exponent.InRange ((u.power f).tdiv d.toInt) :=
      fails_iff (fun _ h => power_divide h) fun hFits =>
        u.reckonQuotient_onlyOverflows hd fun _ hn =>
          inRange_images (g := (·.tdiv d.toInt)) hFits hn
    have hNegative : d.toInt = -1 ↔ d = -1 := Int32.toInt_inj (y := -1)
    rw [hQuotient]
    simp [not_inRange_tdiv_iff (u.inRange_power _), hNegative, hd]

end Measure

/-- A unit that is computed from others, or read from a type. -/
inductive Calculation where
  | given (u : Measure)
  | identity
  | var (x : Name)
  | prim (p : Name)
  | read (t : Ty)
  | invert (c : Calculation)
  | add (c d : Calculation)
  | subtract (c d : Calculation)
  | scale (c : Calculation) (n : Exponent)
  | divide (c : Calculation) (n : Exponent)
  | pivot (c : Calculation) (x : Name)
  | substitute (c : Calculation) (x : Name) (d : Calculation)

namespace Calculation

/-- Carry out the operations, which fails where one of them does. -/
def run : Calculation → Except TypeError Measure
  | given u => .ok u
  | identity => .ok .identity
  | var x => .ok (.var x)
  | prim p => .ok (.prim p)
  | read t => t.toMeasure
  | invert c => do
      let u ← c.run
      u.invert
  | add c d => do
      let u ← c.run
      let v ← d.run
      u.add v
  | subtract c d => do
      let u ← c.run
      let v ← d.run
      u.subtract v
  | scale c n => do
      let u ← c.run
      u.scale n
  | divide c n => do
      let u ← c.run
      u.divide n
  | pivot c x => do
      let u ← c.run
      u.pivot x
  | substitute c x d => do
      let u ← c.run
      let v ← d.run
      u.substitute x v

/-- The exact power of a factor, in integers without bounds. -/
noncomputable def value : Calculation → Factor → Int
  | given u, f => u.power f
  | identity, _ => 0
  | var x, f => if f = .var x then 1 else 0
  | prim p, f => if f = .prim p then 1 else 0
  | read t, f => t.toUnit f
  | invert c, f => -c.value f
  | add c d, f => c.value f + d.value f
  | subtract c d, f => c.value f - d.value f
  | scale c n, f => n.toInt * c.value f
  | divide c n, f => (c.value f).tdiv n.toInt
  | pivot c x, f =>
      if c.value (.var x) = 0 ∨ f = .var x then 0 else -(c.value f).tdiv (c.value (.var x))
  | substitute c x d, f =>
      (if f = .var x then 0 else c.value f) + c.value (.var x) * d.value f

/-- A calculation that succeeds has the power that exact arithmetic gives, for
every factor. The induction is on the calculation, and each operation is exact
on the exact powers of its parts. -/
theorem power_run {c : Calculation} {u : Measure} (h : c.run = .ok u) (f : Factor) :
    u.power f = c.value f := by
  induction c generalizing u f with
  | given v =>
      cases h
      rfl
  | identity =>
      cases h
      exact Measure.power_identity f
  | var x =>
      cases h
      exact Measure.power_of_var x f
  | prim p =>
      cases h
      exact Measure.power_of_prim p f
  | read t => rw [value, ← Measure.toUnit_apply, Ty.toUnit_of_toMeasure h]
  | invert c ih =>
      obtain ⟨v, hv, h⟩ := bind_eq_ok.mp h
      rw [value, Measure.power_invert h, ih hv]
  | add c d ihc ihd =>
      obtain ⟨v, hv, h⟩ := bind_eq_ok.mp h
      obtain ⟨w, hw, h⟩ := bind_eq_ok.mp h
      rw [value, Measure.power_add h, ihc hv, ihd hw]
  | subtract c d ihc ihd =>
      obtain ⟨v, hv, h⟩ := bind_eq_ok.mp h
      obtain ⟨w, hw, h⟩ := bind_eq_ok.mp h
      rw [value, Measure.power_subtract h, ihc hv, ihd hw]
  | scale c n ih =>
      obtain ⟨v, hv, h⟩ := bind_eq_ok.mp h
      rw [value, Measure.power_scale h, ih hv, Int.mul_comm]
  | divide c n ih =>
      obtain ⟨v, hv, h⟩ := bind_eq_ok.mp h
      rw [value, Measure.power_divide h, ih hv]
  | pivot c x ih =>
      obtain ⟨v, hv, h⟩ := bind_eq_ok.mp h
      have hZero : v.power (.var x) = 0 ↔ v.exponent x = 0 := Int32.toInt_inj (y := 0)
      rw [value, ← ih hv, ← ih hv]
      by_cases hx : v.exponent x = 0
      · -- Without the variable there is nothing to solve.
        have hIdentity : v.pivot x = .ok .identity := if_pos hx
        rw [hIdentity] at h
        cases h
        rw [if_pos (.inl (hZero.mpr hx)), Measure.power_identity]
      · rw [Measure.power_pivot hx h]
        simp only [hZero, hx, false_or]
        rfl
  | substitute c x d ihc ihd =>
      obtain ⟨v, hv, h⟩ := bind_eq_ok.mp h
      obtain ⟨w, hw, h⟩ := bind_eq_ok.mp h
      rw [value, Measure.power_substitute h, ← ihc hv, ← ihc hv, ← ihd hw, Measure.power_var]
      by_cases hf : f = .var x
      · simp only [hf, if_pos, Measure.power_var]
        ring
      · rw [if_neg hf, if_neg hf]
        ring

/-- Its entries are these powers, without those that are zero. -/
theorem lists_run {c : Calculation} {u : Measure} (h : c.run = .ok u) : u.Lists c.value where
  nodup := u.nodup_entries
  mem_iff f n := by rw [Measure.mem_entries, power_run h]

end Calculation

/-- Whatever is computed from units has no power of zero and has the exact power
of every factor. A product and a power of a unit fail exactly if an exact power
does not fit. Division fails exactly if a unit with factors is divided by zero,
or the least exponent by minus one. -/
theorem arithmetic_exact :
    (∀ {c : Calculation} {u : Measure}, c.run = .ok u → u.Lists c.value) ∧
    (∀ u v : Measure, (∃ e, u.add v = .error e) ↔
      ∃ f, ¬Exponent.InRange (u.power f + v.power f)) ∧
    (∀ (u : Measure) (n : Exponent), (∃ e, u.scale n = .error e) ↔
      ∃ f, ¬Exponent.InRange (u.power f * n.toInt)) ∧
    ∀ (u : Measure) (d : Exponent), (∃ e, u.divide d = .error e) ↔
      (d = 0 ∧ u ≠ .identity) ∨ (d = -1 ∧ ∃ f, u.power f = -2 ^ 31) :=
  ⟨Calculation.lists_run, Measure.add_fails_iff, Measure.scale_fails_iff,
    Measure.divide_fails_iff⟩

/-- The unit `a ^ 3 * kg ^ -7` solved for `a`, and the solution put for `a`
again. -/
def solvedCalculation : Calculation :=
  let unit : Calculation := .read (.mul (.pow (.var "a") 3) (.pow (.prim "kg") (-7)))
  .substitute unit "a" (.pivot unit "a")

theorem arithmetic_exact_solved :
    ∃ u, solvedCalculation.run = .ok u ∧ u.entries = [(.prim "kg", -1)] ∧
      u.Lists solvedCalculation.value := by
  have hRun : solvedCalculation.run.map Measure.entries = .ok [(.prim "kg", -1)] := by
    decide +kernel
  obtain ⟨u, hu, hEntries⟩ := map_eq_ok.mp hRun
  exact ⟨u, hu, hEntries, arithmetic_exact.1 hu⟩

end HindleyMilner.Units
