import HindleyMilner.Proofs.Units.Arithmetic
import HindleyMilner.Proofs.Units.Kinding

/-! Canonical types. The canonical type of a unit is read as that unit, so two value types have
the same canonical type exactly if they differ in nothing but how their units are written.
Putting a unit for a variable in a type agrees with putting it for the variable in exponents. -/
namespace HindleyMilner.Units

namespace Measure

/-- Units that stand for one element of the group are equal. -/
theorem ext_toUnit {u v : Measure} (h : u.toUnit = v.toUnit) : u = v :=
  ext_power fun f => by rw [← toUnit_apply, ← toUnit_apply, h]

/-- An operation that fails exactly if an exact power does not fit has
a result if all fit. -/
theorem exists_result {m : Except TypeError Measure} {value : Factor → Int}
    (hFails : (∃ e, m = .error e) ↔ ∃ f, ¬Exponent.InRange (value f))
    (hFits : ∀ f, Exponent.InRange (value f)) : ∃ w, m = .ok w := by
  cases m with
  | ok w => exact ⟨w, rfl⟩
  | error e =>
      obtain ⟨f, hf⟩ := hFails.mp ⟨e, rfl⟩
      exact absurd (hFits f) hf

/-- Units without a common factor have a product. -/
theorem add_of_disjoint {u v : Measure} (h : ∀ f, u.power f = 0 ∨ v.power f = 0) :
    ∃ w, u.add v = .ok w := by
  refine exists_result (add_fails_iff u v) fun f => ?_
  rcases h f with hu | hv
  · rw [hu, Int.zero_add]
    exact v.inRange_power f
  · rw [hv, Int.add_zero]
    exact u.inRange_power f

end Measure

def Factor.toType : Factor → Ty
  | var x => .var x
  | prim p => .prim p

/-- A power of a single factor is read with the exponent it is written with. The
computation multiplies that exponent by one, so it cannot overflow. -/
theorem Factor.toMeasure_pow (f : Factor) (e : Exponent) :
    ∃ m, (Ty.pow f.toType e).toMeasure = .ok m ∧
      ∀ g, m.power g = if g = f then e.toInt else 0 := by
  have hOne : ∃ m, f.toType.toMeasure = .ok m ∧ ∀ g, m.power g = if g = f then 1 else 0 := by
    cases f with
    | var x => exact ⟨_, rfl, Measure.power_of_var x⟩
    | prim p => exact ⟨_, rfl, Measure.power_of_prim p⟩
  obtain ⟨m, hm, hPower⟩ := hOne
  have hExact : ∀ g, m.power g * e.toInt = if g = f then e.toInt else 0 := by
    intro g
    rw [hPower]
    split
    · exact Int.one_mul _
    · exact Int.zero_mul _
  have hScale : ∃ w, m.scale e = .ok w := by
    refine Measure.exists_result (Measure.scale_fails_iff m e) fun g => ?_
    rw [hExact]
    split
    · exact ⟨Int32.minValue_le_toInt _, Int32.toInt_le _⟩
    · decide
  obtain ⟨w, hw⟩ := hScale
  refine ⟨w, bind_eq_ok.mpr ⟨m, hm, hw⟩, fun g => ?_⟩
  rw [Measure.power_scale hw, hExact]

/-- Powers of factors that are new to a unit can be multiplied to it
one after the other. No two exponents are ever added to each other,
so nothing overflows. -/
theorem Factor.toMeasure_foldl {ps : List (Factor × Exponent)} {t : Ty} {m : Measure}
    (ht : t.toMeasure = .ok m) (hNodup : (ps.map Prod.fst).Nodup)
    (hNew : ∀ p ∈ ps, m.power p.1 = 0) :
    ∃ w, ((ps.map fun p => Ty.pow p.1.toType p.2).foldl .mul t).toMeasure = .ok w := by
  induction ps generalizing t m with
  | nil => exact ⟨m, ht⟩
  | cons p ps ih =>
      obtain ⟨hHead, hRest⟩ := List.nodup_cons.mp hNodup
      obtain ⟨n, hn, hPower⟩ := p.1.toMeasure_pow p.2
      have hDisjoint : ∀ f, m.power f = 0 ∨ n.power f = 0 := by
        intro f
        by_cases hf : f = p.1
        · exact .inl (hf ▸ hNew p List.mem_cons_self)
        · exact .inr (by rw [hPower, if_neg hf])
      obtain ⟨w, hw⟩ := Measure.add_of_disjoint hDisjoint
      have hProduct : (Ty.mul t (.pow p.1.toType p.2)).toMeasure = .ok w :=
        bind_eq_ok.mpr ⟨m, ht, bind_eq_ok.mpr ⟨n, hn, hw⟩⟩
      refine ih hProduct hRest fun q hq => ?_
      have hNe : q.1 ≠ p.1 := fun hEq => hHead (hEq ▸ List.mem_map_of_mem hq)
      rw [Measure.power_add hw, hNew q (List.mem_cons_of_mem _ hq), hPower, if_neg hNe,
        Int.add_zero]

namespace Measure

def powers (u : Measure) : List (Factor × Exponent) :=
  u.vars.toList.map (fun p => (.var p.1, p.2)) ++ u.prims.toList.map fun p => (.prim p.1, p.2)

/-- The factors of the canonical type are the powers of the unit. -/
theorem factors_eq (u : Measure) : u.factors = u.powers.map fun p => .pow p.1.toType p.2 := by
  simp only [factors, powers, List.map_append, List.map_map]
  rfl

theorem nodup_powers (u : Measure) : (u.powers.map Prod.fst).Nodup := by
  have hEntries : u.entries.map Prod.fst = u.powers.map Prod.fst := by
    simp only [entries, powers, List.map_append, List.map_map]
    rfl
  exact hEntries ▸ u.nodup_entries

/-- The canonical type of a unit stands for that unit. Its factors are distinct,
so that reading it back succeeds. -/
theorem toMeasure_toType (u : Measure) : u.toType.toMeasure = .ok u := by
  -- It is enough that the type is read at all: what it is read as has the powers of the unit.
  have hReads : ∃ w, u.toType.toMeasure = .ok w := by
    have hNodup := u.nodup_powers
    rw [toType, factors_eq]
    cases hPowers : u.powers with
    | nil => exact ⟨identity, rfl⟩
    | cons p ps =>
        rw [hPowers] at hNodup
        obtain ⟨hHead, hRest⟩ := List.nodup_cons.mp hNodup
        obtain ⟨m, hm, hPower⟩ := p.1.toMeasure_pow p.2
        refine Factor.toMeasure_foldl hm hRest fun q hq => ?_
        have hNe : q.1 ≠ p.1 := fun hEq => hHead (hEq ▸ List.mem_map_of_mem hq)
        rw [hPower, if_neg hNe]
  obtain ⟨w, hw⟩ := hReads
  rw [hw, ext_toUnit (Ty.toUnit_of_toMeasure hw : w.toUnit = u.toUnit)]

end Measure

namespace Ty

/-- A type has a kind when its variables may have any. -/
def OfKind (t : Ty) (k : Kind) : Prop := HasKind (fun _ _ => True) t k

/-- Two types have the same variables, arrows and numbers in the same places,
and the units of corresponding numbers are related. -/
inductive Aligned (R : Ty → Ty → Prop) : Ty → Ty → Prop where
  | var (x : Name) : Aligned R (var x) (var x)
  | arrow {a b c d : Ty} (ha : Aligned R a c) (hb : Aligned R b d) :
      Aligned R (arrow a b) (arrow c d)
  | float {u v : Ty} (h : R u v) : Aligned R (float u) (float v)

namespace Aligned

variable {R S : Ty → Ty → Prop} {s t r : Ty}

theorem mono (hRS : ∀ u v, R u v → S u v) (h : Aligned R s t) : Aligned S s t := by
  induction h with
  | var x => exact .var x
  | arrow _ _ iha ihb => exact .arrow iha ihb
  | float h => exact .float (hRS _ _ h)

theorem flip (h : Aligned R s t) : Aligned (fun u v => R v u) t s := by
  induction h with
  | var x => exact .var x
  | arrow _ _ iha ihb => exact .arrow iha ihb
  | float h => exact .float h

theorem comp (h : Aligned R s t) (h' : Aligned S t r) :
    Aligned (fun u w => ∃ v, R u v ∧ S v w) s r := by
  induction h generalizing r with
  | var x =>
      cases h' with
      | var => exact .var x
  | arrow _ _ iha ihb =>
      cases h' with
      | arrow ha hb => exact .arrow (iha ha) (ihb hb)
  | float h =>
      cases h' with
      | float hS => exact .float ⟨_, h, hS⟩

theorem eq (h : Aligned (· = ·) s t) : s = t := by
  induction h with
  | var x => rfl
  | arrow _ _ iha ihb => rw [iha, ihb]
  | float h => rw [h]

end Aligned

/-- A type stands for a unit, and another is the canonical type of that unit. -/
def HasCanonical (u v : Ty) : Prop := ∃ m, u.toMeasure = .ok m ∧ v = m.toType

/-- The canonical form of a value type is the type with every unit in its
canonical form, and nothing else changed. -/
theorem canonical_eq_ok_iff {t c : Ty} (ht : t.OfKind .value) :
    t.canonical = .ok c ↔ t.Aligned HasCanonical c := by
  constructor
  · intro h
    induction t generalizing c with
    | var x =>
        cases h
        exact .var x
    | arrow a b iha ihb =>
        obtain ⟨d, hd, h⟩ := bind_eq_ok.mp h
        obtain ⟨e, he, h⟩ := bind_eq_ok.mp h
        cases h
        cases ht with
        | arrow ha hb => exact .arrow (iha ha hd) (ihb hb he)
    | float u =>
        obtain ⟨m, hm, h⟩ := bind_eq_ok.mp h
        cases h
        exact .float ⟨m, hm, rfl⟩
    | _ => cases ht
  · intro h
    clear ht
    induction h with
    | var x => rfl
    | arrow _ _ iha ihb => exact bind_eq_ok.mpr ⟨_, iha, bind_eq_ok.mpr ⟨_, ihb, rfl⟩⟩
    | float h =>
        obtain ⟨m, hm, rfl⟩ := h
        exact bind_eq_ok.mpr ⟨m, hm, rfl⟩

/-- Two units have the same integer power of every variable and of
every primitive unit. -/
def SamePowers (u v : Ty) : Prop := ∀ f : Factor, u.toUnit f = v.toUnit f

/-- Unit types have the same powers if the units that they are
normalized to are equal. -/
theorem samePowers_iff {u v : Ty} {m n : Measure} (hu : u.toMeasure = .ok m)
    (hv : v.toMeasure = .ok n) : u.SamePowers v ↔ m = n := by
  constructor
  · intro h
    apply Measure.ext_toUnit
    rw [toUnit_of_toMeasure hu, toUnit_of_toMeasure hv]
    exact Finsupp.ext h
  · rintro rfl f
    rw [← toUnit_of_toMeasure hu, ← toUnit_of_toMeasure hv]

/-- Unit types with one canonical form have the same powers. -/
theorem samePowers_of_hasCanonical {u v w : Ty} (hu : u.HasCanonical w)
    (hv : v.HasCanonical w) : u.SamePowers v := by
  obtain ⟨m, hm, rfl⟩ := hu
  obtain ⟨n, hn, hSame⟩ := hv
  have hRead := m.toMeasure_toType
  rw [hSame, n.toMeasure_toType] at hRead
  exact (samePowers_iff hm hn).mpr (Except.ok.inj hRead).symm

/-- Unit types with the same powers have one canonical form, where they have any. -/
theorem eq_of_samePowers {u v w r : Ty} (h : u.SamePowers v) (hu : u.HasCanonical w)
    (hv : v.HasCanonical r) : w = r := by
  obtain ⟨m, hm, rfl⟩ := hu
  obtain ⟨n, hn, rfl⟩ := hv
  rw [(samePowers_iff hm hn).mp h]

/-- Canonical types are canonical. -/
theorem canonical_canonical {t c : Ty} (ht : t.OfKind .value) (h : t.canonical = .ok c) :
    c.canonical = .ok c := by
  have hAligned := (canonical_eq_ok_iff ht).mp h
  refine (canonical_eq_ok_iff (HasKind.canonical ht h)).mpr
    ((hAligned.flip.comp hAligned).mono ?_)
  -- Both sides are the canonical type of the same unit of the given type.
  rintro u v ⟨w, ⟨m, hm, rfl⟩, ⟨n, hn, rfl⟩⟩
  rw [hm] at hn
  cases hn
  exact ⟨m, m.toMeasure_toType, rfl⟩

end Ty

/-- The canonical type of a unit stands for that unit. Two value types
have one canonical type exactly if they are the same up to how units are
written, that is if corresponding units have the same powers. Canonical
types stay as they are. -/
theorem canonical_decides_equality :
    (∀ u : Measure, u.toType.toMeasure = .ok u) ∧
    ∀ {s t c d : Ty}, s.OfKind .value → t.OfKind .value →
      s.canonical = .ok c → t.canonical = .ok d →
      (c = d ↔ s.Aligned Ty.SamePowers t) ∧ c.canonical = .ok c := by
  refine ⟨Measure.toMeasure_toType, ?_⟩
  intro s t c d hs ht hc hd
  have hLeft := (Ty.canonical_eq_ok_iff hs).mp hc
  have hRight := (Ty.canonical_eq_ok_iff ht).mp hd
  refine ⟨⟨?_, ?_⟩, Ty.canonical_canonical hs hc⟩
  · rintro rfl
    refine (hLeft.comp hRight.flip).mono ?_
    rintro u v ⟨w, hu, hv⟩
    exact Ty.samePowers_of_hasCanonical hu hv
  · intro hSame
    refine ((hLeft.flip.comp hSame).comp hRight).mono ?_ |>.eq
    rintro w r ⟨v, ⟨u, hu, hPowers⟩, hv⟩
    exact Ty.eq_of_samePowers hPowers hu hv

/-- The unit is `m ^ -1 * m`, of a variable and a primitive unit of the same
name. -/
def scatteredType : Ty :=
  .arrow (.float (.mul (.prim "m") (.pow (.mul (.var "m") (.pow (.var "k") 0)) (-1)))) (.var "a")

/-- The same unit as a product of higher powers. -/
def collectedType : Ty :=
  .arrow (.float (.mul (.pow (.pow (.var "m") (-2)) 3) (.mul (.prim "m") (.pow (.var "m") 5))))
    (.var "a")

theorem canonical_decides_equality_scatteredType :
    ∃ c, scatteredType.canonical = .ok c ∧ collectedType.canonical = .ok c ∧
      scatteredType.Aligned Ty.SamePowers collectedType ∧ c.canonical = .ok c := by
  have hScattered : scatteredType.OfKind .value :=
    .arrow (.float (.mul (.prim _) (.pow (.mul (.var trivial) (.pow (.var trivial) _)) _)))
      (.var trivial)
  have hCollected : collectedType.OfKind .value :=
    .arrow (.float (.mul (.pow (.pow (.var trivial) _) _)
      (.mul (.prim _) (.pow (.var trivial) _)))) (.var trivial)
  let form : Ty := .arrow (.float (.mul (.pow (.var "m") (-1)) (.pow (.prim "m") 1))) (.var "a")
  have hFirst : scatteredType.canonical = .ok form := by decide +kernel
  have hSecond : collectedType.canonical = .ok form := by decide +kernel
  obtain ⟨hSame, hStays⟩ := canonical_decides_equality.2 hScattered hCollected hFirst hSecond
  exact ⟨form, hFirst, hSecond, hSame.mp rfl, hStays⟩

/-- Putting a unit for one variable adds it, for the variable, as often as the
variable occurs. All other factors stay. -/
theorem UnitGroup.subst_one (x : Name) (v u : UnitGroup) :
    subst (fun y => if y = x then v else var y) u = u (.var x) • (v - var x) + u := by
  induction u using Finsupp.induction_linear with
  | zero => simp
  | add u w ihu ihw =>
      rw [map_add, ihu, ihw, Finsupp.add_apply, add_smul]
      exact add_add_add_comm _ _ _ _
  | single f n =>
      rw [subst_single, Finsupp.single_apply]
      cases f with
      | prim p => simp [factor, prim]
      | var y =>
          by_cases h : y = x
          · subst h
            simp [factor, var, smul_sub]
          · simp [factor, var, h]

/-- In the group, to put a unit for a variable in a type is to add their
difference as often as the variable occurs. -/
theorem Ty.toUnit_subst1 (x : Name) (u t : Ty) :
    (subst1 x u t).toUnit = t.toUnit (.var x) • (u.toUnit - .var x) + t.toUnit := by
  have hValues : (fun y => ((Assignment.single x u y).getD (var y)).toUnit) =
      fun y => if y = x then u.toUnit else .var y := by
    funext y
    rw [Assignment.single]
    split <;> rfl
  show (t.subst (Assignment.single x u)).toUnit = _
  rw [toUnit_subst, hValues, UnitGroup.subst_one]

/-- A unit that is put for a variable in the type of another unit gives the unit
that comes from the exponents, if both can be computed. Under a number its
canonical type results. -/
theorem substitution_agrees {t u : Ty} {x : Name} {v w : Measure}
    (hType : (subst1 x u t).toMeasure = .ok v)
    (hExponents : (do
      let m ← t.toMeasure
      let n ← u.toMeasure
      m.substitute x n) = .ok w) :
    v = w ∧ subst1 x u (Ty.float t) = Ty.float w.toType := by
  obtain ⟨m, hm, hExponents⟩ := bind_eq_ok.mp hExponents
  obtain ⟨n, hn, hExponents⟩ := bind_eq_ok.mp hExponents
  have hSame : v = w := by
    apply Measure.ext_toUnit
    rw [Ty.toUnit_of_toMeasure hType, Ty.toUnit_subst1, Measure.toUnit_substitute hExponents,
      ← Measure.power_var, ← Measure.toUnit_apply, Ty.toUnit_of_toMeasure hm,
      Ty.toUnit_of_toMeasure hn]
  refine ⟨hSame, ?_⟩
  show Ty.float (subst1 x u t).renormalized = _
  rw [Ty.renormalized, hType, hSame]

-- The exponents may fail alone: the variable is divided out first, and the opposite of its power
-- may not fit.
example :
    (subst1 "x" (Ty.var "y") (Ty.pow (.var "x") Int32.minValue)).toMeasure.isOk = true ∧
      (do
        let m ← (Ty.pow (.var "x") Int32.minValue).toMeasure
        m.substitute "x" (.var "y")).isOk = false := by
  decide +kernel

/-- A unit with the variable under two powers. -/
def nestedUnit : Ty := .pow (.mul (.pow (.var "x") 2) (.var "y")) 3

/-- A unit that has the variable it is put for, and cancels a factor beside it. -/
def recurringUnit : Ty := .mul (.var "x") (.pow (.var "y") (-2))

theorem substitution_agrees_nestedUnit :
    ∃ w, (subst1 "x" recurringUnit nestedUnit).toMeasure = .ok w ∧
      w.entries = [(.var "x", 6), (.var "y", -9)] ∧
      subst1 "x" recurringUnit (Ty.float nestedUnit) = Ty.float w.toType := by
  have hType : (subst1 "x" recurringUnit nestedUnit).toMeasure.map Measure.entries =
      .ok [(.var "x", 6), (.var "y", -9)] := by decide +kernel
  have hExponents : (do
      let m ← nestedUnit.toMeasure
      let n ← recurringUnit.toMeasure
      m.substitute "x" n).map Measure.entries = .ok [(.var "x", 6), (.var "y", -9)] := by
    decide +kernel
  obtain ⟨v, hv, hEntries⟩ := map_eq_ok.mp hType
  obtain ⟨w, hw, -⟩ := map_eq_ok.mp hExponents
  obtain ⟨rfl, hFloat⟩ := substitution_agrees hv hw
  exact ⟨v, hv, hEntries, hFloat⟩

end HindleyMilner.Units
