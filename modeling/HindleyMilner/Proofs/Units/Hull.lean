import HindleyMilner.Proofs.Units.Canonical

/-! Hulls. Every number in a value type gives up its unit for a new variable that stands nowhere
else, and putting the units back for the variables gives the canonical form of the type. -/
namespace HindleyMilner.Units

namespace Ty

/-- The units of the numbers in a type, from left to right. -/
def units : Ty → List Ty
  | arrow a b => a.units ++ b.units
  | float u => [u]
  | _ => []

/-- The value variables of a type are among its variables. -/
theorem mem_freeVars_of_shapeVars {t : Ty} {x : Name} (h : x ∈ t.shapeVars) : x ∈ t.freeVars := by
  induction t with
  | var y => exact h
  | arrow a b iha ihb => exact List.mem_append.mpr ((List.mem_append.mp h).imp iha ihb)
  | _ => cases h

/-- Putting units for the variables that stand for them leaves the value
variables, and brings every unit to canonical form. -/
theorem subst_eq_of_aligned {σ : Assignment Ty} {t c : Ty}
    (h : t.Aligned (fun u v => (u.subst σ).renormalized = v) c)
    (hVars : ∀ x ∈ t.shapeVars, σ x = none) : t.subst σ = c := by
  induction h with
  | var x => rw [subst, hVars x List.mem_cons_self, Option.getD_none]
  | arrow _ _ iha ihb =>
      obtain ⟨ha, hb⟩ := List.forall_mem_append.mp hVars
      rw [subst, iha ha, ihb hb]
  | float h => rw [subst, h]

end Ty

/-- How the hull of a type is made up. -/
inductive IsHull : Supply → Ty → Hull → Prop where
  | var (supply : Supply) (x : Name) : IsHull supply (.var x) ⟨.var x, [], supply⟩
  | arrow {supply : Supply} {a b : Ty} {left right : Hull} (ha : IsHull supply a left)
      (hb : IsHull left.supply b right) :
      IsHull supply (.arrow a b)
        ⟨.arrow left.shape right.shape, left.holes ++ right.holes, right.supply⟩
  | float (supply : Supply) (u : Ty) :
      IsHull supply (.float u)
        ⟨.float (.var (supply.draw "h").1), [((supply.draw "h").1, u)], (supply.draw "h").2⟩

/-- Every value type has a hull. -/
theorem exists_isHull {t : Ty} (ht : t.OfKind .value) (supply : Supply) :
    ∃ hull, IsHull supply t hull := by
  induction t generalizing supply with
  | var x => exact ⟨_, .var supply x⟩
  | arrow a b iha ihb =>
      cases ht with
      | arrow ha hb =>
          obtain ⟨left, hLeft⟩ := iha ha supply
          obtain ⟨right, hRight⟩ := ihb hb left.supply
          exact ⟨_, .arrow hLeft hRight⟩
  | float u => exact ⟨_, .float supply u⟩
  | _ => cases ht

namespace IsHull

variable {supply : Supply} {t : Ty} {hull : Hull}

/-- The hull is computed as the recursion says that defines it. -/
theorem hull_eq_ok (h : IsHull supply t hull) : t.hull supply = .ok hull := by
  induction h with
  | var supply x => rfl
  | arrow _ _ iha ihb => exact bind_eq_ok.mpr ⟨_, iha, bind_eq_ok.mpr ⟨_, ihb, rfl⟩⟩
  | float supply u => rfl

/-- The holes of a hull stand for the units of the type, from left to right. -/
theorem units_of_holes (h : IsHull supply t hull) : hull.holes.map Prod.snd = t.units := by
  induction h with
  | var supply x => rfl
  | arrow _ _ iha ihb => rw [List.map_append, iha, ihb, Ty.units]
  | float supply u => rfl

/-- The names of the new variables are drawn one after the other. -/
theorem draws (h : IsHull supply t hull) :
    (hull.holes.map Prod.fst, hull.supply) = supply.drawMany "h" t.units.length := by
  induction h with
  | var supply x => rfl
  | arrow _ _ iha ihb =>
      rw [Ty.units, List.length_append, Supply.drawMany_add, ← iha, ← ihb, List.map_append]
  | float supply u => exact (supply.drawMany_one "h").symm

/-- The units of the shape are the new variables, from left to right. -/
theorem units_shape (h : IsHull supply t hull) :
    hull.shape.units = hull.holes.map fun p => .var p.1 := by
  induction h with
  | var supply x => rfl
  | arrow _ _ iha ihb => rw [Ty.units, iha, ihb, List.map_append]
  | float supply u => rfl

/-- The shape differs from the type in its units alone, and has the
new variable of each. -/
theorem aligned (h : IsHull supply t hull) :
    t.Aligned (fun u v => ∃ x, (x, u) ∈ hull.holes ∧ v = .var x) hull.shape := by
  induction h with
  | var supply x => exact .var x
  | arrow _ _ iha ihb =>
      refine .arrow (iha.mono ?_) (ihb.mono ?_)
      · rintro u v ⟨x, hx, rfl⟩
        exact ⟨x, List.mem_append_left _ hx, rfl⟩
      · rintro u v ⟨x, hx, rfl⟩
        exact ⟨x, List.mem_append_right _ hx, rfl⟩
  | float supply u => exact .float ⟨_, List.mem_cons_self, rfl⟩

/-- A variable of the shape is a value variable of the type or a new one. -/
theorem count_freeVars (h : IsHull supply t hull) (x : Name) :
    hull.shape.freeVars.count x = t.shapeVars.count x + (hull.holes.map Prod.fst).count x := by
  induction h with
  | var supply y => rfl
  | arrow _ _ iha ihb =>
      simp only [Ty.freeVars, Ty.shapeVars, List.map_append, List.count_append, iha, ihb]
      omega
  | float supply u => exact (Nat.zero_add _).symm

theorem nodup_holes (h : IsHull supply t hull) : (hull.holes.map Prod.fst).Nodup := by
  have hNames : hull.holes.map Prod.fst = (supply.drawMany "h" t.units.length).1 :=
    congrArg Prod.fst h.draws
  rw [hNames]
  exact supply.nodup_drawMany _

/-- A hull keeps the value variables. -/
theorem shapeVars_shape (h : IsHull supply t hull) : hull.shape.shapeVars = t.shapeVars :=
  (hull_shape h.hull_eq_ok).2

/-- The new variables do not occur in the type if no name that is
yet to be drawn does. -/
theorem not_mem_freeVars (h : IsHull supply t hull)
    (hNew : ∀ n, supply.drawn "h" ≤ n → Supply.numbered "h" n ∉ t.freeVars) {x : Name}
    (hx : x ∈ hull.holes.map Prod.fst) : x ∉ t.freeVars := by
  have hNames : x ∈ (supply.drawMany "h" t.units.length).1 := h.draws ▸ hx
  obtain ⟨n, hFrom, -, rfl⟩ := Supply.mem_drawMany.mp hNames
  exact hNew n hFrom

/-- Putting the units for the new variables gives the canonical form of the
type, because a substitution brings the units it touches to canonical form. -/
theorem subst_holes (h : IsHull supply t hull) (ht : t.OfKind .value)
    (hNew : ∀ x ∈ hull.holes.map Prod.fst, x ∉ t.freeVars) {c : Ty} (hc : t.canonical = .ok c) :
    hull.shape.subst (.ofPairs hull.holes) = c := by
  have hReverse : (hull.holes.reverse.map Prod.fst).Nodup := by
    rw [List.map_reverse, List.nodup_reverse]
    exact h.nodup_holes
  apply Ty.subst_eq_of_aligned
  · -- From the shape back to the type, and on to its canonical form.
    refine (h.aligned.flip.comp ((Ty.canonical_eq_ok_iff ht).mp hc)).mono ?_
    rintro v w ⟨u, ⟨x, hx, rfl⟩, m, hm, rfl⟩
    have hHole : Assignment.ofPairs hull.holes x = some u :=
      Name.lookup_of_nodup hReverse (List.mem_reverse.mpr hx)
    rw [Ty.subst, hHole, Option.getD_some, Ty.renormalized, hm]
  · -- The value variables are those of the type, so none of them is a hole.
    intro x hx
    rw [h.shapeVars_shape] at hx
    apply Name.lookup_of_not_mem
    rw [List.map_reverse, List.mem_reverse]
    exact fun hHole => hNew x hHole (Ty.mem_freeVars_of_shapeVars hx)

end IsHull

/-- A value type has a hull for every supply. If the supply gives out no name
that occurs in the type, the holes are new variables, drawn in the order of the
numbers they take the units of. Each occurs once in the hull, as the unit of its
number, and all else in the hull is as in the type. Putting the units back at
once gives the canonical form of the type. -/
theorem hull_rebuilds {t : Ty} {supply : Supply} (ht : t.OfKind .value)
    (hNew : ∀ n, supply.drawn "h" ≤ n → Supply.numbered "h" n ∉ t.freeVars) :
    ∃ hull, t.hull supply = .ok hull ∧
      hull.holes.map Prod.snd = t.units ∧
      (hull.holes.map Prod.fst, hull.supply) = supply.drawMany "h" t.units.length ∧
      (hull.holes.map Prod.fst).Nodup ∧
      (∀ x ∈ hull.holes.map Prod.fst, x ∉ t.freeVars ∧ hull.shape.freeVars.count x = 1) ∧
      hull.shape.units = hull.holes.map (fun p => .var p.1) ∧
      t.Aligned (fun _ _ => True) hull.shape ∧
      ∀ c, t.canonical = .ok c → subst (Assignment.ofPairs hull.holes) hull.shape = c := by
  obtain ⟨hull, h⟩ := exists_isHull ht supply
  have hFresh : ∀ x ∈ hull.holes.map Prod.fst, x ∉ t.freeVars := fun x => h.not_mem_freeVars hNew
  refine ⟨hull, h.hull_eq_ok, h.units_of_holes, h.draws, h.nodup_holes, ?_, h.units_shape,
    h.aligned.mono fun _ _ _ => trivial, fun c => h.subst_holes ht hFresh⟩
  intro x hx
  have hValue : t.shapeVars.count x = 0 :=
    List.count_eq_zero.mpr fun hMem => hFresh x hx (Ty.mem_freeVars_of_shapeVars hMem)
  have hOnce : (hull.holes.map Prod.fst).count x = 1 :=
    List.count_eq_one_of_mem h.nodup_holes hx
  exact ⟨hFresh x hx, by rw [h.count_freeVars, hValue, hOnce]⟩

/-- Numbers on both sides of an arrow, one with a unit that has a variable of
the name that was drawn last. -/
def measuredType : Ty :=
  .arrow (.float (.mul (.prim "kg") (.pow (.var "h0") 2)))
    (.arrow (.var "a") (.float (.mul (.var "h0") (.pow (.var "h0") (-1)))))

theorem hull_rebuilds_measuredType :
    ∃ hull, measuredType.hull (Supply.empty.draw "h").2 = .ok hull ∧
      hull.holes.map Prod.fst = ["h1", "h2"] ∧
      subst (Assignment.ofPairs hull.holes) hull.shape =
        Ty.arrow (.float (.mul (.pow (.var "h0") 2) (.pow (.prim "kg") 1)))
          (.arrow (.var "a") (.float .one)) := by
  have hKind : measuredType.OfKind .value :=
    .arrow (.float (.mul (.prim _) (.pow (.var trivial) _)))
      (.arrow (.var trivial) (.float (.mul (.var trivial) (.pow (.var trivial) _))))
  have hWaiting : ∀ x ∈ measuredType.freeVars, ¬(Supply.empty.draw "h").2.Pending x := by
    decide +kernel
  have hStem : "h" ∈ Supply.stems := by decide
  obtain ⟨hull, hHull, -, hDraws, -, -, -, -, hSubst⟩ := hull_rebuilds hKind
    fun n hn hMem => hWaiting _ hMem ((Supply.pending_numbered hStem).mpr hn)
  refine ⟨hull, hHull, (congrArg Prod.fst hDraws).trans ?_, hSubst _ ?_⟩
  · decide +kernel
  · decide +kernel

end HindleyMilner.Units
