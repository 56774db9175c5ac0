import HindleyMilner.Proofs.InternalErrors
import HindleyMilner.Proofs.Units.Unification

/-! The free variables of types with units, and what the rules of the language do to
them. The canonical form of a unit may lose variables, but it gains none. -/
namespace HindleyMilner.Units

open Context

/-- The canonical type of a unit uses the variables of the unit. -/
theorem Measure.mem_names_of_toType {u : Measure} {x : Name} (h : x ∈ u.toType.freeVars) :
    x ∈ u.vars.names := by
  have hKind : HasKind (fun y _ => y ∈ u.toUnit.freeVars) u.toType .unit := .toType fun _ hy => hy
  obtain ⟨-, hx⟩ := hKind.declared x h
  exact mem_names.mpr hx

namespace Ty

/-- A unit has no variables that its type does not have. -/
theorem mem_freeVars_of_toMeasure {t : Ty} {m : Measure} (h : t.toMeasure = .ok m) {x : Name}
    (hx : x ∈ m.vars.names) : x ∈ t.freeVars := by
  rw [Measure.mem_names, toUnit_of_toMeasure h] at hx
  exact mem_freeVars_of_toUnit hx

theorem mem_freeVars_renormalized {t : Ty} {x : Name} (h : x ∈ t.renormalized.freeVars) :
    x ∈ t.freeVars := by
  rw [renormalized] at h
  cases hm : t.toMeasure with
  | ok m =>
      rw [hm] at h
      exact mem_freeVars_of_toMeasure hm (Measure.mem_names_of_toType h)
  | error e =>
      rw [hm] at h
      exact h

/-- The variables of a substituted type come from the types that were put in,
or were not replaced. -/
theorem mem_freeVars_subst {σ : Assignment Ty} {t : Ty} {y : Name} (h : y ∈ (t.subst σ).freeVars) :
    ∃ x ∈ t.freeVars, (∃ u, σ x = some u ∧ y ∈ u.freeVars) ∨ (σ x = none ∧ y = x) := by
  induction t with
  | var x =>
      refine ⟨x, List.mem_singleton.mpr rfl, ?_⟩
      rw [subst] at h
      cases hσ : σ x with
      | some u =>
          rw [hσ] at h
          exact .inl ⟨u, rfl, h⟩
      | none =>
          rw [hσ] at h
          exact .inr ⟨rfl, List.mem_singleton.mp h⟩
  | arrow a b iha ihb =>
      rcases List.mem_append.mp h with h | h
      · obtain ⟨x, hx, hSource⟩ := iha h
        exact ⟨x, List.mem_append_left _ hx, hSource⟩
      · obtain ⟨x, hx, hSource⟩ := ihb h
        exact ⟨x, List.mem_append_right _ hx, hSource⟩
  | float u ih => exact ih (mem_freeVars_renormalized h)
  | mul a b iha ihb =>
      rcases List.mem_append.mp h with h | h
      · obtain ⟨x, hx, hSource⟩ := iha h
        exact ⟨x, List.mem_append_left _ hx, hSource⟩
      · obtain ⟨x, hx, hSource⟩ := ihb h
        exact ⟨x, List.mem_append_right _ hx, hSource⟩
  | pow a e ih => exact ih h
  | _ => cases h

end Ty

/-- A difference has no variables but those of the two units. -/
theorem Measure.mem_names_subtract {u v w : Measure} (h : u.subtract v = .ok w) {x : Name}
    (hx : x ∈ w.vars.names) : x ∈ u.vars.names ∨ x ∈ v.vars.names := by
  rw [mem_names, toUnit_subtract h] at hx
  rw [mem_names, mem_names]
  exact UnitGroup.mem_freeVars_sub hx

instance : Lexical language where
  asVar_var _ _ := rfl
  mem_freeVars {t x} h := by
    cases t with
    | var y => cases h; exact List.mem_singleton.mpr rfl
    | _ => cases h
  freeVars_var _ hy := List.mem_singleton.mp hy
  freeVars_arrow hx := hx
  freeVars_subst _ hy := Ty.mem_freeVars_subst hy
  freeVars_decompose {l r goals} h g hg x hx := by
    rcases decompose_eq_ok h with
      ⟨a, b, c, d, rfl, rfl, rfl⟩ | ⟨u, v, m, n, unit, rfl, rfl, hm, hn, hUnit, rfl⟩
    · simp only [List.mem_cons, List.not_mem_nil, or_false] at hg
      rcases hg with rfl | rfl
      · exact mem_of_mem_sides (.inl hx)
      · exact mem_of_mem_sides (.inr hx)
    · cases List.mem_singleton.mp hg
      rcases Measure.mem_names_subtract hUnit hx with hx | hx
      · exact List.mem_append_left _ (Ty.mem_freeVars_of_toMeasure hm hx)
      · exact List.mem_append_right _ (Ty.mem_freeVars_of_toMeasure hn hx)
  freeVars_literal h := by
    cases h
    rfl

/-- A name other than that of a variable is declared beside it. -/
theorem mem_names_of_ne {K deps : language.Telescope} {x y : Name} {kind : Kind}
    (h : y ∈ (K ++ [(x, kind)] ++ deps).map Prod.fst) (hNe : y ≠ x) :
    y ∈ (K ++ deps).map Prod.fst := by
  simp only [List.map_append, List.mem_append, List.map_cons, List.map_nil, List.mem_cons,
    List.not_mem_nil, or_false] at h ⊢
  rcases h with (h | h) | h
  · exact .inl h
  · exact absurd h hNe
  · exact .inr h

theorem goal_of_names {K : language.Telescope} {unit : Measure}
    (h : ∀ y ∈ unit.vars.names, y ∈ K.map Prod.fst) :
    (Discipline.scoping language).Goal K.Declares (isOne unit) :=
  (Sorting.goal_scoping (L := language)).mpr fun y hy => mem_names_iff.mp (h y hy)

theorem ty_of_names {K : language.Telescope} {unit : Measure} {kind : Kind}
    (h : ∀ y ∈ unit.vars.names, y ∈ K.map Prod.fst) :
    (Discipline.scoping language).Ty K.Declares unit.toType kind :=
  fun y hy => mem_names_iff.mp (h y (Measure.mem_names_of_toType hy))

/-- The variable is gone from a substituted unit, unless what was
put in brings it back. -/
theorem mem_names_substitute {u v w : Measure} {x y : Name} (h : u.substitute x v = .ok w)
    (hy : y ∈ w.vars.names) : y ∈ v.vars.names ∨ (y ∈ u.vars.names ∧ y ≠ x) := by
  rw [Measure.mem_names] at hy
  rw [Measure.mem_names, Measure.mem_names]
  exact Measure.mem_freeVars_substitute h hy

theorem mem_names_pivot {u w : Measure} {x y : Name} (hx : u.exponent x ≠ 0)
    (h : u.pivot x = .ok w) (hy : y ∈ w.vars.names) : y ∈ u.vars.names ∧ y ≠ x := by
  rw [Measure.mem_names] at hy ⊢
  exact Measure.mem_freeVars_pivot hx h hy

/-- The shape of a hull uses variables of the type and new ones, and the units
that the new ones stand for use variables of the type. -/
theorem mem_hull {supply : Supply} {t : Ty} {hull : Hull} (h : t.hull supply = .ok hull) :
    (∀ x ∈ hull.shape.freeVars, x ∈ t.freeVars ∨ x ∈ hull.holes.map Prod.fst) ∧
      ∀ p ∈ hull.holes, p.2.freeVars ⊆ t.freeVars := by
  induction t generalizing supply hull with
  | var x =>
      cases h
      exact ⟨fun _ hx => .inl hx, fun _ hp => nomatch hp⟩
  | arrow a b iha ihb =>
      obtain ⟨left, hLeft, h⟩ := bind_eq_ok.mp h
      obtain ⟨right, hRight, h⟩ := bind_eq_ok.mp h
      cases h
      obtain ⟨hShapeLeft, hHolesLeft⟩ := iha hLeft
      obtain ⟨hShapeRight, hHolesRight⟩ := ihb hRight
      constructor
      · intro x hx
        simp only [List.map_append, Ty.freeVars, List.mem_append] at hx ⊢
        rcases hx with hx | hx
        · exact (hShapeLeft x hx).imp .inl .inl
        · exact (hShapeRight x hx).imp .inr .inr
      · intro p hp
        rcases List.mem_append.mp hp with hp | hp
        · exact List.subset_append_of_subset_left _ (hHolesLeft p hp)
        · exact List.subset_append_of_subset_right _ (hHolesRight p hp)
  | float u =>
      cases h
      refine ⟨fun x hx => .inr hx, fun p hp => ?_⟩
      rw [List.mem_singleton.mp hp]
      exact List.Subset.refl _
  | _ => cases h

/-- The goals of a hull mention its new variables and what the type mentions. -/
theorem mem_holeGoals {holes : List (Name × Ty)} {goals : List (Goal language)}
    (h : holeGoals holes = .ok goals) : ∀ g ∈ goals, ∀ x ∈ g.freeVars,
      ∃ p ∈ holes, x = p.1 ∨ x ∈ p.2.freeVars := by
  have hPairs := holeGoals_eq_ok h
  clear h
  induction hPairs with
  | nil => exact fun _ hg => nomatch hg
  | @cons p g holes goals hHead _ ih =>
      intro g' hg' x hx
      rcases List.mem_cons.mp hg' with rfl | hg'
      · obtain ⟨m, quotient, hm, hQuotient, rfl⟩ := hHead
        refine ⟨p, List.mem_cons_self, ?_⟩
        rcases Measure.mem_names_subtract hQuotient hx with hx | hx
        · rw [Measure.mem_names, Measure.toUnit_var] at hx
          exact .inl (UnitGroup.mem_freeVars_var.mp hx)
        · exact .inr (Ty.mem_freeVars_of_toMeasure hm hx)
      · obtain ⟨q, hq, hSource⟩ := ih g' hg' x hx
        exact ⟨q, List.mem_cons_of_mem _ hq, hSource⟩

/-- The entries that a reduction leaves are in scope: its equation and its
definition use the new variable and the others of the unit. -/
theorem inScope_reduce {K deps : language.Telescope} {unit quotient solution result : Measure}
    {x b : Name} {kind : Kind} (hx : unit.exponent x ≠ 0) (hQuotient : unit.pivot x = .ok quotient)
    (hSolution : quotient.add (.var b) = .ok solution)
    (hResult : unit.substitute x solution = .ok result)
    (hUnit : ∀ y ∈ unit.vars.names, y ≠ x → y ∈ (K ++ deps).map Prod.fst) :
    (Discipline.scoping language).Scoped K (.intro b .unit ::
      (deps.intros ++ [.ofGoal (isOne result), .define x solution.toType kind])) := by
  -- The new variable comes first, so that the solution and the rest of the equation may use it.
  have hRest : ∀ y ∈ unit.vars.names, y ≠ x → y ∈ (K ++ (b, Kind.unit) :: deps).map Prod.fst := by
    intro y hy hNe
    have hMem := hUnit y hy hNe
    simp only [List.map_append, List.map_cons, List.mem_append, List.mem_cons] at hMem ⊢
    exact hMem.imp_right .inr
  have hNames : ∀ y ∈ solution.vars.names, y ∈ (K ++ (b, Kind.unit) :: deps).map Prod.fst := by
    intro y hy
    rw [Measure.mem_names, Measure.toUnit_add hSolution, Measure.toUnit_var] at hy
    rcases UnitGroup.mem_freeVars_add hy with hy | hy
    · obtain ⟨hy, hNe⟩ := mem_names_pivot hx hQuotient (Measure.mem_names.mpr hy)
      exact hRest y hy hNe
    · rw [UnitGroup.mem_freeVars_var.mp hy]
      simp
  have hResultNames : ∀ y ∈ result.vars.names,
      y ∈ (K ++ (b, Kind.unit) :: deps).map Prod.fst := by
    intro y hy
    rcases mem_names_substitute hResult hy with hy | ⟨hy, hNe⟩
    · exact hNames y hy
    · exact hRest y hy hNe
  exact scoped_define (Discipline.scoping language) ((b, Kind.unit) :: deps) [isOne result]
    (List.forall_mem_singleton.mpr (goal_of_names hResultNames)) (ty_of_names hNames)

/-- So are those that equate a variable with a hull, which carry the new
variables. -/
theorem inScope_hull {K deps : language.Telescope} {supply : Supply} {x : Name} {type : Ty}
    {hull : Hull} {goals : List (Goal language)} (hHull : type.hull supply = .ok hull)
    (hGoals : holeGoals hull.holes = .ok goals)
    (hEquation : ∀ y ∈ x :: type.freeVars, y ∈ (K ++ deps).map Prod.fst) :
    (Discipline.scoping language).Scoped K
      (.constraint ⟨deps ++ hull.vars, .special (.hull x hull.shape)⟩ :: goals.map .ofGoal) := by
  obtain ⟨hShape, hHoles⟩ := mem_hull hHull
  have hOldNames : ∀ y ∈ x :: type.freeVars, y ∈ (K ++ (deps ++ hull.vars)).map Prod.fst := by
    intro y hy
    rw [← List.append_assoc, List.map_append]
    exact List.mem_append_left _ (hEquation y hy)
  have hNewNames : ∀ y ∈ hull.holes.map Prod.fst,
      y ∈ (K ++ (deps ++ hull.vars)).map Prod.fst := by
    intro y hy
    rw [← List.append_assoc, List.map_append, Hull.map_fst_vars]
    exact List.mem_append_right _ hy
  constructor
  · apply (Sorting.entry_scoping (L := language) rfl).mpr
    intro y hy
    rcases List.mem_cons.mp hy with rfl | hy
    · exact hOldNames y List.mem_cons_self
    · rcases hShape y hy with hy | hy
      · exact hOldNames y (List.mem_cons_of_mem _ hy)
      · exact hNewNames y hy
  · apply Discipline.scoped_ofGoals
    intro g hg
    apply (Sorting.goal_scoping (L := language)).mpr
    intro y hy
    apply mem_names_iff.mp
    obtain ⟨p, hp, rfl | hFree⟩ := mem_holeGoals hGoals g hg y hy
    · exact hNewNames _ (List.mem_map_of_mem hp)
    · exact hOldNames y (List.mem_cons_of_mem _ (hHoles p hp hFree))

/-- So are those of every replacement, if the old ones were. Replacements bring
in no variables but those that they draw, and they eliminate one only where its
definition is left. -/
theorem UnitMove.inScope_new {supply supply' : Supply} {fresh K : language.Telescope}
    {old new : List (Entry language)} (h : UnitMove supply supply' fresh old new)
    (hOld : (Discipline.scoping language).Scoped K old) :
    (Discipline.scoping language).Scoped K new := by
  cases h with
  | settle => exact Sorting.scoped_intros _ K _
  | @unfold deps unit value result x type kind hx hValue hResult =>
      obtain ⟨hType, hGoal, -⟩ := hOld
      have hUnit := (Sorting.entry_scoping (L := language) rfl).mp hGoal
      have hNames : ∀ y ∈ result.vars.names, y ∈ (K ++ deps).map Prod.fst := by
        intro y hy
        rcases mem_names_substitute hResult hy with hy | ⟨hy, hNe⟩
        · have hMem := mem_names_iff.mpr (hType y (Ty.mem_freeVars_of_toMeasure hValue hy))
          rw [List.map_append]
          exact List.mem_append_left _ hMem
        · exact mem_names_of_ne (hUnit y hy) hNe
      apply scoped_define (Discipline.scoping language) deps [isOne result]
        (List.forall_mem_singleton.mpr (goal_of_names hNames))
      intro y hy
      obtain ⟨k, hk⟩ := hType y hy
      exact ⟨k, List.mem_append_left _ hk⟩
  | @solve deps unit solution x kind hx hDivides hSolution =>
      have hUnit := (Sorting.entry_scoping (L := language) rfl).mp hOld.2.1
      apply scoped_define (Discipline.scoping language) deps [] (List.forall_mem_nil _)
      apply ty_of_names
      intro y hy
      obtain ⟨hy, hNe⟩ := mem_names_pivot hx hSolution hy
      exact mem_names_of_ne (hUnit y hy) hNe
  | reduce hx hRival hQuotient hSolution hResult =>
      have hUnit := (Sorting.entry_scoping (L := language) rfl).mp hOld.2.1
      apply inScope_reduce hx hQuotient hSolution hResult
      exact fun y hy hNe => mem_names_of_ne (hUnit y hy) hNe
  | hull hHull hGoals =>
      exact inScope_hull hHull hGoals ((Sorting.entry_scoping (L := language) rfl).mp hOld.1)

/-- As replacements keep entries in scope, and the model of one type satisfies
everything, steps refine there. -/
theorem stepsRefine_scoping : StepsRefine (Discipline.scoping language) (Model.onePoint language) :=
  stepsRefine_of (fun h _ hOld => h.inScope_new hOld) fun _ _ => Model.satisfies_onePoint _ _

end HindleyMilner.Units
