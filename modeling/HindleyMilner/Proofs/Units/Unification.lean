import HindleyMilner.Proofs.Units.Moves

/-! The solver on types with units. Replacements keep contexts well-kinded, and what
solves the new entries solves the old ones, so every step refines. -/
namespace HindleyMilner.Units

open Context

def unitPart (θ : model.Valuation) (x : Name) : UnitGroup := θ x .unit

noncomputable def unitValue (θ : model.Valuation) : UnitGroup →ₗ[Int] UnitGroup :=
  UnitGroup.subst (unitPart θ)

theorem unitValue_var (θ : model.Valuation) (x : Name) :
    unitValue θ (.var x) = unitPart θ x := UnitGroup.subst_var _ x

/-- The value of a unit depends on its variables, as units. -/
theorem unitValue_agree {K : language.Telescope} {u : UnitGroup} {θ θ' : model.Valuation}
    (hu : ∀ x ∈ u.freeVars, (x, Kind.unit) ∈ K) (hAgree : model.Agree K θ θ') :
    unitValue θ u = unitValue θ' u :=
  UnitGroup.subst_congr fun x hx => hAgree _ (hu x hx)

/-- A unit equation is solved where its unit has the neutral element as its
value. -/
theorem solves_isOne {θ : model.Valuation} {u : Measure} :
    model.Solves θ (isOne u) ↔ unitValue θ u.toUnit = 0 := .rfl

/-- Putting the unit of a variable for it changes no value. -/
theorem subst_substitute {ρ : Name → UnitGroup} {u v w : Measure} {x : Name}
    (h : u.substitute x v = .ok w) (hx : ρ x = UnitGroup.subst ρ v.toUnit) :
    UnitGroup.subst ρ w.toUnit = UnitGroup.subst ρ u.toUnit := by
  rw [Measure.toUnit_substitute h, map_add, map_smul, map_sub, UnitGroup.subst_var, hx, sub_self,
    smul_zero, zero_add]

/-- Where the exponent of a variable divides all others, the pivot is what the
variable has to be. -/
theorem subst_pivot {ρ : Name → UnitGroup} {u w : Measure} {x : Name}
    (hExponent : u.exponent x ≠ 0) (hDivides : u.divisibleBy (u.exponent x) = true)
    (h : u.pivot x = .ok w) :
    UnitGroup.subst ρ u.toUnit = 0 ↔ ρ x = UnitGroup.subst ρ w.toUnit := by
  have hZero := congrArg (UnitGroup.subst ρ) (Measure.toUnit_pivot hExponent hDivides h)
  rw [map_add, map_smul, map_sub, UnitGroup.subst_var, map_zero] at hZero
  have hPower : (u.exponent x).toInt ≠ 0 := fun hInt => hExponent (Int32.toInt_inj.mp hInt)
  constructor
  · intro hu
    rw [hu, add_zero, smul_eq_zero_iff_right hPower] at hZero
    exact (sub_eq_zero.mp hZero).symm
  · intro hx
    rw [hx, sub_self, smul_zero, zero_add] at hZero
    exact hZero

/-- A definition that holds gives its variable the value of the unit it is
defined as. -/
theorem unitPart_of_define {θ : model.Valuation} {x : Name} {type : Ty} {kind : Kind}
    (h : model.Holds θ (.define x type kind)) : unitPart θ x = unitValue θ type.toUnit := h .unit

/-- The holes of a hull stand for units, and its shape is a value type if the
new variables are units. -/
theorem hull_kinds {supply : Supply} {t : Ty} {hull : Hull} (h : t.hull supply = .ok hull)
    {K : language.Scope} (hKind : HasKind K t .value) :
    (∀ p ∈ hull.holes, HasKind K p.2 .unit) ∧
      HasKind (fun x k => K x k ∨ (x, k) ∈ hull.vars) hull.shape .value := by
  induction t generalizing supply hull with
  | var x =>
      cases h
      exact ⟨fun _ hp => (nomatch hp), hKind.mono fun _ _ _ hx => .inl hx⟩
  | arrow a b iha ihb =>
      obtain ⟨left, hLeft, h⟩ := bind_eq_ok.mp h
      obtain ⟨right, hRight, h⟩ := bind_eq_ok.mp h
      cases h
      cases hKind with
      | arrow ha hb =>
          obtain ⟨hHolesLeft, hShapeLeft⟩ := iha hLeft ha
          obtain ⟨hHolesRight, hShapeRight⟩ := ihb hRight hb
          refine ⟨fun p hp => (List.mem_append.mp hp).elim (hHolesLeft p) (hHolesRight p),
            .arrow (hShapeLeft.mono fun x k _ hx => hx.imp_right fun hVar => ?_)
              (hShapeRight.mono fun x k _ hx => hx.imp_right fun hVar => ?_)⟩
          · rw [Hull.vars, List.map_append]
            exact List.mem_append_left _ hVar
          · rw [Hull.vars, List.map_append]
            exact List.mem_append_right _ hVar
  | float u =>
      cases h
      cases hKind with
      | float hu =>
          refine ⟨fun p hp => ?_, .float (.var (.inr List.mem_cons_self))⟩
          rw [List.mem_singleton.mp hp]
          exact hu
  | _ => cases h

/-- A hull has the value of its type where the new variables have those of the
units they were put for. -/
theorem eval_hull {supply : Supply} {t : Ty} {hull : Hull} (h : t.hull supply = .ok hull)
    {θ : model.Valuation} (hHoles : ∀ p ∈ hull.holes, unitPart θ p.1 = unitValue θ p.2.toUnit) :
    model.eval θ .value hull.shape = model.eval θ .value t := by
  induction t generalizing supply hull with
  | var x =>
      cases h
      rfl
  | arrow a b iha ihb =>
      obtain ⟨left, hLeft, h⟩ := bind_eq_ok.mp h
      obtain ⟨right, hRight, h⟩ := bind_eq_ok.mp h
      cases h
      have ha := iha hLeft fun p hp => hHoles p (List.mem_append_left _ hp)
      have hb := ihb hRight fun p hp => hHoles p (List.mem_append_right _ hp)
      exact congrArg₂ ValueTy.arrow ha hb
  | float u =>
      cases h
      have hHole := hHoles _ List.mem_cons_self
      exact congrArg ValueTy.float ((unitValue_var θ _).trans hHole)
  | _ => cases h

/-- The goals of a hull say of each new variable that it is the unit it was put
for. -/
theorem holeGoals_eq_ok {holes : List (Name × Ty)} {goals : List (Goal language)}
    (h : holeGoals holes = .ok goals) :
    List.Forall₂ (fun p g => ∃ m q, p.2.toMeasure = .ok m ∧
      (Measure.var p.1).subtract m = .ok q ∧ g = isOne q) holes goals := by
  induction holes generalizing goals with
  | nil =>
      cases h
      exact .nil
  | cons p holes ih =>
      obtain ⟨m, hm, h⟩ := bind_eq_ok.mp h
      obtain ⟨q, hq, h⟩ := bind_eq_ok.mp h
      obtain ⟨rest, hRest, h⟩ := bind_eq_ok.mp h
      cases h
      exact .cons ⟨m, q, hm, hq, rfl⟩ (ih hRest)

/-- The equations for the holes say just that: each asks the quotient of a unit
and its variable to be dimensionless. -/
theorem unitPart_of_holeGoals {holes : List (Name × Ty)} {goals : List (Goal language)}
    (h : holeGoals holes = .ok goals) {θ : model.Valuation}
    (hGoals : ∀ g ∈ goals, model.Solves θ g) :
    ∀ p ∈ holes, unitPart θ p.1 = unitValue θ p.2.toUnit := by
  have hPairs := holeGoals_eq_ok h
  clear h
  induction hPairs with
  | nil => exact fun _ hp => nomatch hp
  | @cons p g holes goals hHead _ ih =>
      intro q hq
      rcases List.mem_cons.mp hq with rfl | hq
      · obtain ⟨m, quotient, hm, hQuotient, rfl⟩ := hHead
        have hOne := solves_isOne.mp (hGoals _ List.mem_cons_self)
        rw [Measure.toUnit_subtract hQuotient, Measure.toUnit_var, Ty.toUnit_of_toMeasure hm,
          map_sub, sub_eq_zero, unitValue_var] at hOne
        exact hOne
      · exact ih (fun g hg => hGoals g (List.mem_cons_of_mem _ hg)) q hq

theorem holeGoals_kinds {holes : List (Name × Ty)} {goals : List (Goal language)}
    (h : holeGoals holes = .ok goals) {K : language.Scope}
    (hHoles : ∀ p ∈ holes, K p.1 .unit ∧ HasKind K p.2 .unit) :
    ∀ g ∈ goals, kinding.Goal K g := by
  have hPairs := holeGoals_eq_ok h
  clear h
  induction hPairs with
  | nil => exact fun _ hg => nomatch hg
  | @cons p g holes goals hHead _ ih =>
      intro g' hg'
      rcases List.mem_cons.mp hg' with rfl | hg'
      · obtain ⟨m, quotient, hm, hQuotient, rfl⟩ := hHead
        obtain ⟨hHole, hUnit⟩ := hHoles p List.mem_cons_self
        intro x hx
        rw [Measure.toUnit_subtract hQuotient, Measure.toUnit_var, Ty.toUnit_of_toMeasure hm] at hx
        rcases UnitGroup.mem_freeVars_sub hx with hx | hx
        · rw [UnitGroup.mem_freeVars_var.mp hx]
          exact hHole
        · exact hUnit.of_mem_toUnit hx
      · exact ih (fun q hq => hHoles q (List.mem_cons_of_mem _ hq)) g' hg'

/-- What is left of a variable that has been solved makes sense if its
definition does, and the equations for the others. -/
theorem scoped_define (D : Discipline language) {K : language.Telescope}
    (deps : language.Telescope) (goals : List (Goal language)) {x : Name} {type : Ty} {kind : Kind}
    (hGoals : ∀ g ∈ goals, D.Goal (Language.Telescope.Declares (K ++ deps)) g)
    (hType : D.Ty (Language.Telescope.Declares (K ++ deps)) type kind) :
    D.Scoped K (deps.intros ++ (goals.map .ofGoal ++ [.define x type kind])) := by
  rw [D.scoped_append, D.scoped_append, declared_intros, declared_ofGoals, List.append_nil]
  exact ⟨D.scoped_intros K deps, D.scoped_ofGoals hGoals, hType, trivial⟩

/-- A variable with an exponent is a unit variable, and the others are
declared apart from it. -/
theorem kinds_of_exponent {K deps : language.Telescope} {unit : Measure} {e : Entry language}
    {x : Name} {kind : Kind} (he : e.declared = [(x, kind)]) (hx : unit.exponent x ≠ 0)
    (hNodup : ((K ++ declared [e, .constraint ⟨deps, isOne unit⟩]).map Prod.fst).Nodup)
    (hGoal : kinding.Entry (K ++ e.declared) (.constraint ⟨deps, isOne unit⟩)) :
    kind = .unit ∧ ∀ y ∈ unit.toUnit.freeVars, y ≠ x → (y, Kind.unit) ∈ K ++ deps := by
  have hDeclared : declared [e, .constraint ⟨deps, isOne unit⟩] = (x, kind) :: deps := by
    rw [declared_cons, he, declared_cons]
    exact congrArg _ (List.append_nil deps)
  have hUnits : ∀ y ∈ unit.toUnit.freeVars, (y, Kind.unit) ∈ K ++ (x, kind) :: deps := by
    intro y hy
    have hMem : (y, Kind.unit) ∈ (K ++ e.declared) ++ deps := hGoal y hy
    rw [he, List.append_assoc] at hMem
    exact hMem
  rw [hDeclared] at hNodup
  constructor
  · exact Name.eq_of_nodup hNodup (List.mem_append_right K List.mem_cons_self)
      (hUnits x (Measure.mem_freeVars.mpr hx))
  · intro y hy hNe
    have hMem := hUnits y hy
    simp only [List.mem_append, List.mem_cons, Prod.mk.injEq] at hMem ⊢
    rcases hMem with hMem | ⟨hEq, -⟩ | hMem
    · exact .inl hMem
    · exact absurd hEq hNe
    · exact .inr hMem

/-- The entries that a reduction leaves are well-kinded: all variables of a unit
are units, and so is the new one. -/
theorem scoped_reduce {K deps : language.Telescope} {unit quotient solution result : Measure}
    {x b : Name} (hx : unit.exponent x ≠ 0) (hQuotient : unit.pivot x = .ok quotient)
    (hSolution : quotient.add (.var b) = .ok solution)
    (hResult : unit.substitute x solution = .ok result)
    (hUnit : ∀ y ∈ unit.toUnit.freeVars, y ≠ x → (y, Kind.unit) ∈ K ++ deps) :
    kinding.Scoped K (.intro b .unit ::
      (deps.intros ++ [.ofGoal (isOne result), .define x solution.toType .unit])) := by
  -- The new variable comes first, so that the solution and the rest of the equation may use it.
  have hNew : K ++ deps ⊆ K ++ (b, Kind.unit) :: deps := by
    apply List.append_subset.mpr
    exact ⟨List.subset_append_left _ _,
      List.subset_append_of_subset_right _ (List.subset_cons_self _ _)⟩
  have hSolutionKinds : ∀ y ∈ solution.toUnit.freeVars,
      (y, Kind.unit) ∈ K ++ (b, Kind.unit) :: deps := by
    intro y hy
    rw [Measure.toUnit_add hSolution, Measure.toUnit_var] at hy
    rcases UnitGroup.mem_freeVars_add hy with hy | hy
    · obtain ⟨hy, hNe⟩ := Measure.mem_freeVars_pivot hx hQuotient hy
      exact hNew (hUnit y hy hNe)
    · rw [UnitGroup.mem_freeVars_var.mp hy]
      exact List.mem_append_right _ List.mem_cons_self
  have hResultKinds : kinding.Goal (Language.Telescope.Declares (K ++ (b, Kind.unit) :: deps))
      (isOne result) := by
    intro y hy
    rcases Measure.mem_freeVars_substitute hResult hy with hy | ⟨hy, hNe⟩
    · exact hSolutionKinds y hy
    · exact hNew (hUnit y hy hNe)
  exact scoped_define kinding ((b, Kind.unit) :: deps) [isOne result]
    (List.forall_mem_singleton.mpr hResultKinds) (.toType hSolutionKinds)

/-- So are those that equate a variable with a hull and its holes with units. -/
theorem scoped_hull {K deps : language.Telescope} {supply : Supply} {x : Name} {type : Ty}
    {hull : Hull} {goals : List (Goal language)} (hHull : type.hull supply = .ok hull)
    (hGoals : holeGoals hull.holes = .ok goals)
    (hOld : kinding.Equation (Language.Telescope.Declares (K ++ deps)) (.var x) type) :
    kinding.Scoped K
      (.constraint ⟨deps ++ hull.vars, .special (.hull x hull.shape)⟩ :: goals.map .ofGoal) := by
  obtain ⟨k, rfl, hVar, hType⟩ := hOld
  obtain ⟨hHoles, hShape⟩ := hull_kinds hHull hType
  have hWider : ∀ y j, (y, j) ∈ K ++ deps → (y, j) ∈ K ++ (deps ++ hull.vars) := by
    intro y j hy
    rw [← List.append_assoc]
    exact List.mem_append_left _ hy
  have hNew : ∀ y j, (y, j) ∈ hull.vars → (y, j) ∈ K ++ (deps ++ hull.vars) := by
    intro y j hy
    exact List.mem_append_right _ (List.mem_append_right _ hy)
  constructor
  · refine ⟨.value, rfl, hVar.mono fun y j _ => hWider y j, hShape.mono fun y j _ hy => ?_⟩
    exact hy.elim (hWider y j) (hNew y j)
  · apply kinding.scoped_ofGoals
    apply holeGoals_kinds hGoals
    intro p hp
    exact ⟨hNew _ _ (List.mem_map_of_mem hp), (hHoles p hp).mono fun y j _ => hWider y j⟩

namespace UnitMove

variable {supply supply' : Supply} {fresh : language.Telescope} {old new : List (Entry language)}

/-- Every replacement keeps entries well-kinded. A variable with an exponent is
a unit variable, so what takes its place is a unit as well. -/
theorem scoped_new {K : language.Telescope} (h : UnitMove supply supply' fresh old new)
    (hNodup : ((K ++ declared old).map Prod.fst).Nodup) (hOld : kinding.Scoped K old) :
    kinding.Scoped K new := by
  cases h with
  | settle => exact kinding.scoped_intros K _
  | @unfold deps unit value result x type kind hx hValue hResult =>
      obtain ⟨hType, hGoal, -⟩ := hOld
      obtain ⟨rfl, hRest⟩ := kinds_of_exponent rfl hx hNodup hGoal
      have hResultKinds :
          kinding.Goal (Language.Telescope.Declares (K ++ deps)) (isOne result) := by
        intro y hy
        rcases Measure.mem_freeVars_substitute hResult hy with hy | ⟨hy, hNe⟩
        · rw [Ty.toUnit_of_toMeasure hValue] at hy
          exact List.mem_append_left _ (HasKind.of_mem_toUnit hType hy)
        · exact hRest y hy hNe
      apply scoped_define kinding deps [isOne result]
        (List.forall_mem_singleton.mpr hResultKinds)
      exact HasKind.mono (fun _ _ _ hy => List.mem_append_left _ hy) hType
  | @solve deps unit solution x kind hx hDivides hSolution =>
      obtain ⟨rfl, hRest⟩ := kinds_of_exponent rfl hx hNodup hOld.2.1
      apply scoped_define kinding deps [] (List.forall_mem_nil _)
      apply HasKind.toType
      intro y hy
      obtain ⟨hy, hNe⟩ := Measure.mem_freeVars_pivot hx hSolution hy
      exact hRest y hy hNe
  | reduce hx hRival hQuotient hSolution hResult =>
      obtain ⟨rfl, hRest⟩ := kinds_of_exponent rfl hx hNodup hOld.2.1
      exact scoped_reduce hx hQuotient hSolution hResult hRest
  | hull hHull hGoals => exact scoped_hull hHull hGoals hOld.1

/-- No replacement loses a condition: what solves the new entries solves
the old ones. A definition that holds can be put back into the equation
from which it came. -/
theorem satisfies_old {θ : model.Valuation} (h : UnitMove supply supply' fresh old new)
    (hNew : model.Satisfies θ new) : model.Satisfies θ old := by
  cases h with
  | settle hIdentity =>
      refine model.satisfies_cons.mpr ⟨solves_isOne.mpr ?_, model.satisfies_nil⟩
      rw [Measure.toUnit_of_isIdentity hIdentity, map_zero]
  | unfold hx hValue hResult =>
      obtain ⟨hGoal, hRest⟩ := model.satisfies_cons.mp (model.satisfies_append.mp hNew).2
      obtain ⟨hDefine, hNil⟩ := model.satisfies_cons.mp hRest
      have hVar := unitPart_of_define hDefine
      rw [← Ty.toUnit_of_toMeasure hValue] at hVar
      refine model.satisfies_cons.mpr ⟨hDefine, model.satisfies_cons.mpr ⟨?_, hNil⟩⟩
      exact (subst_substitute hResult hVar).symm.trans (solves_isOne.mp hGoal)
  | solve hx hDivides hSolution =>
      obtain ⟨hDefine, hNil⟩ := model.satisfies_cons.mp (model.satisfies_append.mp hNew).2
      refine model.satisfies_cons.mpr ⟨trivial, model.satisfies_cons.mpr ⟨?_, hNil⟩⟩
      exact (subst_pivot hx hDivides hSolution).mpr (unitPart_of_define hDefine)
  | reduce hx hRival hQuotient hSolution hResult =>
      obtain ⟨-, hTail⟩ := model.satisfies_cons.mp hNew
      obtain ⟨hGoal, hRest⟩ := model.satisfies_cons.mp (model.satisfies_append.mp hTail).2
      obtain ⟨hDefine, hNil⟩ := model.satisfies_cons.mp hRest
      refine model.satisfies_cons.mpr ⟨trivial, model.satisfies_cons.mpr ⟨?_, hNil⟩⟩
      exact (subst_substitute hResult (unitPart_of_define hDefine)).symm.trans
        (solves_isOne.mp hGoal)
  | @hull deps x type hull goals hHull hGoals =>
      obtain ⟨hEquation, hHoles⟩ := model.satisfies_cons.mp hNew
      have hSolved : ∀ g ∈ goals, model.Solves θ g :=
        fun g hg => hHoles _ (List.mem_map_of_mem hg)
      have hShape := eval_hull hHull (unitPart_of_holeGoals hGoals hSolved)
      refine model.satisfies_cons.mpr ⟨?_, model.satisfies_nil⟩
      exact Eq.trans hEquation hShape

end UnitMove

section

variable {D : Discipline language} {M : Model language}
  (hScoped : ∀ {supply supply' : Supply} {fresh K : language.Telescope}
    {old new : List (Entry language)}, UnitMove supply supply' fresh old new →
    ((K ++ declared old).map Prod.fst).Nodup → D.Scoped K old → D.Scoped K new)
  (hReflects : ∀ {supply supply' : Supply} {fresh : language.Telescope}
    {old new : List (Entry language)} {θ : M.Valuation}, UnitMove supply supply' fresh old new →
    M.Satisfies θ new → M.Satisfies θ old)

include hScoped hReflects

/-- What a step does refines under a discipline and in a model that
replacements respect. -/
theorem StepsTo.refines {s t : State language} (hs : D.Good s) (h : StepsTo s t) :
    Refines D M s t := by
  obtain ⟨u, hSupply, hMoves, hLast⟩ := h
  have hRefines : Refines D M s u := .of_moves hs hSupply hMoves
  rcases hLast with rfl | hReplaces
  · exact hRefines
  · apply hRefines.trans
    have hu := hRefines.good
    obtain ⟨pre, post, hMove⟩ := hReplaces
    obtain ⟨hOld, hNodup⟩ := hu.wellFormed.segment
    apply Refines.replace hu hMove.advances hMove.fixed_old hMove.fixed_new hMove.declared_perm
      hMove.nodup_fresh hMove.pending_fresh
    · exact hScoped hMove hNodup hOld
    · exact fun θ hNew => hReflects hMove hNew

/-- As every step is made of moves or a replacement, steps refine
wherever replacements do. -/
theorem stepsRefine_of : StepsRefine D M :=
  fun hs hStep => StepsTo.refines hScoped hReflects hs (step_stepsTo hStep)

end

/-- So they refine under the discipline of kinds, in the model of
types up to equal units. -/
theorem stepsRefine : StepsRefine kinding model :=
  stepsRefine_of UnitMove.scoped_new UnitMove.satisfies_old

end HindleyMilner.Units
