import HindleyMilner.Proofs.Evaluation
import HindleyMilner.Proofs.Units.Range
import HindleyMilner.Proofs.Units.Scoping

/-! Unit equations on their own. A context of unit variables, definitions and equations
is a system of equations in an Abelian group, and the solver unifies in that group: it
keeps all solutions, up to the variables it introduces, and fails for want of a solution
as long as the exponents it computes fit. -/
namespace HindleyMilner.Units

open Context

/-- Whether an entry is about units, if it is about types at all. -/
def isUnital : Entry language → Bool
  | .define _ type _ => type.isUnit
  | .constraint ⟨_, .special (.identity _)⟩ => true
  | .constraint _ => false
  | _ => true

/-- Definitions are units and constraints are unit equations. -/
def UnitsOnly (es : List (Entry language)) : Prop := ∀ e ∈ es, isUnital e = true

instance (es : List (Entry language)) : Decidable (UnitsOnly es) :=
  inferInstanceAs (Decidable (∀ e ∈ es, _))

/-- What an entry asks of the units that are put for variables. -/
def HoldsFor (ρ : Name → UnitGroup) : Entry language → Prop
  | .define x type _ => ρ x = UnitGroup.subst ρ type.toUnit
  | .constraint ⟨_, .special (.identity unit)⟩ => UnitGroup.subst ρ unit.toUnit = 0
  | _ => True

/-- Units with integer exponents that satisfy all definitions and equations. -/
def SolvesUnits (ρ : Name → UnitGroup) (es : List (Entry language)) : Prop :=
  ∀ e ∈ es, HoldsFor ρ e

section

variable {ρ : Name → UnitGroup} {e : Entry language} {es fs : List (Entry language)}

@[simp]
theorem unitsOnly_nil : UnitsOnly [] := fun _ he => nomatch he

@[simp]
theorem unitsOnly_cons : UnitsOnly (e :: es) ↔ isUnital e = true ∧ UnitsOnly es :=
  List.forall_mem_cons

@[simp]
theorem unitsOnly_append : UnitsOnly (es ++ fs) ↔ UnitsOnly es ∧ UnitsOnly fs :=
  List.forall_mem_append

@[simp]
theorem unitsOnly_intros (deps : language.Telescope) : UnitsOnly deps.intros := by
  intro e he
  obtain ⟨d, -, rfl⟩ := List.mem_map.mp he
  rfl

@[simp]
theorem solvesUnits_nil : SolvesUnits ρ [] := fun _ he => nomatch he

@[simp]
theorem solvesUnits_cons : SolvesUnits ρ (e :: es) ↔ HoldsFor ρ e ∧ SolvesUnits ρ es :=
  List.forall_mem_cons

@[simp]
theorem solvesUnits_append : SolvesUnits ρ (es ++ fs) ↔ SolvesUnits ρ es ∧ SolvesUnits ρ fs :=
  List.forall_mem_append

@[simp]
theorem solvesUnits_intros (deps : language.Telescope) : SolvesUnits ρ deps.intros := by
  intro e he
  obtain ⟨d, -, rfl⟩ := List.mem_map.mp he
  trivial

end

/-- A constraint is a unit equation, whatever variables it carries. -/
@[simp]
theorem isUnital_constraint {deps : language.Telescope} {g : Goal language} :
    isUnital (.constraint ⟨deps, g⟩) = true ↔ ∃ unit, g = isOne unit := by
  cases g with
  | eq l r => simp [isUnital]
  | special g => cases g <;> simp [isUnital]

@[simp]
theorem isUnital_intro {x : Name} {kind : Kind} : isUnital (.intro x kind) = true := rfl

@[simp]
theorem isUnital_ofGoal {g : Goal language} :
    isUnital (.ofGoal g) = true ↔ ∃ unit, g = isOne unit := isUnital_constraint

@[simp]
theorem holdsFor_intro {ρ : Name → UnitGroup} {x : Name} {kind : Kind} :
    HoldsFor ρ (.intro x kind) := trivial

@[simp]
theorem holdsFor_ofGoal {ρ : Name → UnitGroup} {unit : Measure} :
    HoldsFor ρ (.ofGoal (isOne unit)) ↔ UnitGroup.subst ρ unit.toUnit = 0 := .rfl

/-- A unit equation holds where its unit becomes the neutral element of the
group. -/
@[simp]
theorem holdsFor_isOne {ρ : Name → UnitGroup} {deps : language.Telescope} {unit : Measure} :
    HoldsFor ρ (.constraint ⟨deps, isOne unit⟩) ↔ UnitGroup.subst ρ unit.toUnit = 0 := .rfl

/-- A definition holds where the variable has the value of its unit. -/
@[simp]
theorem holdsFor_define {ρ : Name → UnitGroup} {x : Name} {type : Ty} {kind : Kind} :
    HoldsFor ρ (.define x type kind) ↔ ρ x = UnitGroup.subst ρ type.toUnit := .rfl

@[simp]
theorem Measure.toUnit_toType (unit : Measure) : unit.toType.toUnit = unit.toUnit := rfl

/-- Moves between entries about units lose no solution. Such moves shift entries
only, as those that solve or substitute are about equations of types. -/
theorem solvesUnits_move {old new : List (Entry language)} (h : Move old new)
    (hUnits : UnitsOnly old) :
    UnitsOnly new ∧ ∀ ρ, SolvesUnits ρ old → SolvesUnits ρ new := by
  cases h with
  | lower deps g =>
      obtain ⟨unit, rfl⟩ := by simpa using hUnits
      exact ⟨by simp, fun ρ hρ => by simpa using hρ⟩
  | sink =>
      simp only [unitsOnly_cons, solvesUnits_cons] at hUnits ⊢
      exact ⟨⟨hUnits.2.1, hUnits.1, hUnits.2.2⟩, fun ρ hρ => ⟨hρ.2.1, hρ.1, hρ.2.2⟩⟩
  | pass =>
      simp only [unitsOnly_cons, solvesUnits_cons] at hUnits ⊢
      exact ⟨⟨hUnits.2.1, hUnits.1, hUnits.2.2⟩, fun ρ hρ => ⟨hρ.2.1, hρ.1, hρ.2.2⟩⟩
  | lift =>
      obtain ⟨unit, rfl⟩ := by simpa using hUnits
      exact ⟨by simp, fun ρ hρ => by simpa using hρ⟩
  -- The other moves are about equations of types.
  | unfold hSides =>
      obtain ⟨-, unit, rfl⟩ := by simpa using hUnits
      cases hSides
  | solve hSides =>
      obtain ⟨unit, rfl⟩ := by simpa using hUnits
      cases hSides
  | _ => simp at hUnits

theorem solvesUnits_moves {es fs : List (Entry language)} (h : Moves es fs)
    (hUnits : UnitsOnly es) :
    UnitsOnly fs ∧ ∀ ρ, SolvesUnits ρ es → SolvesUnits ρ fs := by
  induction h with
  | refl => exact ⟨hUnits, fun _ hρ => hρ⟩
  | tail _ hLast ih =>
      obtain ⟨pre, post, hMove⟩ := hLast
      obtain ⟨hMiddle, hSolves⟩ := ih
      rw [unitsOnly_append, unitsOnly_append] at hMiddle
      obtain ⟨hNew, hKept⟩ := solvesUnits_move hMove hMiddle.2.1
      refine ⟨unitsOnly_append.mpr ⟨hMiddle.1, unitsOnly_append.mpr ⟨hNew, hMiddle.2.2⟩⟩, ?_⟩
      intro ρ hρ
      have hAll := hSolves ρ hρ
      rw [solvesUnits_append, solvesUnits_append] at hAll ⊢
      exact ⟨hAll.1, hKept ρ hAll.2.1, hAll.2.2⟩

def Unused (x : Name) (es : List (Entry language)) : Prop :=
  x ∉ (declared es).map Prod.fst ∧ ∀ e ∈ es, x ∉ e.freeVars

theorem unused_append {x : Name} {es fs : List (Entry language)} :
    Unused x (es ++ fs) ↔ Unused x es ∧ Unused x fs := by
  simp only [Unused, declared_append, List.map_append, List.mem_append, not_or, or_imp, forall_and]
  exact and_and_and_comm

/-- Values of variables that are not in use may be changed, since an entry
depends on the variables that occur in it and on the one that it defines. -/
theorem SolvesUnits.congr {ρ ρ' : Name → UnitGroup} {es : List (Entry language)}
    (h : ∀ x, ρ' x = ρ x ∨ Unused x es) (hρ : SolvesUnits ρ es) : SolvesUnits ρ' es := by
  have hFree : ∀ e ∈ es, ∀ x ∈ e.freeVars, ρ' x = ρ x := by
    intro e he x hx
    exact (h x).resolve_right fun hUnused => hUnused.2 e he hx
  intro e he
  have hHolds := hρ e he
  cases e with
  | define x type kind =>
      have hVar : ρ' x = ρ x := by
        refine (h x).resolve_right fun hUnused => hUnused.1 ?_
        have hDeclared : (x, kind) ∈ declared es := List.mem_flatMap.mpr ⟨_, he, List.mem_cons_self⟩
        exact List.mem_map_of_mem (f := Prod.fst) hDeclared
      have hType : UnitGroup.subst ρ' type.toUnit = UnitGroup.subst ρ type.toUnit := by
        apply UnitGroup.subst_congr
        exact fun y hy => hFree _ he y (Ty.mem_freeVars_of_toUnit hy)
      exact hVar.trans (Eq.trans hHolds hType.symm)
  | constraint c =>
      obtain ⟨deps, g⟩ := c
      cases g with
      | eq l r => trivial
      | special g =>
          cases g with
          | hull x shape => trivial
          | identity unit =>
              refine Eq.trans (UnitGroup.subst_congr fun y hy => ?_) hHolds
              exact hFree _ he y (Measure.mem_names.mpr hy)
  | _ => trivial

/-- What has the kind of units is made of units. -/
theorem HasKind.isUnit {K : language.Scope} {t : Ty} (h : HasKind K t .unit) :
    t.isUnit = true := by
  induction t with
  | mul a b iha ihb =>
      cases h with
      | mul ha hb => simp [Ty.isUnit, iha ha, ihb hb]
  | pow a e ih =>
      cases h with
      | pow ha => exact ih ha
  | arrow a b => cases h
  | float u => cases h
  | _ => rfl

@[simp]
theorem isUnital_define_toType {x : Name} {unit : Measure} {kind : Kind} :
    isUnital (.define x unit.toType kind) = true :=
  HasKind.isUnit (K := fun _ _ => True) (.toType fun _ _ => trivial)

/-- The new variable of a reduced equation stands for what the quotient leaves
of the variable that is defined. -/
theorem solvesUnits_reduce {ρ : Name → UnitGroup} {deps : language.Telescope}
    {unit quotient solution result : Measure} {x b : Name} {kind : Kind}
    (hx : unit.exponent x ≠ 0) (hQuotient : unit.pivot x = .ok quotient)
    (hSolution : quotient.add (.var b) = .ok solution)
    (hResult : unit.substitute x solution = .ok result)
    (hUnused : Unused b [.intro x kind, .constraint ⟨deps, isOne unit⟩])
    (hρ : UnitGroup.subst ρ unit.toUnit = 0) :
    SolvesUnits (Function.update ρ b (ρ x - UnitGroup.subst ρ quotient.toUnit))
      (.intro b .unit ::
        (deps.intros ++ [.ofGoal (isOne result), .define x solution.toType kind])) := by
  obtain ⟨hDeclared, hFree⟩ := hUnused
  have hNe : x ≠ b := fun hEq => hDeclared (hEq ▸ List.mem_cons_self)
  have hUnit : ∀ y ∈ unit.toUnit.freeVars, y ≠ b := by
    rintro y hy rfl
    apply hFree (.constraint ⟨deps, isOne unit⟩) (List.mem_cons_of_mem _ List.mem_cons_self)
    exact Measure.mem_names.mpr hy
  let ρ' := Function.update ρ b (ρ x - UnitGroup.subst ρ quotient.toUnit)
  have hSame : ∀ u : UnitGroup, (∀ y ∈ u.freeVars, y ≠ b) →
      UnitGroup.subst ρ' u = UnitGroup.subst ρ u := by
    intro u hu
    exact UnitGroup.subst_congr fun y hy => Function.update_of_ne (hu y hy) _ _
  have hQuotientValue : UnitGroup.subst ρ' quotient.toUnit = UnitGroup.subst ρ quotient.toUnit :=
    hSame _ fun y hy => hUnit y (Measure.mem_freeVars_pivot hx hQuotient hy).1
  have hNew : ρ' b = ρ x - UnitGroup.subst ρ quotient.toUnit := Function.update_self _ _ _
  have hVar : ρ' x = UnitGroup.subst ρ' solution.toUnit := by
    rw [Measure.toUnit_add hSolution, Measure.toUnit_var, map_add, UnitGroup.subst_var,
      hQuotientValue, hNew, add_sub_cancel]
    exact Function.update_of_ne hNe _ _
  have hReduced : UnitGroup.subst ρ' result.toUnit = 0 :=
    (subst_substitute hResult hVar).trans ((hSame _ hUnit).trans hρ)
  simpa using ⟨hReduced, hVar⟩

/-- Replacements between entries about units lose no solution, once the new
variables are given the right values. -/
theorem solvesUnits_unitMove {supply supply' : Supply} {fresh : language.Telescope}
    {old new : List (Entry language)} (h : UnitMove supply supply' fresh old new)
    (hUnits : UnitsOnly old) :
    UnitsOnly new ∧ ∀ ρ, SolvesUnits ρ old → (∀ p ∈ fresh, Unused p.1 old) →
      ∃ ρ', (∀ x, x ∉ fresh.map Prod.fst → ρ' x = ρ x) ∧ SolvesUnits ρ' new := by
  cases h with
  | settle => exact ⟨by simp, fun ρ _ _ => ⟨ρ, fun _ _ => rfl, by simp⟩⟩
  | @unfold deps unit value result x type kind hx hValue hResult =>
      simp only [unitsOnly_cons] at hUnits
      refine ⟨by simp [hUnits.1], fun ρ hρ _ => ⟨ρ, fun _ _ => rfl, ?_⟩⟩
      obtain ⟨hDefine, hEquation⟩ := by simpa using hρ
      have hVar : ρ x = UnitGroup.subst ρ value.toUnit := by
        rw [Ty.toUnit_of_toMeasure hValue]
        exact hDefine
      have hReduced := (subst_substitute hResult hVar).trans hEquation
      simpa using ⟨hReduced, hDefine⟩
  | @solve deps unit solution x kind hx hDivides hSolution =>
      refine ⟨by simp, fun ρ hρ _ => ⟨ρ, fun _ _ => rfl, ?_⟩⟩
      have hEquation : UnitGroup.subst ρ unit.toUnit = 0 := by simpa using hρ
      simpa using (subst_pivot hx hDivides hSolution).mp hEquation
  | @reduce deps unit quotient solution result x kind hx hRival hQuotient hSolution hResult =>
      refine ⟨by simp, fun ρ hρ hUnused => ?_⟩
      have hEquation : UnitGroup.subst ρ unit.toUnit = 0 := by simpa using hρ
      refine ⟨_, fun y hy => ?_, solvesUnits_reduce hx hQuotient hSolution hResult
        (hUnused _ List.mem_cons_self) hEquation⟩
      exact Function.update_of_ne (List.ne_of_not_mem_cons hy) _ _
  | hull => simp at hUnits

/-- Values that differ from others at most where a variable was drawn
between two states. -/
def ExtendsTo (s t : State language) (ρ ρ' : Name → UnitGroup) : Prop :=
  ∀ x, ρ' x = ρ x ∨ (s.supply.Pending x ∧ ¬t.supply.Pending x)

/-- Names once drawn are not drawn again, so that extensions can be put together. -/
theorem ExtendsTo.trans {s t u : State language} {ρ ρ' ρ'' : Name → UnitGroup}
    (hFirst : s.supply.Advances t.supply) (hSecond : t.supply.Advances u.supply)
    (h : ExtendsTo s t ρ ρ') (h' : ExtendsTo t u ρ' ρ'') : ExtendsTo s u ρ ρ'' := by
  intro x
  rcases h' x with hEq | ⟨hPending, hDrawn⟩
  · rcases h x with hEq' | ⟨hPending, hDrawn⟩
    · exact .inl (hEq.trans hEq')
    · exact .inr ⟨hPending, fun hLater => hDrawn (hSecond x hLater)⟩
  · exact .inr ⟨hFirst x hPending, hDrawn⟩

/-- A step loses no solution: each one extends to the variables that the
step introduces. These have just been drawn, so no entry is in the way of
giving them values. -/
theorem solvesUnits_step {s t : State language} (hs : s.WellFormed)
    (hUnits : UnitsOnly s.context.entries) (h : s.step = .ok t) :
    t.WellFormed ∧ UnitsOnly t.context.entries ∧ ∀ ρ, SolvesUnits ρ s.context.entries →
      ∃ ρ', ExtendsTo s t ρ ρ' ∧ SolvesUnits ρ' t.context.entries := by
  refine ⟨((stepsRefine_scoping hs.good h).keeps hs).1, ?_⟩
  obtain ⟨u, hSupply, hMoves, hLast⟩ := step_stepsTo h
  obtain ⟨hUnitsU, hSolves⟩ := solvesUnits_moves hMoves hUnits
  rcases hLast with rfl | hReplaces
  · exact ⟨hUnitsU, fun ρ hρ => ⟨ρ, fun _ => .inl rfl, hSolves ρ hρ⟩⟩
  · have hRefines : Refines (Discipline.scoping language) (Model.onePoint language) s u :=
      .of_moves hs.good hSupply hMoves
    obtain ⟨hu, -⟩ := hRefines.keeps hs
    obtain @⟨pre, post, supply, supply', fresh, old, new, hMove⟩ := hReplaces
    cases hSupply
    have hFresh : ∀ p ∈ fresh, Unused p.1 (pre ++ (old ++ post)) :=
      fun p hp => hu.drawn p.1 (hMove.pending_fresh p hp).1
    rw [unitsOnly_append, unitsOnly_append] at hUnitsU
    obtain ⟨hNew, hExtend⟩ := solvesUnits_unitMove hMove hUnitsU.2.1
    refine ⟨unitsOnly_append.mpr ⟨hUnitsU.1, unitsOnly_append.mpr ⟨hNew, hUnitsU.2.2⟩⟩, ?_⟩
    intro ρ hρ
    have hAll := hSolves ρ hρ
    rw [solvesUnits_append, solvesUnits_append] at hAll
    obtain ⟨ρ', hSame, hρ'⟩ := hExtend ρ hAll.2.1 fun p hp =>
      (unused_append.mp (unused_append.mp (hFresh p hp)).2).1
    have hCases : ∀ x, ρ' x = ρ x ∨ ∃ p ∈ fresh, p.1 = x := by
      intro x
      by_cases hx : x ∈ fresh.map Prod.fst
      · exact .inr (List.mem_map.mp hx)
      · exact .inl (hSame x hx)
    refine ⟨ρ', fun x => ?_, ?_⟩
    · refine (hCases x).imp_right ?_
      rintro ⟨p, hp, rfl⟩
      exact hMove.pending_fresh p hp
    · rw [solvesUnits_append, solvesUnits_append]
      refine ⟨hAll.1.congr fun x => (hCases x).imp_right ?_, hρ',
        hAll.2.2.congr fun x => (hCases x).imp_right ?_⟩
      · rintro ⟨p, hp, rfl⟩
        exact (unused_append.mp (hFresh p hp)).1
      · rintro ⟨p, hp, rfl⟩
        exact (unused_append.mp (unused_append.mp (hFresh p hp)).2).2

/-- By induction on the run, solving loses no solution. The values of variables
that the run draws are added step by step. -/
theorem solvesUnits_unify {s t : State language} (hs : s.WellFormed)
    (hUnits : UnitsOnly s.context.entries) (h : s.unify = .ok t) {ρ : Name → UnitGroup}
    (hρ : SolvesUnits ρ s.context.entries) :
    ∃ ρ', ExtendsTo s t ρ ρ' ∧ SolvesUnits ρ' t.context.entries := by
  fun_induction State.unify s generalizing ρ with
  | case1 s hCan u hStep ih =>
      obtain ⟨hu, hUnitsU, hSolves⟩ := solvesUnits_step hs hUnits hStep
      obtain ⟨ρ', hFirst, hρ'⟩ := hSolves ρ hρ
      obtain ⟨ρ'', hSecond, hρ''⟩ := ih hu hUnitsU h hρ'
      have hAdvances := (stepsRefine_scoping hs.good hStep).advances
      have hAdvances' := (stepsRefine_scoping.unify hu.good h).1.advances
      exact ⟨ρ'', hFirst.trans hAdvances hAdvances' hSecond, hρ''⟩
  | case2 s hCan e hStep => cases h
  | case3 s hCan =>
      cases h
      exact ⟨ρ, fun _ => .inl rfl, hρ⟩

/-- Base units are independent, so an equation without variables holds only if
nothing is left of it. -/
theorem not_solves_of_constant {unit : Measure} (hConstant : unit.isConstant = true)
    (hIdentity : unit.isIdentity = false) (ρ : Name → UnitGroup) :
    UnitGroup.subst ρ unit.toUnit ≠ 0 := by
  have hFree : ∀ x, x ∉ unit.toUnit.freeVars := by
    intro x hx
    have hMem := Measure.mem_names.mpr hx
    rw [Exponents.names, Std.ExtTreeMap.isEmpty_iff.mp hConstant] at hMem
    simp at hMem
  intro hZero
  have hUnit : unit.toUnit = 0 := by
    rw [← UnitGroup.subst_id unit.toUnit, ← hZero]
    exact UnitGroup.subst_congr fun x hx => absurd hx (hFree x)
  have hEq : unit = .identity := by
    apply Measure.ext_power
    intro f
    rw [← Measure.toUnit_apply, hUnit, Measure.power_identity]
    rfl
  rw [hEq] at hIdentity
  cases hIdentity

/-- Where at most one variable is left, two that occur are equal, as the
variables of a unit are listed without repetition. -/
theorem eq_of_varCount {unit : Measure} (h : unit.varCount ≤ 1) {x y : Name}
    (hx : unit.exponent x ≠ 0) (hy : unit.exponent y ≠ 0) : y = x := by
  have hLength : unit.vars.names.length = unit.varCount := Std.ExtTreeMap.length_keys
  have hx : x ∈ unit.vars.names := Exponents.mem_names.mpr hx
  have hy : y ∈ unit.vars.names := Exponents.mem_names.mpr hy
  match hNames : unit.vars.names with
  | [] =>
      rw [hNames] at hx
      cases hx
  | [z] =>
      rw [hNames] at hx hy
      rw [List.mem_singleton.mp hx, List.mem_singleton.mp hy]
  | _ :: _ :: _ =>
      rw [hNames, List.length_cons, List.length_cons] at hLength
      omega

/-- The check of divisibility finds all powers divisible if they are. -/
theorem divisibleBy_of_dvd {unit : Measure} {d : Exponent} (hd : d ≠ 0)
    (h : ∀ f, d.toInt ∣ unit.power f) : unit.divisibleBy d = true := by
  refine Bool.and_eq_true_iff.mpr ⟨decide_eq_true hd, List.all_eq_true.mpr fun p hp => ?_⟩
  apply decide_eq_true
  rcases List.mem_append.mp hp with hp | hp
  · rw [← Exponents.get_of_mem_toList hp]
    exact h (.var p.1)
  · rw [← Exponents.get_of_mem_toList hp]
    exact h (.prim p.1)

/-- A solution would make the rest of the equation a multiple of the exponent.
The rest is a product of base units, which no substitution changes, so the
exponent would divide every power in it. -/
theorem not_solves_of_stuck {unit : Measure} {x : Name} (h : Stuck unit x)
    (ρ : Name → UnitGroup) : UnitGroup.subst ρ unit.toUnit ≠ 0 := by
  intro hZero
  let e := (unit.exponent x).toInt
  let rest := unit.toUnit - e • UnitGroup.var x
  have hFree : ∀ y, y ∉ rest.freeVars := by
    intro y hy
    apply UnitGroup.mem_freeVars.mp hy
    change unit.toUnit (.var y) - e * (UnitGroup.var x) (.var y) = 0
    rw [Measure.toUnit_apply, Measure.power_var, UnitGroup.var, Finsupp.single_apply]
    by_cases hEq : y = x
    · rw [hEq, if_pos rfl, mul_one, sub_self]
    · have hAlone : unit.exponent y = 0 :=
        Decidable.byContradiction fun hNe => hEq (eq_of_varCount h.alone h.occurs hNe)
      rw [hAlone, if_neg fun hVar => hEq (Factor.var.inj hVar).symm, mul_zero]
      rfl
  have hRest : UnitGroup.subst ρ rest = rest := by
    refine Eq.trans ?_ (UnitGroup.subst_id rest)
    exact UnitGroup.subst_congr fun y hy => absurd hy (hFree y)
  have hSum : unit.toUnit = rest + e • UnitGroup.var x := (sub_add_cancel _ _).symm
  have hMultiple : rest = -(e • ρ x) := by
    rw [hSum, map_add, hRest, map_smul, UnitGroup.subst_var] at hZero
    exact eq_neg_of_add_eq_zero_left hZero
  have hDivides : ∀ f, e ∣ unit.power f := by
    intro f
    rw [← Measure.toUnit_apply, hSum, hMultiple]
    exact dvd_add (dvd_neg.mpr (dvd_mul_right e _)) (dvd_mul_right e _)
  have hDivisible := divisibleBy_of_dvd h.occurs hDivides
  rw [h.not_divisible] at hDivisible
  cases hDivisible

/-- If a step reports a mismatch, and all exponents fit that it has computed,
then nothing solves the context. -/
theorem not_solvesUnits_of_step_error {s : State language} {text : String}
    (hUnits : UnitsOnly s.context.entries) (hFits : (reckonStep s).Fits)
    (h : s.step = .error (.unitMismatch text)) (ρ : Name → UnitGroup) :
    ¬SolvesUnits ρ s.context.entries := by
  rw [State.step] at h
  rw [reckonStep] at hFits
  cases hFocus : s.focus? with
  | none =>
      rw [hFocus] at h
      cases h
  | some found =>
      obtain ⟨⟨deps, goal⟩, f⟩ := found
      rw [hFocus] at h hFits
      obtain ⟨rfl, -⟩ := State.eq_of_focus? hFocus
      have hMem : .constraint ⟨deps, goal⟩ ∈
          (f.resume [.constraint ⟨deps, goal⟩]).context.entries :=
        List.mem_append_right _ List.mem_cons_self
      obtain ⟨unit, rfl⟩ := isUnital_constraint.mp (hUnits _ hMem)
      have hBelow : ∀ x type kind below, f.below = .define x type kind :: below →
          unit.exponent x ≠ 0 → type.isUnit = true := by
        intro x type kind below hTop _
        have he : .define x type kind ∈ f.below := hTop ▸ List.mem_cons_self
        exact hUnits _ (List.mem_append_left _ (List.mem_reverse.mpr he))
      intro hρ
      rcases solveUnit_mismatch hBelow hFits h with ⟨hConstant, hIdentity⟩ | ⟨x, hStuck⟩
      · exact not_solves_of_constant hConstant hIdentity ρ (hρ _ hMem)
      · exact not_solves_of_stuck hStuck ρ (hρ _ hMem)

/-- A run all of whose exponents fit fails with a mismatch only from a
context without solutions. -/
theorem not_solvesUnits_of_runWith {s : State language} {noted : List Int} {text : String}
    (hs : s.WellFormed) (hUnits : UnitsOnly s.context.entries)
    (h : (s.runWith noteExponents noted).outcome = .error (.unitMismatch text))
    (hRange : ∀ n ∈ (s.runWith noteExponents noted).noted, Exponent.InRange n)
    (ρ : Name → UnitGroup) : ¬SolvesUnits ρ s.context.entries := by
  fun_induction State.runWith noteExponents noted s generalizing ρ with
  | case1 noted s hCan noted' t hStep ih =>
      obtain ⟨ht, hUnitsT, hSolves⟩ := solvesUnits_step hs hUnits hStep
      intro hρ
      obtain ⟨ρ', -, hρ'⟩ := hSolves ρ hρ
      exact ih ht hUnitsT h hRange ρ' hρ'
  | case2 noted s hCan noted' e hStep =>
      cases h
      have hFits : (reckonStep s).Fits := fun n hn => hRange n (List.mem_append_left _ hn)
      exact not_solvesUnits_of_step_error hUnits hFits hStep ρ
  | case3 noted s hCan => cases h

/-- What a solved context substitutes in a unit is its solution in which the
variables that it leaves open stand for themselves. -/
theorem toUnit_apply_context {ctx : Context language} (t : Ty) :
    (ctx.apply t).toUnit =
      unitValue (model.extend model.algebra.var (definitions ctx.entries)) t.toUnit :=
  (model.eval_id .unit _).symm.trans (model.eval_unwind _ _ _ t)

/-- The solver computes a most general unifier of unit equations inside the
context. If it fails with a mismatch, no units solve the equations, unless an
exponent did not fit. -/
theorem unify_mostGeneral_upToUnits {s : State language} (hs : s.WellFormed)
    (hUnits : UnitsOnly s.context.entries) :
    (∀ t, s.unify = .ok t →
      Settled t.context.entries ∧
      (∀ deps unit, .constraint ⟨deps, isOne unit⟩ ∈ s.context.entries →
        (t.context.apply unit.toType).toUnit = 0) ∧
      (∀ x d k, .define x d k ∈ s.context.entries →
        (t.context.apply (Ty.var x)).toUnit = (t.context.apply d).toUnit) ∧
      ∀ ρ, SolvesUnits ρ s.context.entries →
        ∃ ρ', (∀ x, ρ' x = ρ x ∨ (s.supply.Pending x ∧ ¬t.supply.Pending x)) ∧
          ∀ x d k, .define x d k ∈ t.context.entries → ρ' x = UnitGroup.subst ρ' d.toUnit) ∧
    ∀ text, s.unify = .error (.unitMismatch text) →
      (∀ n ∈ exponentsOfRun s, Exponent.InRange n) → ∀ ρ, ¬SolvesUnits ρ s.context.entries := by
  constructor
  · intro t hRun
    have hSteps : StepsRefine (Discipline.scoping language) model :=
      stepsRefine_of (fun h _ hOld => h.inScope_new hOld) UnitMove.satisfies_old
    obtain ⟨hRefines, hSettled⟩ := hSteps.unify hs.good hRun
    have hWellFormed := hRefines.good.wellFormed
    have hSolution := hRefines.reflects _ (model.satisfies_extend (Discipline.scoping language)
      (K := []) model.algebra.var hSettled hWellFormed.inScope hWellFormed.nodup)
    refine ⟨hSettled, fun deps unit he => ?_, fun x d k he => ?_, fun ρ hρ => ?_⟩
    · rw [toUnit_apply_context]
      exact solves_isOne.mp (hSolution _ he)
    · rw [toUnit_apply_context, toUnit_apply_context, Ty.toUnit, unitValue_var]
      exact unitPart_of_define (hSolution _ he)
    · obtain ⟨ρ', hExtends, hρ'⟩ := solvesUnits_unify hs hUnits hRun hρ
      exact ⟨ρ', hExtends, fun x d k he => hρ' _ he⟩
  · intro text hRun hRange
    rw [← State.outcome_runWith noteExponents [] s] at hRun
    exact not_solvesUnits_of_runWith hs hUnits hRun hRange

/-- A unit with the given exponents of variables and of primitive units. -/
def Measure.ofLists (vars prims : List (Name × Exponent)) : Measure :=
  ⟨.ofMap (.ofList vars), .ofMap (.ofList prims)⟩

/-- An equation that uses a definition and is solved below a marker. -/
def coupledState : State language :=
  ⟨.empty, ⟨[.intro "x" .unit, .define "z" (.mul (.pow (.var "x") 2) (.prim "m")) .unit,
    .bind "f" (.mono (.float (.var "z"))), .marker, .intro "y" .unit,
    .ofGoal (isOne (.ofLists [("y", 3), ("z", 2)] []))]⟩⟩

/-- An equation that asks a unit to be the square root of a primitive one. -/
def rootState : State language :=
  ⟨.empty, ⟨[.intro "x" .unit, .marker, .intro "y" .unit,
    .ofGoal (isOne (.ofLists [("x", 4), ("y", 6)] [("m", 1)]))]⟩⟩

/-- The first has one solution for every value of one new variable,
the second has none. -/
theorem unify_mostGeneral_upToUnits_coupled_root :
    (∃ t, coupledState.unify = .ok t ∧
      (t.context.apply (Measure.ofLists [("y", 3), ("z", 2)] []).toType).toUnit = 0 ∧
      ∀ ρ, SolvesUnits ρ coupledState.context.entries →
        ∃ v, ρ "x" = (-3 : Int) • v + (-2 : Int) • UnitGroup.prim "m") ∧
    rootState.unify = .error (.unitMismatch "b1^2 m") ∧
      ∀ ρ, ¬SolvesUnits ρ rootState.context.entries := by
  constructor
  · have hs : coupledState.WellFormed := by decide +kernel
    have hUnits : UnitsOnly coupledState.context.entries := by decide +kernel
    have hRun : coupledState.unify.map (fun t => definitions t.context.entries) =
        .ok [("x", .mul (.pow (.var "b0") (-3)) (.pow (.prim "m") (-2))),
          ("y", .mul (.pow (.var "b0") 1) (.pow (.var "x") (-1))),
          ("z", .mul (.pow (.var "x") 2) (.prim "m"))] := by
      apply State.map_unify_of_unifyWithin? (n := 20)
      decide +kernel
    obtain ⟨t, hUnify, hDefinitions⟩ := map_eq_ok.mp hRun
    obtain ⟨k, hDefine⟩ := mem_definitions.mp (hDefinitions ▸ List.mem_cons_self)
    obtain ⟨-, hEquations, -, hGeneral⟩ := (unify_mostGeneral_upToUnits hs hUnits).1 t hUnify
    refine ⟨t, hUnify, hEquations [] _ ?_, fun ρ hρ => ?_⟩
    · simp [coupledState, Entry.ofGoal, Constraint.ofGoal]
    · obtain ⟨η, hSame, hDefs⟩ := hGeneral ρ hρ
      have hx : η "x" = ρ "x" := by
        refine (hSame "x").resolve_right fun hFresh => ?_
        exact (hs.drawn "x" hFresh.1).1 (by decide)
      refine ⟨η "b0", ?_⟩
      rw [← hx, hDefs "x" _ k hDefine, Ty.toUnit, Ty.toUnit, Ty.toUnit, Ty.toUnit, Ty.toUnit,
        map_add, map_smul, map_smul, UnitGroup.subst_var, UnitGroup.subst_prim]
      rfl
  · have hRun : (rootState.runWithin? noteExponents 20 []).map
        (fun r => (r.outcome.map fun _ => (), decide (∀ n ∈ r.noted, Exponent.InRange n))) =
        some (.error (.unitMismatch "b1^2 m"), true) := by decide +kernel
    obtain ⟨⟨noted, outcome⟩, hEnds, hSeen⟩ := Option.map_eq_some_iff.mp hRun
    have hRunWith := State.runWith_of_runWithin? hEnds
    obtain ⟨hOutcome, hRange⟩ := Prod.mk.inj hSeen
    have hError : rootState.unify = .error (.unitMismatch "b1^2 m") := by
      rw [← State.outcome_runWith noteExponents [] rootState, hRunWith]
      cases outcome with
      | ok t => cases hOutcome
      | error e =>
          cases hOutcome
          rfl
    have hs : rootState.WellFormed := by decide +kernel
    have hUnits : UnitsOnly rootState.context.entries := by decide +kernel
    refine ⟨hError, (unify_mostGeneral_upToUnits hs hUnits).2 _ hError ?_⟩
    rw [exponentsOfRun, hRunWith]
    exact of_decide_eq_true hRange

end HindleyMilner.Units
