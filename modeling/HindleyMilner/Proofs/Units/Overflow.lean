import HindleyMilner.Proofs.Units.Determination
import HindleyMilner.Proofs.Units.KindSafety
import HindleyMilner.Proofs.Units.Solutions

/-! Why the solver fails where there is a solution. Equations of types compute exponents
too, when they are taken apart and when hulls are made. With these told as well, a step
from a state that has a solution fails only with a mismatch, and only if one of its
exponents does not fit. -/
namespace HindleyMilner.Units

open Context

def IsUnitMismatch (e : TypeError) : Prop := ∃ text, e = .unitMismatch text

theorem isUnitMismatch (text : String) : IsUnitMismatch (.unitMismatch text) := ⟨text, rfl⟩

namespace Reckoning

variable {α β : Type} {m : Reckoning α} {f : α → Reckoning β}

def Overflows (m : Reckoning α) : Prop := ∃ n ∈ m.exponents, ¬Exponent.InRange n

theorem overflows_iff : m.Overflows ↔ ¬m.Fits := by
  simp only [Overflows, Fits, not_forall, exists_prop]

/-- The computation fails only with a mismatch of units, and only where an
exponent does not fit. -/
def FailsByOverflow (m : Reckoning α) : Prop :=
  ∀ e, m.result = .error e → IsUnitMismatch e ∧ m.Overflows

namespace FailsByOverflow

theorem of_ok {a : α} (h : m.result = .ok a) : m.FailsByOverflow := by
  intro e he
  rw [h] at he
  cases he

/-- A computation fails by overflow if it fails only with mismatches and only
where an exponent does not fit. -/
theorem of_failsOnly (hFails : FailsOnly IsUnitMismatch m.result) (hOnly : m.OnlyOverflows) :
    m.FailsByOverflow :=
  fun e he => ⟨hFails e he, overflows_iff.mpr fun hFits => hOnly.not_error hFits e he⟩

/-- Computations that fail by overflow do so one after the other. The exponents
of the second are told only if the first has a result. -/
theorem bind (hm : m.FailsByOverflow) (hf : ∀ a, m.result = .ok a → (f a).FailsByOverflow) :
    (m >>= f).FailsByOverflow := by
  intro e he
  rw [result_bind] at he
  cases hResult : m.result with
  | ok a =>
      rw [hResult] at he
      obtain ⟨hMismatch, hOverflows⟩ := hf a hResult e he
      refine ⟨hMismatch, overflows_iff.mpr fun hFits => ?_⟩
      exact overflows_iff.mp hOverflows (hFits.bind hResult)
  | error err =>
      rw [hResult] at he
      cases he
      obtain ⟨hMismatch, hOverflows⟩ := hm e hResult
      exact ⟨hMismatch, overflows_iff.mpr fun hFits => overflows_iff.mp hOverflows hFits.of_bind⟩

end FailsByOverflow

end Reckoning

/-- The difference of units fails by overflow alone. -/
theorem Measure.reckonDifference_failsByOverflow (u v : Measure) :
    (u.reckonDifference v).FailsByOverflow := by
  refine .of_failsOnly ?_ (u.reckonDifference_onlyOverflows v)
  rw [result_reckonDifference]
  exact subtract_failsOnly isUnitMismatch u v

/-- So does the normal form of a unit, where the type is one. -/
theorem Ty.reckonMeasure_failsByOverflow {K : language.Scope} {t : Ty} (h : HasKind K t .unit) :
    t.reckonMeasure.FailsByOverflow := by
  refine .of_failsOnly ?_ (reckonMeasure_onlyOverflows h.isUnit)
  rw [result_reckonMeasure]
  exact toMeasure_failsOnly isUnitMismatch (.of_hasKind h)

def reckonGoals : Ty → Ty → Reckoning (List (Goal language))
  | .float u, .float v => do
      let u ← u.reckonMeasure
      let v ← v.reckonMeasure
      let quotient ← u.reckonDifference v
      pure [isOne quotient]
  | l, r => .ofExcept (decompose l r)

def reckonHoles : List (Name × Ty) → Reckoning (List (Goal language))
  | [] => pure []
  | (h, type) :: holes => do
      let unit ← type.reckonMeasure
      let quotient ← (Measure.var h).reckonDifference unit
      let goals ← reckonHoles holes
      pure (isOne quotient :: goals)

def reckonHull (f : Focus language) (deps : language.Telescope) (eq : FlexRigid language) :
    Reckoning (State language) := do
  let hull ← .ofExcept (eq.rigid.hull f.supply)
  let goals ← reckonHoles hull.holes
  pure (Focus.resume { f with supply := hull.supply }
    (.constraint ⟨deps ++ hull.vars, .special (.hull eq.name hull.shape)⟩ :: goals.map .ofGoal))

def reckonEquation (f : Focus language) (deps : language.Telescope) (l r : Ty) :
    Reckoning (State language) :=
  match l.asVar?, r.asVar? with
  | some x, none => reckonHull f deps ⟨x, l, r⟩
  | none, some x => reckonHull f deps ⟨x, r, l⟩
  | some _, some _ => .ofExcept (f.solveEq deps l r)
  | none, none => do
      let goals ← reckonGoals l r
      pure ((f.lower deps).resume (goals.map .ofGoal))

/-- One step at the first constraint, whatever that is. -/
def reckonAny (s : State language) : Reckoning (State language) :=
  match s.focus? with
  | some (⟨deps, .eq l r⟩, f) => reckonEquation f deps l r
  | _ => reckonStep s

/-- Telling exponents changes nothing about how types are taken apart. -/
theorem result_reckonGoals (l r : Ty) : (reckonGoals l r).result = decompose l r := by
  unfold reckonGoals
  split
  · simp only [Reckoning.result_bind, Ty.result_reckonMeasure, Measure.result_reckonDifference]
    rfl
  · rfl

theorem result_reckonHoles (holes : List (Name × Ty)) :
    (reckonHoles holes).result = holeGoals holes := by
  induction holes with
  | nil => rfl
  | cons p holes ih =>
      simp only [reckonHoles, Reckoning.result_bind, Ty.result_reckonMeasure,
        Measure.result_reckonDifference, ih]
      rfl

theorem result_reckonHull (f : Focus language) (deps : language.Telescope)
    (eq : FlexRigid language) : (reckonHull f deps eq).result = f.flexRigid deps eq := by
  simp only [reckonHull, Reckoning.result_bind, Reckoning.result_ofExcept, result_reckonHoles,
    Focus.flexRigid, Rules.flexRigid, equateHull]
  cases eq.rigid.hull f.supply with
  | error e => rfl
  | ok hull =>
      cases hGoals : holeGoals hull.holes with
      | error e => simp only [bind, Except.bind, hGoals]
      | ok goals =>
          simp only [bind, Except.bind, hGoals, List.map_cons, List.map_map]
          rfl

theorem result_reckonEquation (f : Focus language) (deps : language.Telescope) (l r : Ty) :
    (reckonEquation f deps l r).result = f.solveEq deps l r := by
  cases hl : l.asVar? with
  | some x =>
      cases hr : r.asVar? with
      | some y => simp only [reckonEquation, hl, hr, Reckoning.result_ofExcept]
      | none => simp only [reckonEquation, hl, hr, result_reckonHull, Focus.solveEq]
  | none =>
      cases hr : r.asVar? with
      | some y => simp only [reckonEquation, hl, hr, result_reckonHull, Focus.solveEq]
      | none =>
          simp only [reckonEquation, hl, hr, Reckoning.result_bind, result_reckonGoals,
            Focus.solveEq]
          rfl

/-- Telling exponents changes nothing about a step. -/
theorem result_reckonAny (s : State language) : (reckonAny s).result = s.step := by
  rw [reckonAny]
  cases hFocus : s.focus? with
  | none => exact result_reckonStep s
  | some first =>
      obtain ⟨⟨deps, goal⟩, f⟩ := first
      cases goal with
      | eq l r =>
          rw [State.step, hFocus]
          exact result_reckonEquation f deps l r
      | special g => exact result_reckonStep s

/-- Types with one value have the same form, so taking them apart
fails by overflow alone. -/
theorem reckonGoals_failsByOverflow {K : language.Scope} {l r : Ty} (hl : HasKind K l .value)
    (hr : HasKind K r .value) (hLeft : l.asVar? = none) (hRight : r.asVar? = none)
    {θ : model.Valuation} (hθ : model.eval θ .value l = model.eval θ .value r) :
    (reckonGoals l r).FailsByOverflow := by
  cases hl with
  | var hx => cases hLeft
  | arrow ha hb =>
      cases hr with
      | var hx => cases hRight
      | arrow hc hd => exact .of_ok rfl
      | float hv => cases (show ValueTy.arrow _ _ = ValueTy.float _ from hθ)
  | float hu =>
      cases hr with
      | var hx => cases hRight
      | arrow hc hd => cases (show ValueTy.float _ = ValueTy.arrow _ _ from hθ)
      | float hv =>
          apply (Ty.reckonMeasure_failsByOverflow hu).bind
          intro m _
          apply (Ty.reckonMeasure_failsByOverflow hv).bind
          intro n _
          exact (m.reckonDifference_failsByOverflow n).bind fun quotient _ => .of_ok rfl

theorem reckonHoles_failsByOverflow {K : language.Scope} {holes : List (Name × Ty)}
    (h : ∀ p ∈ holes, HasKind K p.2 .unit) : (reckonHoles holes).FailsByOverflow := by
  induction holes with
  | nil => exact .of_ok rfl
  | cons p holes ih =>
      obtain ⟨hHead, hRest⟩ := List.forall_mem_cons.mp h
      apply (Ty.reckonMeasure_failsByOverflow hHead).bind
      intro unit _
      apply ((Measure.var p.1).reckonDifference_failsByOverflow unit).bind
      intro quotient _
      exact (ih hRest).bind fun goals _ => .of_ok rfl

theorem exists_hull {K : language.Scope} {t : Ty} (h : HasKind K t .value) (supply : Supply) :
    ∃ hull, t.hull supply = .ok hull := by
  have hFails : FailsOnly (fun _ => False) (t.hull supply) :=
    Ty.hull_failsOnly supply (.of_hasKind h)
  cases hHull : t.hull supply with
  | ok hull => exact ⟨hull, rfl⟩
  | error e => exact (hFails e hHull).elim

/-- So does equating a variable with a hull, as there is one. -/
theorem reckonHull_failsByOverflow (f : Focus language) (deps : language.Telescope)
    {eq : FlexRigid language} {K : language.Scope} (h : HasKind K eq.rigid .value) :
    (reckonHull f deps eq).FailsByOverflow := by
  obtain ⟨hull, hHull⟩ := exists_hull h f.supply
  apply Reckoning.FailsByOverflow.bind (.of_ok hHull)
  intro hull hHull
  exact (reckonHoles_failsByOverflow (hull_kinds hHull h).1).bind fun goals _ => .of_ok rfl

/-- A step of an equation with a solution fails by overflow alone, where it does
not blame the context. -/
theorem reckonEquation_failsByOverflow {f : Focus language} {deps : language.Telescope} {l r : Ty}
    {K : language.Scope} (hl : HasKind K l .value) (hr : HasKind K r .value) {θ : model.Valuation}
    (hθ : model.eval θ .value l = model.eval θ .value r)
    (hFaultless : Faultless (f.solveEq deps l r)) :
    (reckonEquation f deps l r).FailsByOverflow := by
  cases hLeft : l.asVar? with
  | some x =>
      cases hRight : r.asVar? with
      | some y =>
          -- Two variables are equated without exponents, and fail only out of order.
          intro e he
          rw [result_reckonEquation] at he
          have hInternal := hFaultless e he
          simp only [Focus.solveEq, hLeft, hRight] at he
          split at he
          · cases he
          · have hFault : FailsOnly (fun e => e.isInternal = true)
                ((f.lower deps).meetVars x y l r) :=
              Focus.meetVars_failsOnly (L := language) (fun _ => rfl) x y l r
            exact absurd (hFault e he) (ne_true_of_eq_false hInternal)
      | none =>
          simp only [reckonEquation, hLeft, hRight]
          exact reckonHull_failsByOverflow f deps hr
  | none =>
      cases hRight : r.asVar? with
      | some y =>
          simp only [reckonEquation, hLeft, hRight]
          exact reckonHull_failsByOverflow f deps hl
      | none =>
          simp only [reckonEquation, hLeft, hRight]
          apply (reckonGoals_failsByOverflow hl hr hLeft hRight hθ).bind
          exact fun goals _ => .of_ok rfl

/-- The variables of a unit are unit variables, also those that cancel. -/
theorem HasKind.unit_of_mem {K : language.Scope} {u : Ty} (h : HasKind K u .unit) :
    ∀ x ∈ u.freeVars, K x .unit := by
  induction u with
  | var y =>
      cases h with
      | var hy =>
          intro x hx
          rw [List.mem_singleton.mp hx]
          exact hy
  | mul a b iha ihb =>
      cases h with
      | mul ha hb => exact fun x hx => (List.mem_append.mp hx).elim (iha ha x) (ihb hb x)
  | pow a e ih =>
      cases h with
      | pow ha => exact ih ha
  | arrow a b => cases h
  | float v => cases h
  | _ => exact List.forall_mem_nil _

/-- How deep the arrows of a value nest. -/
def ValueTy.height : ValueTy → Nat
  | var _ => 0
  | arrow a b => max a.height b.height + 1
  | float _ => 0

/-- A value variable that occurs in a type has no value higher than that of the
type. Units have no height, so only arrows have to be looked at. -/
theorem height_le_of_mem {K : language.Scope} {t : Ty} (h : HasKind K t .value) {x : Name}
    (hx : ∀ k, K x k → k = .value) (hOccurs : x ∈ t.freeVars) (θ : model.Valuation) :
    ValueTy.height (θ x .value) ≤ ValueTy.height (model.eval θ .value t) := by
  induction t with
  | var y =>
      rw [List.mem_singleton.mp hOccurs]
      exact Nat.le_refl _
  | arrow a b iha ihb =>
      cases h with
      | arrow ha hb =>
          change _ ≤ max (ValueTy.height (model.eval θ .value a))
            (ValueTy.height (model.eval θ .value b)) + 1
          rcases List.mem_append.mp hOccurs with hMem | hMem
          · have := iha ha hMem
            omega
          · have := ihb hb hMem
            omega
  | float u =>
      cases h with
      | float hu => cases hx _ (hu.unit_of_mem x hOccurs)
  | _ => cases h

/-- A variable is never equal to a larger type that it occurs in, because the
value of that type would be higher than its own. -/
theorem not_mem_of_solves {K : language.Scope} {t : Ty} (h : HasKind K t .value) {x : Name}
    (hx : ∀ k, K x k → k = .value) (hRigid : t.asVar? = none) {θ : model.Valuation}
    (hθ : θ x .value = model.eval θ .value t) : x ∉ t.freeVars := by
  intro hOccurs
  have hHeight := congrArg ValueTy.height hθ
  cases h with
  | var hy => cases hRigid
  | @arrow a b ha hb =>
      change _ = max (ValueTy.height (model.eval θ .value a))
        (ValueTy.height (model.eval θ .value b)) + 1 at hHeight
      rcases List.mem_append.mp hOccurs with hMem | hMem
      · have := height_le_of_mem ha hx hMem θ
        omega
      · have := height_le_of_mem hb hx hMem θ
        omega
  | float hu => cases hx _ (hu.unit_of_mem x hOccurs)

/-- An equation with a hull and a solution goes down without failure: its
variable is declared below it and does not occur in the hull. -/
theorem not_walk_error {f : Focus language} {deps : language.Telescope} {x : Name} {shape : Ty}
    (hBelow : Settled f.below.reverse)
    (hs : Ready (f.resume [.constraint ⟨deps, .special (UnitGoal.hull x shape)⟩]))
    {θ : model.Valuation} (hθ : θ x .value = model.eval θ .value shape) (e : TypeError) :
    f.walk (.special (UnitGoal.hull x shape)) deps ⟨x, .var x, shape⟩ ≠ .error e := by
  obtain ⟨⟨⟨_, rfl, hVar, hShape⟩, -⟩, hNodup⟩ := hs.good.wellFormed.segment
  rw [show declared [.constraint ⟨deps, .special (UnitGoal.hull x shape)⟩] = deps from
    List.append_nil deps] at hNodup
  have hMem : Entry.constraint ⟨deps, .special (UnitGoal.hull x shape)⟩ ∈
      (f.resume [.constraint ⟨deps, .special (UnitGoal.hull x shape)⟩]).context.entries :=
    List.mem_append_right _ List.mem_cons_self
  cases hVar with
  | var hx =>
      intro h
      have hDeclared : (x, Kind.value) ∈ declared f.below.reverse := by
        refine (List.mem_append.mp hx).resolve_right fun hCarried => ?_
        exact hs.poised _ hMem _ hCarried rfl
      obtain ⟨hOccurs, -⟩ := Focus.occurs_of_walk_error hBelow
        (List.mem_map_of_mem (f := Prod.fst) hDeclared) h
      refine not_mem_of_solves hShape ?_ (hs.hollow _ hMem).2 hθ hOccurs
      exact fun k hk => Name.eq_of_nodup hNodup hk hx

/-- A step of a unit equation with a solution fails by overflow alone. Otherwise
it would have come to a constant, or to one variable whose exponent does not
divide the others, and neither has a solution. -/
theorem reckonUnit_failsByOverflow {f : Focus language} {deps : language.Telescope}
    {unit : Measure} (hs : kinding.Good (f.resume [.constraint ⟨deps, isOne unit⟩]))
    {θ : model.Valuation} (hθ : unitValue θ unit.toUnit = 0)
    (hFaultless : Faultless (solveUnit f deps unit)) :
    (reckonUnit f deps unit).FailsByOverflow := by
  have hFails : FailsOnly (fun e => IsUnitMismatch e ∨ e.isInternal = true)
      (solveUnit f deps unit) :=
    solveUnit_failsOnly (fun text => .inl ⟨text, rfl⟩) (fun _ _ _ => .inr rfl)
      (fun _ _ _ _ => .inr rfl) fun _ _ _ _ hTop hx => .inr (define_kind hs.unbound hTop hx)
  have hUnits : ∀ x type kind below, f.below = .define x type kind :: below →
      unit.exponent x ≠ 0 → type.isUnit = true := by
    intro x type kind below hTop hx
    obtain ⟨K, hKind⟩ := define_kind hs.unbound hTop hx
    exact hKind.isUnit
  intro e he
  rw [result_reckonUnit] at he
  obtain ⟨text, rfl⟩ := (hFails e he).resolve_right (ne_true_of_eq_false (hFaultless e he))
  refine ⟨⟨text, rfl⟩, Reckoning.overflows_iff.mpr fun hFits => ?_⟩
  rcases solveUnit_mismatch hUnits hFits he with ⟨hConstant, hIdentity⟩ | ⟨x, hStuck⟩
  · exact not_solves_of_constant hConstant hIdentity _ hθ
  · exact not_solves_of_stuck hStuck _ hθ

/-- A step from a state with a solution fails only with a mismatch of units, and
only if an exponent that it computes does not fit. -/
theorem reckonAny_failsByOverflow {s : State language} (hs : Ready s) {θ : model.Valuation}
    (hθ : Fulfils θ s.context.entries) : (reckonAny s).FailsByOverflow := by
  have hFaultless := step_faultless (good_scoping hs.good) hs.poised
  rw [State.step] at hFaultless
  rw [reckonAny]
  cases hFocus : s.focus? with
  | none =>
      simp only [reckonStep, State.step, hFocus]
      exact .of_ok rfl
  | some found =>
      obtain ⟨⟨deps, goal⟩, f⟩ := found
      rw [hFocus] at hFaultless
      obtain ⟨rfl, hBelow⟩ := State.eq_of_focus? hFocus
      have hGoal : model.Solves θ goal := hθ (.constraint ⟨deps, goal⟩)
        (List.mem_append_right _ List.mem_cons_self)
      cases goal with
      | eq l r =>
          obtain ⟨⟨_, rfl, hl, hr⟩, -⟩ := hs.good.wellFormed.segment.1
          exact reckonEquation_failsByOverflow hl hr hGoal hFaultless
      | special g =>
          cases g with
          | identity unit =>
              simp only [reckonStep, hFocus]
              exact reckonUnit_failsByOverflow hs.good hGoal hFaultless
          | hull x shape =>
              simp only [reckonStep, State.step, hFocus]
              exact fun e he => absurd he (not_walk_error hBelow hs hGoal e)

end HindleyMilner.Units
