import HindleyMilner.Proofs.Synthesis
import HindleyMilner.Units.Termination

/-! The exponents that the solver computes. Unit equations are worked on with exact
exponents, and an operation fails when one of them does not fit. Here the operations
tell the exact exponents they compute. Where all of these fit, a step on a unit equation
fails only at an equation that has no solution. -/
namespace HindleyMilner.Units

/-- Whether an exact exponent fits. -/
def Exponent.InRange (n : Int) : Prop := Int32.minValue.toInt ≤ n ∧ n ≤ Int32.maxValue.toInt

instance : DecidablePred Exponent.InRange := fun _ => inferInstanceAs (Decidable (_ ∧ _))

/-- A number that fits is an exponent. -/
theorem Exponent.ofInt?_of_inRange {n : Int} (h : InRange n) : ofInt? n = some (Int32.ofInt n) :=
  if_pos h

/-- A result, with the exact exponents that were computed on the way. -/
structure Reckoning (α : Type) where
  exponents : List Int
  result : Except TypeError α

namespace Reckoning

variable {α β : Type}

/-- Go on with a result, or stop at a failure. -/
def bind (m : Reckoning α) (f : α → Reckoning β) : Reckoning β :=
  match m.result with
  | .ok a => ⟨m.exponents ++ (f a).exponents, (f a).result⟩
  | .error e => ⟨m.exponents, .error e⟩

instance : Monad Reckoning where
  pure a := ⟨[], .ok a⟩
  bind := bind

def ofExcept (r : Except TypeError α) : Reckoning α := ⟨[], r⟩

@[simp]
theorem result_pure (a : α) : (pure a : Reckoning α).result = .ok a := rfl

@[simp]
theorem result_ofExcept (r : Except TypeError α) : (ofExcept r).result = r := rfl

/-- What is computed does not depend on the exponents that are told. -/
@[simp]
theorem result_bind (m : Reckoning α) (f : α → Reckoning β) :
    (m >>= f).result = m.result >>= fun a => (f a).result := by
  show (m.bind f).result = _
  unfold bind
  cases m.result <;> rfl

def Fits (m : Reckoning α) : Prop := ∀ n ∈ m.exponents, Exponent.InRange n

/-- If all exponents of a computation fit, then so do those of its first part. -/
theorem Fits.of_bind {m : Reckoning α} {f : α → Reckoning β} (h : (m >>= f).Fits) : m.Fits := by
  intro n hn
  apply h n
  show n ∈ (m.bind f).exponents
  unfold bind
  cases m.result with
  | ok a => exact List.mem_append_left _ hn
  | error e => exact hn

/-- So do those of its second part, if the first has a result. -/
theorem Fits.bind {m : Reckoning α} {f : α → Reckoning β} (h : (m >>= f).Fits) {a : α}
    (ha : m.result = .ok a) : (f a).Fits := by
  intro n hn
  apply h n
  show n ∈ (m.bind f).exponents
  simp only [Reckoning.bind, ha]
  exact List.mem_append_right _ hn

/-- The computation fails only where an exponent does not fit. -/
def OnlyOverflows (m : Reckoning α) : Prop := m.Fits → ∃ a, m.result = .ok a

theorem OnlyOverflows.pure (a : α) : (pure a : Reckoning α).OnlyOverflows := fun _ => ⟨a, rfl⟩

/-- Computations that fail only where an exponent does not fit do so
one after the other. -/
theorem OnlyOverflows.bind {m : Reckoning α} {f : α → Reckoning β} (hm : m.OnlyOverflows)
    (hf : ∀ a, m.result = .ok a → (f a).OnlyOverflows) : (m >>= f).OnlyOverflows := by
  intro h
  obtain ⟨a, ha⟩ := hm h.of_bind
  obtain ⟨b, hb⟩ := hf a ha (h.bind ha)
  refine ⟨b, ?_⟩
  rw [result_bind, ha]
  exact hb

/-- Where all exponents fit, such a computation does not fail. -/
theorem OnlyOverflows.not_error {m : Reckoning α} (hm : m.OnlyOverflows) (h : m.Fits)
    (e : TypeError) : m.result ≠ .error e := by
  intro hError
  obtain ⟨a, ha⟩ := hm h
  rw [hError] at ha
  cases ha

end Reckoning

namespace Exponents

/-- The exact values that a function gives to exponents. -/
def images (f : Int → Int) (a : Exponents) : List Int := a.toList.map fun p => f p.2.toInt

def sums (a b : Exponents) : List Int :=
  (a.names ++ b.names).map fun x => (a.get x).toInt + (b.get x).toInt

/-- The exact exponents fit, so the operation succeeds. -/
theorem exists_map? {f : Exponent → Option Exponent} {g : Int → Int}
    (hf : ∀ e, f e = Exponent.ofInt? (g e.toInt)) {a : Exponents}
    (h : ∀ n ∈ a.images g, Exponent.InRange n) : ∃ b, a.map? f = some b := by
  apply exists_merge?
  intro p hp
  have hFits := h _ (List.mem_map_of_mem hp)
  rw [hf, Exponent.ofInt?_of_inRange hFits]
  rfl

/-- The exact sums fit, so the exponents can be added. -/
theorem exists_add? {a b : Exponents} (h : ∀ n ∈ a.sums b, Exponent.InRange n) :
    ∃ c, a.add? b = some c := by
  apply exists_merge?
  intro p hp
  have hName : p.1 ∈ a.names ++ b.names := by
    apply List.mem_append_right
    rw [← map_fst_toList]
    exact List.mem_map_of_mem hp
  have hFits := h _ (List.mem_map_of_mem hName)
  rw [(mem_toList.mp hp).1] at hFits
  rw [Exponent.add?, Exponent.ofInt?_of_inRange hFits]
  rfl

end Exponents

namespace Measure

def reckonProduct (u v : Measure) : Reckoning Measure :=
  ⟨u.vars.sums v.vars ++ u.prims.sums v.prims, u.add v⟩

def reckonPower (u : Measure) (n : Exponent) : Reckoning Measure :=
  ⟨u.vars.images (· * n.toInt) ++ u.prims.images (· * n.toInt), u.scale n⟩

def reckonQuotient (u : Measure) (d : Exponent) : Reckoning Measure :=
  ⟨u.vars.images (·.tdiv d.toInt) ++ u.prims.images (·.tdiv d.toInt), u.divide d⟩

def reckonDifference (u v : Measure) : Reckoning Measure := do
  let inverse ← v.reckonPower (-1)
  u.reckonProduct inverse

def reckonPivot (u : Measure) (x : Name) : Reckoning Measure :=
  let e := u.exponent x
  if e = 0 then pure identity
  else do
    let power ← (var x).reckonPower e
    let rest ← u.reckonDifference power
    let quotient ← rest.reckonQuotient e
    quotient.reckonPower (-1)

def reckonSubstitute (u : Measure) (x : Name) (v : Measure) : Reckoning Measure := do
  let difference ← v.reckonDifference (var x)
  let change ← difference.reckonPower (u.exponent x)
  change.reckonProduct u

/-- Telling exponents changes nothing about a difference. -/
@[simp]
theorem result_reckonDifference (u v : Measure) :
    (u.reckonDifference v).result = u.subtract v := by
  rw [reckonDifference, Reckoning.result_bind]
  rfl

@[simp]
theorem result_reckonPivot (u : Measure) (x : Name) : (u.reckonPivot x).result = u.pivot x := by
  simp only [reckonPivot, pivot]
  split
  · rfl
  · simp only [Reckoning.result_bind, result_reckonDifference]
    rfl

@[simp]
theorem result_reckonSubstitute (u : Measure) (x : Name) (v : Measure) :
    (u.reckonSubstitute x v).result = u.substitute x v := by
  simp only [reckonSubstitute, Reckoning.result_bind, result_reckonDifference]
  rfl

/-- A product fails only where the exact sum of two exponents does not fit. -/
theorem reckonProduct_onlyOverflows (u v : Measure) : (u.reckonProduct v).OnlyOverflows := by
  intro h
  obtain ⟨vars, hVars⟩ := Exponents.exists_add? fun n hn => h n (List.mem_append_left _ hn)
  obtain ⟨prims, hPrims⟩ := Exponents.exists_add? fun n hn => h n (List.mem_append_right _ hn)
  refine ⟨⟨vars, prims⟩, ?_⟩
  rw [reckonProduct, add, hVars, hPrims]
  rfl

/-- An operation on exponents that computes an exact function succeeds where
the exact values fit. -/
theorem exists_mapExponents {f : Exponent → Option Exponent} {g : Int → Int}
    (hf : ∀ e, f e = Exponent.ofInt? (g e.toInt)) {u : Measure}
    (h : ∀ n ∈ u.vars.images g ++ u.prims.images g, Exponent.InRange n) :
    ∃ w, u.mapExponents f = .ok w := by
  obtain ⟨vars, hVars⟩ := Exponents.exists_map? hf fun n hn => h n (List.mem_append_left _ hn)
  obtain ⟨prims, hPrims⟩ := Exponents.exists_map? hf fun n hn => h n (List.mem_append_right _ hn)
  refine ⟨⟨vars, prims⟩, ?_⟩
  rw [mapExponents, hVars, hPrims]
  rfl

/-- A power fails only where an exact product does not fit. -/
theorem reckonPower_onlyOverflows (u : Measure) (n : Exponent) :
    (u.reckonPower n).OnlyOverflows :=
  fun h => exists_mapExponents (fun _ => rfl) h

/-- A root by a number other than zero fails only where an exact
quotient does not fit. -/
theorem reckonQuotient_onlyOverflows (u : Measure) {d : Exponent} (hd : d ≠ 0) :
    (u.reckonQuotient d).OnlyOverflows :=
  fun h => exists_mapExponents (fun _ => if_neg hd) h

theorem reckonDifference_onlyOverflows (u v : Measure) : (u.reckonDifference v).OnlyOverflows :=
  (v.reckonPower_onlyOverflows _).bind fun inverse _ => u.reckonProduct_onlyOverflows inverse

/-- The quotient that a variable is solved by is the inverse of a root, so it
fails only where an exponent of these does not fit. -/
theorem reckonPivot_onlyOverflows (u : Measure) (x : Name) : (u.reckonPivot x).OnlyOverflows := by
  simp only [reckonPivot]
  by_cases hExponent : u.exponent x = 0
  · rw [if_pos hExponent]
    exact .pure identity
  · rw [if_neg hExponent]
    apply (reckonPower_onlyOverflows _ _).bind
    intro power _
    apply (reckonDifference_onlyOverflows _ _).bind
    intro rest _
    apply (rest.reckonQuotient_onlyOverflows hExponent).bind
    exact fun quotient _ => quotient.reckonPower_onlyOverflows _

/-- A substitution fails only where an exponent of its three parts does not fit. -/
theorem reckonSubstitute_onlyOverflows (u : Measure) (x : Name) (v : Measure) :
    (u.reckonSubstitute x v).OnlyOverflows := by
  apply (reckonDifference_onlyOverflows _ _).bind
  intro difference _
  apply (reckonPower_onlyOverflows _ _).bind
  exact fun change _ => change.reckonProduct_onlyOverflows u

end Measure

namespace Ty

/-- Whether a type has the form of a unit. -/
def isUnit : Ty → Bool
  | var _ => true
  | one => true
  | prim _ => true
  | mul a b => a.isUnit && b.isUnit
  | pow a _ => a.isUnit
  | arrow .. => false
  | float _ => false

def reckonMeasure : Ty → Reckoning Measure
  | mul a b => do
      let u ← a.reckonMeasure
      let v ← b.reckonMeasure
      u.reckonProduct v
  | pow a e => do
      let u ← a.reckonMeasure
      u.reckonPower e
  | t => .ofExcept t.toMeasure

/-- Telling exponents changes nothing about the normal form of a unit. -/
@[simp]
theorem result_reckonMeasure (t : Ty) : t.reckonMeasure.result = t.toMeasure := by
  induction t with
  | mul a b iha ihb =>
      simp only [reckonMeasure, Reckoning.result_bind, iha, ihb]
      rfl
  | pow a e ih =>
      simp only [reckonMeasure, Reckoning.result_bind, ih]
      rfl
  | _ => rfl

/-- The normal form of what is made of units fails only where an
exponent does not fit. -/
theorem reckonMeasure_onlyOverflows {t : Ty} (h : t.isUnit = true) :
    t.reckonMeasure.OnlyOverflows := by
  induction t with
  | mul a b iha ihb =>
      obtain ⟨ha, hb⟩ := Bool.and_eq_true_iff.mp h
      apply (iha ha).bind
      intro u _
      apply (ihb hb).bind
      exact fun v _ => u.reckonProduct_onlyOverflows v
  | pow a e ih => exact (ih h).bind fun u _ => u.reckonPower_onlyOverflows e
  | arrow a b => cases h
  | float u => cases h
  | _ => exact fun _ => ⟨_, rfl⟩

end Ty

def reckonElimination (f : Focus language) (deps : language.Telescope) (unit : Measure) (x : Name)
    (kind : Kind) : Reckoning (State language) :=
  if unit.divisibleBy (unit.exponent x) then do
    let solution ← unit.reckonPivot x
    pure (f.resume (deps.intros ++ [.define x solution.toType kind]))
  else if unit.hasRival x then do
    let drawn := f.supply.draw "b"
    let quotient ← unit.reckonPivot x
    let solution ← quotient.reckonProduct (.var drawn.1)
    let reduced ← unit.reckonSubstitute x solution
    let f : Focus language := { f with supply := drawn.2 }
    pure (f.resume (.intro drawn.1 .unit :: deps.intros
      ++ [.ofGoal (isOne reduced), .define x solution.toType kind]))
  else .ofExcept (eliminate f deps unit x kind)

def reckonUnit (f : Focus language) (deps : language.Telescope) (unit : Measure) :
    Reckoning (State language) :=
  if unit.isConstant then .ofExcept (solveUnit f deps unit)
  else match f.below with
  | .define x type kind :: below =>
      if unit.exponent x = 0 then .ofExcept (solveUnit f deps unit)
      else do
        let value ← type.reckonMeasure
        let unit ← unit.reckonSubstitute x value
        pure (Focus.resume { f with below }
          (deps.intros ++ [.ofGoal (isOne unit), .define x type kind]))
  | .intro x kind :: below =>
      if unit.exponent x = 0 then .ofExcept (solveUnit f deps unit)
      else reckonElimination { f with below } deps unit x kind
  | _ => .ofExcept (solveUnit f deps unit)

/-- One step at the first constraint. Exponents are told if that is a unit
equation. -/
def reckonStep (s : State language) : Reckoning (State language) :=
  match s.focus? with
  | some (⟨deps, .special (.identity unit)⟩, f) => reckonUnit f deps unit
  | _ => .ofExcept s.step

theorem result_reckonElimination (f : Focus language) (deps : language.Telescope) (unit : Measure)
    (x : Name) (kind : Kind) :
    (reckonElimination f deps unit x kind).result = eliminate f deps unit x kind := by
  rw [reckonElimination, eliminate]
  split
  · simp only [Reckoning.result_bind, Measure.result_reckonPivot]
    rfl
  · split
    · simp only [Reckoning.result_bind, Measure.result_reckonPivot,
        Measure.result_reckonSubstitute]
      rfl
    · rfl

theorem not_identity_of_not_constant {unit : Measure} (h : ¬unit.isConstant = true) :
    ¬unit.isIdentity = true := fun hIdentity => h (Bool.and_eq_true_iff.mp hIdentity).1

theorem result_reckonUnit (f : Focus language) (deps : language.Telescope) (unit : Measure) :
    (reckonUnit f deps unit).result = solveUnit f deps unit := by
  rw [reckonUnit]
  by_cases hConstant : unit.isConstant = true
  · rw [if_pos hConstant]
    rfl
  · rw [if_neg hConstant]
    obtain ⟨supply, below, above⟩ := f
    have hIdentity := not_identity_of_not_constant hConstant
    cases below with
    | nil => rfl
    | cons top below =>
        cases top with
        | define x type kind =>
            simp only
            by_cases hx : unit.exponent x = 0
            · rw [if_pos hx]
              rfl
            · rw [if_neg hx]
              simp only [Reckoning.result_bind, Ty.result_reckonMeasure,
                Measure.result_reckonSubstitute, solveUnit, if_neg hIdentity, if_neg hConstant,
                Focus.pop]
              exact (if_neg hx).symm
        | intro x kind =>
            simp only
            by_cases hx : unit.exponent x = 0
            · rw [if_pos hx]
              rfl
            · rw [if_neg hx]
              simp only [result_reckonElimination, solveUnit, if_neg hIdentity, if_neg hConstant,
                Focus.pop]
              exact (if_neg hx).symm
        | _ => rfl

/-- Telling exponents changes nothing about a step, so what is proved of the
exponents is proved of the solver. -/
theorem result_reckonStep (s : State language) : (reckonStep s).result = s.step := by
  rw [reckonStep]
  cases hFocus : s.focus? with
  | none => rfl
  | some first =>
      obtain ⟨⟨deps, goal⟩, f⟩ := first
      cases goal with
      | eq l r => rfl
      | special g =>
          cases g with
          | hull x shape => rfl
          | identity unit =>
              rw [State.step, hFocus]
              exact result_reckonUnit f deps unit

def noteExponents (s : State language) (exponents : List Int) : List Int :=
  (reckonStep s).exponents ++ exponents

/-- The exact exponents that a run of the solver computes on unit equations. -/
def exponentsOfRun (s : State language) : List Int := (s.runWith noteExponents []).noted

/-- A variable that is alone in its equation, with an exponent that does
not divide the others. -/
structure Stuck (unit : Measure) (x : Name) : Prop where
  occurs : unit.exponent x ≠ 0
  not_divisible : unit.divisibleBy (unit.exponent x) = false
  alone : unit.varCount ≤ 1

/-- An elimination all of whose exponents fit fails only at a variable that is
alone and whose exponent does not divide the others. -/
theorem stuck_of_elimination_error {f : Focus language} {deps : language.Telescope}
    {unit : Measure} {x : Name} {kind : Kind} {e : TypeError} (hx : unit.exponent x ≠ 0)
    (hFits : (reckonElimination f deps unit x kind).Fits)
    (h : eliminate f deps unit x kind = .error e) : Stuck unit x := by
  rw [← result_reckonElimination] at h
  rw [reckonElimination] at h hFits
  by_cases hDivides : unit.divisibleBy (unit.exponent x) = true
  · rw [if_pos hDivides] at h hFits
    refine absurd h (Reckoning.OnlyOverflows.not_error ?_ hFits e)
    exact (Measure.reckonPivot_onlyOverflows _ _).bind fun solution _ => .pure _
  · rw [if_neg hDivides] at h hFits
    by_cases hRival : unit.hasRival x = true
    · rw [if_pos hRival] at h hFits
      refine absurd h (Reckoning.OnlyOverflows.not_error ?_ hFits e)
      apply (Measure.reckonPivot_onlyOverflows _ _).bind
      intro quotient _
      apply (Measure.reckonProduct_onlyOverflows _ _).bind
      intro solution _
      exact (Measure.reckonSubstitute_onlyOverflows _ _ _).bind fun reduced _ => .pure _
    · rw [if_neg hRival, Reckoning.result_ofExcept, eliminate, if_neg hDivides,
        if_neg hRival] at h
      by_cases hCount : 1 < unit.varCount
      · rw [if_pos hCount] at h
        cases h
      · exact ⟨hx, by simpa using hDivides, by omega⟩

/-- A unit equation whose variables are defined as units and all of whose
exponents fit fails with a mismatch if it is constant and not
dimensionless or if it is stuck. -/
theorem solveUnit_mismatch {f : Focus language} {deps : language.Telescope} {unit : Measure}
    {text : String} (hUnits : ∀ x type kind below, f.below = .define x type kind :: below →
      unit.exponent x ≠ 0 → type.isUnit = true)
    (hFits : (reckonUnit f deps unit).Fits)
    (h : solveUnit f deps unit = .error (.unitMismatch text)) :
    (unit.isConstant = true ∧ unit.isIdentity = false) ∨ ∃ x, Stuck unit x := by
  obtain ⟨supply, below, above⟩ := f
  by_cases hConstant : unit.isConstant = true
  · left
    refine ⟨hConstant, ?_⟩
    cases hIdentity : unit.isIdentity with
    | false => rfl
    | true =>
        rw [solveUnit, if_pos hIdentity] at h
        cases h
  · right
    have hIdentity := not_identity_of_not_constant hConstant
    simp only [solveUnit, if_neg hIdentity, if_neg hConstant] at h
    rw [reckonUnit, if_neg hConstant] at hFits
    cases below with
    | nil => cases h
    | cons top below =>
        cases top with
        | define x type kind =>
            change (if unit.exponent x = 0 then _ else _) = _ at h
            by_cases hx : unit.exponent x = 0
            · rw [if_pos hx] at h
              cases h
            · rw [if_neg hx] at h
              simp only [if_neg hx] at hFits
              refine absurd ?_ (Reckoning.OnlyOverflows.not_error ?_ hFits (.unitMismatch text))
              · simp only [Reckoning.result_bind, Ty.result_reckonMeasure,
                  Measure.result_reckonSubstitute]
                exact h
              · have hUnit := hUnits x type kind below rfl hx
                apply (Ty.reckonMeasure_onlyOverflows hUnit).bind
                intro value _
                exact (Measure.reckonSubstitute_onlyOverflows _ _ _).bind fun result _ => .pure _
        | intro x kind =>
            change (if unit.exponent x = 0 then _ else _) = _ at h
            by_cases hx : unit.exponent x = 0
            · rw [if_pos hx] at h
              cases h
            · rw [if_neg hx] at h
              simp only [if_neg hx] at hFits
              exact ⟨x, stuck_of_elimination_error hx hFits h⟩
        | _ => cases h

end HindleyMilner.Units
