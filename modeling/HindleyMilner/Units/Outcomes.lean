import HindleyMilner.Units.Rules

/-! What a step of a language with units that succeeds has done beside equating types, case by
case. -/
namespace HindleyMilner.Units

/-- The hull of a type takes the place of the type, and its new variables are
equated with the units it left out. -/
theorem equateHull_eq_ok {supply : Supply} {deps : language.Telescope} {eq : FlexRigid language}
    {made : Supply × List (Constraint language)} (h : equateHull supply deps eq = .ok made) :
    ∃ hull goals, eq.rigid.hull supply = .ok hull ∧ holeGoals hull.holes = .ok goals ∧
      made = (hull.supply, ⟨deps ++ hull.holes.map fun hole => (hole.1, Kind.unit),
        .special (.hull eq.name hull.shape)⟩ :: goals.map .ofGoal) := by
  obtain ⟨hull, hHull, h⟩ := bind_eq_ok.mp h
  obtain ⟨goals, hGoals, h⟩ := bind_eq_ok.mp h
  cases h
  exact ⟨hull, goals, hHull, hGoals, rfl⟩

/-- What becomes of a unit equation at the entry that introduces one of its
variables. -/
inductive Eliminated (f : Focus language) (deps : language.Telescope) (unit : Measure) (x : Name)
    (kind : Kind) : State language → Prop where
  | solve {solution : Measure} (hDivides : unit.divisibleBy (unit.exponent x) = true)
      (hSolution : unit.pivot x = .ok solution) :
      Eliminated f deps unit x kind (f.resume (deps.intros ++ [.define x solution.toType kind]))
  | reduce {quotient solution reduced : Measure} (hRival : unit.hasRival x = true)
      (hQuotient : unit.pivot x = .ok quotient)
      (hSolution : quotient.add (.var (f.supply.draw "b").1) = .ok solution)
      (hReduced : unit.substitute x solution = .ok reduced) :
      Eliminated f deps unit x kind
        (Focus.resume { f with supply := (f.supply.draw "b").2 }
          (.intro (f.supply.draw "b").1 .unit :: deps.intros
            ++ [.ofGoal (isOne reduced), .define x solution.toType kind]))
  | lift (hRival : unit.hasRival x = false) (hCount : 1 < unit.varCount) :
      Eliminated f deps unit x kind (f.resume [.constraint ⟨(x, kind) :: deps, isOne unit⟩])

/-- An elimination that succeeds defines the variable, defines it up to a new
one, or takes it up, with the condition under which it does each. -/
theorem eliminated_of_eliminate {f : Focus language} {deps : language.Telescope} {unit : Measure}
    {x : Name} {kind : Kind} {t : State language} (h : eliminate f deps unit x kind = .ok t) :
    Eliminated f deps unit x kind t := by
  rw [eliminate] at h
  by_cases hDivides : unit.divisibleBy (unit.exponent x) = true
  · rw [if_pos hDivides] at h
    obtain ⟨solution, hSolution, h⟩ := bind_eq_ok.mp h
    cases h
    exact .solve hDivides hSolution
  · rw [if_neg hDivides] at h
    by_cases hRival : unit.hasRival x = true
    · rw [if_pos hRival] at h
      obtain ⟨quotient, hQuotient, h⟩ := bind_eq_ok.mp h
      obtain ⟨solution, hSolution, h⟩ := bind_eq_ok.mp h
      obtain ⟨reduced, hReduced, h⟩ := bind_eq_ok.mp h
      cases h
      exact .reduce hRival hQuotient hSolution hReduced
    · rw [if_neg hRival] at h
      by_cases hCount : 1 < unit.varCount
      · rw [if_pos hCount] at h
        cases h
        exact .lift (eq_false_of_ne_true hRival) hCount
      · rw [if_neg hCount] at h
        cases h

/-- What becomes of a unit equation. -/
inductive UnitSolved (deps : language.Telescope) (unit : Measure) :
    Focus language → State language → Prop where
  | settle {f : Focus language} (h : unit.isIdentity = true) :
      UnitSolved deps unit f (f.resume deps.intros)
  | unfold {supply : Supply} {below above : List (Entry language)} {x : Name} {type : Ty}
      {kind : Kind} {value result : Measure} (hx : unit.exponent x ≠ 0)
      (hValue : type.toMeasure = .ok value) (hResult : unit.substitute x value = .ok result) :
      UnitSolved deps unit ⟨supply, .define x type kind :: below, above⟩
        (Focus.resume ⟨supply, below, above⟩
          (deps.intros ++ [.ofGoal (isOne result), .define x type kind]))
  | eliminate {supply : Supply} {below above : List (Entry language)} {x : Name} {kind : Kind}
      {t : State language} (hx : unit.exponent x ≠ 0)
      (h : Eliminated ⟨supply, below, above⟩ deps unit x kind t) :
      UnitSolved deps unit ⟨supply, .intro x kind :: below, above⟩ t
  | pass {supply : Supply} {top : Entry language} {below above : List (Entry language)}
      (hTop : top.isConstraint = false)
      (hIntro : ∀ x kind, top = .intro x kind → unit.exponent x = 0)
      (hDefine : ∀ x type kind, top = .define x type kind → unit.exponent x = 0) :
      UnitSolved deps unit ⟨supply, top :: below, above⟩
        (Focus.resume ⟨supply, below, above⟩ [.constraint ⟨deps, isOne unit⟩, top])

/-- A step of a unit equation that succeeds settles it, substitutes a
definition, eliminates a variable or passes an entry that declares
none of its variables. -/
theorem unitSolved_of_solveUnit {f : Focus language} {deps : language.Telescope} {unit : Measure}
    {t : State language} (h : solveUnit f deps unit = .ok t) : UnitSolved deps unit f t := by
  rw [solveUnit] at h
  by_cases hIdentity : unit.isIdentity = true
  · rw [if_pos hIdentity] at h
    cases h
    exact .settle hIdentity
  · rw [if_neg hIdentity] at h
    by_cases hConstant : unit.isConstant = true
    · rw [if_pos hConstant] at h
      cases h
    · rw [if_neg hConstant] at h
      obtain ⟨supply, below, above⟩ := f
      cases below with
      | nil => cases h
      | cons top below =>
          simp only [Focus.pop, bind, Except.bind] at h
          cases top with
          | intro x kind =>
              simp only at h
              by_cases hx : unit.exponent x = 0
              · rw [if_pos hx] at h
                cases h
                refine .pass rfl (fun y k hEq => ?_) fun _ _ _ hEq => by cases hEq
                cases hEq
                exact hx
              · rw [if_neg hx] at h
                exact .eliminate hx (eliminated_of_eliminate h)
          | define x type kind =>
              simp only at h
              by_cases hx : unit.exponent x = 0
              · rw [if_pos hx] at h
                cases h
                refine .pass rfl (fun _ _ hEq => by cases hEq) fun y u k hEq => ?_
                cases hEq
                exact hx
              · rw [if_neg hx] at h
                obtain ⟨value, hValue, h⟩ := bind_eq_ok.mp h
                obtain ⟨result, hResult, h⟩ := bind_eq_ok.mp h
                cases h
                exact .unfold hx hValue hResult
          | constraint c => cases h
          | _ =>
              cases h
              exact .pass rfl (fun _ _ hEq => by cases hEq) fun _ _ _ hEq => by cases hEq

end HindleyMilner.Units
