import HindleyMilner.Solver.Rules

/-! Runs of the solver: steps until no constraint is left or one fails. -/
namespace HindleyMilner

variable {L : Language}

/-- A successful step of the solver, from a state with a pending constraint. -/
def State.Steps [Rules L] (s t : State L) : Prop := s.canStep = true ∧ s.step = .ok t

/-- Languages whose solver comes to an end from every state. -/
class Terminating (L : Language) [Rules L] : Prop where
  wellFounded : WellFounded fun t s : State L => s.Steps t

instance [Rules L] [Terminating L] : WellFoundedRelation (State L) :=
  ⟨fun t s => s.Steps t, Terminating.wellFounded⟩

/-- Solve all constraints: step until none is left or a step fails. -/
def State.unify [Rules L] [Terminating L] (s : State L) : Except TypeError (State L) :=
  if _ : s.canStep then
    match _ : s.step with
    | .ok t => t.unify
    | .error e => .error e
  else .ok s
termination_by s
decreasing_by exact ⟨by assumption, by assumption⟩

/-- How a run of the solver ended, with what was noted on the way. -/
structure Run (L : Language) (β : Type) where
  noted : β
  outcome : Except TypeError (State L)

/-- Solve all constraints, and note something of every state in
which a step is due. -/
def State.runWith {β : Type} [Rules L] [Terminating L] (note : State L → β → β) (noted : β)
    (s : State L) : Run L β :=
  if _ : s.canStep then
    let noted := note s noted
    match _ : s.step with
    | .ok t => t.runWith note noted
    | .error e => ⟨noted, .error e⟩
  else ⟨noted, .ok s⟩
termination_by s
decreasing_by exact ⟨by assumption, by assumption⟩

/-- A run that notes every state, the latest first. -/
def State.run [Rules L] [Terminating L] (s : State L) : Run L (List (State L)) :=
  s.runWith List.cons []

/-- All states of a run, from the one it started in to the last. -/
def Run.states (r : Run L (List (State L))) : List (State L) :=
  r.noted.reverse ++ r.outcome.toOption.toList

namespace State

variable [Rules L] [Terminating L]

/-- While a step is due, solving takes it and goes on from where it leads. -/
theorem unify_of_canStep {s : State L} (h : s.canStep = true) :
    s.unify = s.step >>= fun t => t.unify := by
  rw [unify, dif_pos h]
  cases s.step <;> rfl

theorem unify_of_not_canStep {s : State L} (h : s.canStep = false) : s.unify = .ok s := by
  rw [unify, dif_neg (by simp [h])]

/-- A run notes the state in which a step is due before it takes the step. -/
theorem runWith_of_step {β : Type} {note : State L → β → β} {noted : β} {s t : State L}
    (h : s.canStep = true) (hStep : s.step = .ok t) :
    s.runWith note noted = t.runWith note (note s noted) := by
  rw [runWith, dif_pos h]
  revert hStep
  cases s.step with
  | ok u =>
      intro hStep
      cases hStep
      rfl
  | error e =>
      intro hStep
      cases hStep

/-- A run ends with the error of the first step that fails. -/
theorem runWith_of_error {β : Type} {note : State L → β → β} {noted : β} {s : State L}
    {e : TypeError} (h : s.canStep = true) (hStep : s.step = .error e) :
    s.runWith note noted = ⟨note s noted, .error e⟩ := by
  rw [runWith, dif_pos h]
  revert hStep
  cases s.step with
  | ok u =>
      intro hStep
      cases hStep
  | error e =>
      intro hStep
      cases hStep
      rfl

/-- What is noted on the way does not change how a run ends. -/
theorem outcome_runWith {β : Type} (note : State L → β → β) (noted : β) (s : State L) :
    (s.runWith note noted).outcome = s.unify := by
  fun_induction runWith note noted s with
  | case1 noted s hCan noted' t hStep ih =>
      rw [ih, unify_of_canStep hCan, hStep]
      rfl
  | case2 noted s hCan noted' e hStep =>
      rw [unify_of_canStep hCan, hStep]
      rfl
  | case3 noted s hCan => rw [unify_of_not_canStep (by simpa using hCan)]

end State

end HindleyMilner
