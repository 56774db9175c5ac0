import HindleyMilner.Solver.Run
import Mathlib.Logic.Relation
import Mathlib.Order.WellFounded

/-! The states that a run of the solver goes through. A run that ends does so in a
state without constraints or at a step that fails, and solving gives what it ends
with. -/
namespace HindleyMilner.State

variable {L : Language} [Rules L]

/-- A state that the solver comes to from another one. -/
abbrev Reaches : State L → State L → Prop := Relation.ReflTransGen Steps

def Endless (s : State L) : Prop :=
  ∃ run : Nat → State L, run 0 = s ∧ ∀ n, (run n).Steps (run (n + 1))

/-- No step can be taken, because no constraint is left or because the step
fails. -/
inductive StopsWith : State L → Except TypeError (State L) → Prop where
  | solved {s : State L} (hDone : s.canStep = false) : StopsWith s (.ok s)
  | failed {s : State L} {e : TypeError} (hCan : s.canStep = true) (hStep : s.step = .error e) :
      StopsWith s (.error e)

/-- Every state has at most one step. -/
theorem Reaches.eq_or_reaches {s t u : State L} (h : s.Reaches u) (hStep : s.Steps t) :
    u = s ∨ t.Reaches u := by
  rcases h.cases_head with rfl | ⟨t', hFirst, hRest⟩
  · exact .inl rfl
  · have hSame := hFirst.2.symm.trans hStep.2
    cases hSame
    exact .inr hRest

/-- From a state that cannot take a step no other is reached. -/
theorem Reaches.eq_of_not_canStep {s t : State L} (h : s.Reaches t) (hDone : s.canStep = false) :
    t = s := by
  rcases h.cases_head with rfl | ⟨u, hFirst, -⟩
  · rfl
  · rw [hFirst.1] at hDone
    cases hDone

variable [Terminating L]

/-- No run is endless, since the steps of a terminating language are
well-founded. -/
theorem not_endless (s : State L) : ¬s.Endless := by
  rintro ⟨run, -, hSteps⟩
  have : IsWellFounded (State L) fun t s => s.Steps t := ⟨Terminating.wellFounded⟩
  obtain ⟨n, hn⟩ := WellFounded.not_rel_apply_succ (r := fun t s : State L => s.Steps t) run
  exact hn (hSteps n)

/-- Solving gives the same result from every state of a run. -/
theorem Steps.unify_eq {s t : State L} (h : s.Steps t) : s.unify = t.unify := by
  rw [unify_of_canStep h.1, h.2]
  rfl

/-- Every run comes to a state in which it stops. -/
theorem exists_stopsWith (s : State L) : ∃ t, s.Reaches t ∧ t.StopsWith s.unify := by
  fun_induction State.unify s with
  | case1 s hCan u hStep ih =>
      obtain ⟨t, hReaches, hStops⟩ := ih
      exact ⟨t, .head ⟨hCan, hStep⟩ hReaches, hStops⟩
  | case2 s hCan e hStep => exact ⟨s, .refl, .failed hCan hStep⟩
  | case3 s hCan => exact ⟨s, .refl, .solved (by simpa using hCan)⟩

end HindleyMilner.State
