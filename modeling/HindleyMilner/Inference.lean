import HindleyMilner.Inference.Generalization
import HindleyMilner.Inference.Logged
import HindleyMilner.Solver.Run

/-! Type inference. The term is walked once. Variables and bindings are pushed
onto the context on the way, and an equation is solved at every application. -/
namespace HindleyMilner

variable {L : Language}

namespace Logged

/-- The step that is due in a state. -/
def solvingEvent? (s : State L) : Option (Event L) := s.firstConstraint?.map .solving

/-- The contexts after each step of a run, given the states it was in. -/
def steppedEvents (states : List (State L)) : List (Event L) :=
  states.tail.mapIdx fun i s => .stepped i s.context

def step [Rules L] (s : State L) : Logged L (State L) := ⟨(solvingEvent? s).toList, s.step⟩

def unify [Rules L] [Terminating L] (s : State L) : Logged L (State L) :=
  let run := s.runWith (fun s events => (solvingEvent? s).toList ++ events) []
  ⟨run.noted.reverse, run.outcome⟩

/-- Solve all constraints. If that succeeds, the contexts on the way are
reported at the end. -/
def unifyTraced [Rules L] [Terminating L] (s : State L) : Logged L (State L) :=
  let run := s.run
  let solving := run.states.filterMap solvingEvent?
  match run.outcome with
  | .ok t => ⟨solving ++ steppedEvents run.states, .ok t⟩
  | .error e => ⟨solving, .error e⟩

/-- Solve all constraints, with or without the contexts on the way. -/
def unifyWith [Rules L] [Terminating L] (trace : Bool) (s : State L) : Logged L (State L) :=
  if trace then unifyTraced s else unify s

/-- What is reported does not change the result. -/
@[simp]
theorem result_unifyWith [Rules L] [Terminating L] (trace : Bool) (s : State L) :
    (unifyWith trace s).result = s.unify := by
  cases trace with
  | false => exact State.outcome_runWith _ _ s
  | true =>
      rw [← State.outcome_runWith List.cons [] s]
      simp only [unifyWith, unifyTraced, State.run, if_true]
      cases (State.runWith List.cons [] s).outcome <;> rfl

end Logged

/-- The type of a term, and the state in which its variables live. -/
structure Synthesis (L : Language) where
  state : State L
  type : L.Qualified

open Logged in
/-- Find the type of a term, given how constraints are solved. The depth counts
the terms around it. -/
def synthesize [Rules L] (solve : State L → Logged L (State L)) :
    Term → Nat → State L → Logged L (Synthesis L)
  | .var x, depth, s => do
      report (.entered depth (.var x))
      match s.context.lookup x with
      | none => ofExcept (.error (.unboundVariable x))
      | some scheme =>
          let made := scheme.instantiate s.supply "t" L.var
          report (.left depth (.var x) made.body)
          let s : State L := { s with supply := made.supply }
          return ⟨s.pushAll (Language.Telescope.intros made.intros), made.body⟩
  | .lam x body, depth, s => do
      report (.entered depth (.lam x body))
      let drawn := s.draw "t"
      let parameter := L.var drawn.1 L.valueKind
      let inner ← synthesize solve body (depth + 1)
        ((drawn.2.push (.intro drawn.1 L.valueKind)).push (.bind x (.mono parameter)))
      let removed ← ofExcept (inner.state.context.removeBinding x)
      let type : L.Qualified := ⟨inner.type.predicates, L.arrow parameter inner.type.head⟩
      report (.left depth (.lam x body) type)
      return ⟨{ inner.state with context := removed.2 }, type⟩
  | .app function argument, depth, s => do
      report (.entered depth (.app function argument))
      let f ← synthesize solve function (depth + 1) s
      let a ← synthesize solve argument (depth + 1) f.state
      let drawn := a.state.draw "t"
      let value := L.var drawn.1 L.valueKind
      let solved ← solve
        ((drawn.2.push (.intro drawn.1 L.valueKind)).push
          (.ofGoal (.eq f.type.head (L.arrow a.type.head value))))
      let type : L.Qualified := ⟨f.type.predicates ++ a.type.predicates, value⟩
      report (.left depth (.app function argument) type)
      return ⟨solved, type⟩
  | .letIn x bound body, depth, s => do
      report (.entered depth (.letIn x bound body))
      let b ← synthesize solve bound (depth + 1) (s.push .marker)
      let skimmed ← ofExcept b.state.context.skim
      let made ← ofExcept (generalize skimmed.1 skimmed.2 b.type)
      report (.generalized depth x made.scheme)
      let inner ← synthesize solve body (depth + 1)
        (State.push ⟨b.state.supply, skimmed.1⟩ (.bind x made.scheme))
      let removed ← ofExcept (inner.state.context.removeBinding x)
      let type : L.Qualified := ⟨made.deferred ++ inner.type.predicates, inner.type.head⟩
      report (.left depth (.letIn x bound body) type)
      return ⟨{ inner.state with context := removed.2 }, type⟩
  | .float value, _, s => do
      let type ← ofExcept (Rules.literal value)
      return ⟨s, .ofType type⟩

/-- Write a type without the variables that the context defines. -/
def resolveType [Rules L] (ctx : Context L) (type : L.Qualified) :
    Except TypeError L.Qualified := do
  let head ← Rules.finish (ctx.apply type.head)
  let predicates ← Rules.reduce (ctx.apply type.predicates) ctx
  .ok ⟨predicates, head⟩

/-- Infer the type of a term, with the events on the way. -/
def inferLogged [Rules L] [Terminating L] (trace : Bool) (s : State L) (term : Term) :
    Logged L L.Qualified := do
  let made ← synthesize (Logged.unifyWith trace) term 0 s
  let ctx := made.state.context.normalize
  Logged.report (.finished ctx)
  Logged.ofExcept (resolveType ctx made.type)

def infer [Rules L] [Terminating L] (s : State L) (term : Term) : Except TypeError L.Qualified :=
  (inferLogged false s term).result

/-- Infer the type of a term in a language without predicates. -/
def inferType [Rules L] [Terminating L] (s : State L) (term : Term) : Except TypeError L.Ty :=
  (infer s term).map fun type => type.head

/-- Infer the type of a term and say so first. -/
def checkLogged [Rules L] [Terminating L] (trace : Bool) (s : State L) (term : Term) :
    Logged L L.Qualified := do
  Logged.report (.checking term)
  inferLogged trace s term

/-- The outcome of a check, a failure being reported as a diagnostic. -/
def Logged.reported {α : Type} (m : Logged L α) : Except Report α :=
  m.result.mapError TypeError.toReport

/-- Infer the type of a term, or report why there is none. -/
def check [Rules L] [Terminating L] (s : State L) (term : Term) : Except Report L.Qualified :=
  (checkLogged false s term).reported

end HindleyMilner
