import HindleyMilner.Proofs.Classes.Scoping
import HindleyMilner.Proofs.Runs
import HindleyMilner.Proofs.Simple.Unification
import HindleyMilner.Proofs.Units.InternalErrors

/-! What holds in every language. -/
namespace HindleyMilner

open Context

/-- Where types are equated part by part, the solver takes finitely many steps
from every state, and solving gives what they end with. -/
theorem unify_ends_structural :
    (∀ s : State Simple.language, ¬s.Endless ∧ ∃ t, s.Reaches t ∧ t.StopsWith s.unify) ∧
    ∀ s : State Classes.language, ¬s.Endless ∧ ∃ t, s.Reaches t ∧ t.StopsWith s.unify :=
  ⟨fun s => ⟨s.not_endless, s.exists_stopsWith⟩, fun s => ⟨s.not_endless, s.exists_stopsWith⟩⟩

/-- So it does where units are equated as elements of an Abelian group, although
a step may then introduce variables and constraints. -/
theorem unify_ends_upToUnits (s : State Units.language) :
    ¬s.Endless ∧ ∃ t, s.Reaches t ∧ t.StopsWith s.unify :=
  ⟨s.not_endless, s.exists_stopsWith⟩

/-- A step of the solver keeps the context in order, whatever the language. -/
theorem step_keeps_wellFormed :
    (∀ {s t : State Simple.language}, s.WellFormed → s.step = .ok t → t.WellFormed ∧ s.Keeps t) ∧
    (∀ {s t : State Classes.language}, s.WellFormed → s.step = .ok t →
      t.WellFormed ∧ s.Keeps t) ∧
    ∀ {s t : State Units.language}, s.WellFormed → s.step = .ok t → t.WellFormed ∧ s.Keeps t := by
  refine ⟨fun hs hStep => ?_, fun hs hStep => ?_, fun hs hStep => ?_⟩
  · exact (Simple.stepsRefine_scoping hs.good hStep).keeps hs
  · exact (Classes.stepsRefine_scoping hs.good hStep).keeps hs
  · exact (Units.stepsRefine_scoping hs.good hStep).keeps hs

/-- An equation about to take the variable it carries below a marker. -/
def Simple.carryingState : State Simple.language :=
  ⟨.empty, ⟨[.intro "a" .type, .bind "f" (.mono (.var "a")), .marker,
    .constraint ⟨[("c", .type)], .eq (.var "a") (.arrow (.var "c") (.var "c"))⟩]⟩⟩

/-- A variable for a type constructor about to be found below a class. -/
def Classes.constructorState : State Classes.language :=
  ⟨.empty, ⟨[.intro "m" (.constructor 1), .declare ⟨"C", []⟩,
    .bind "f" ⟨[("a", .data)], ⟨[⟨"C", .var "a" .data⟩], .var "a" .data⟩⟩, .marker,
    .ofGoal (.eq (.app (.var "m" (.constructor 1)) (.con "int" .data))
      (.app (.con "list" (.constructor 1)) (.con "int" .data)))]⟩⟩

/-- A unit equation about to introduce a new variable. -/
def Units.reducingState : State Units.language :=
  ⟨.empty, ⟨[.intro "x" .unit, .bind "f" (.mono (.float (.var "x"))), .marker, .intro "y" .unit,
    .ofGoal (Units.isOne ⟨.ofMap (((∅ : NameMap Units.Exponent).insert "x" 3).insert "y" 2),
      .zero⟩)]⟩⟩

theorem step_keeps_wellFormed_examples :
    (∃ t, Simple.carryingState.step = .ok t ∧ t.WellFormed ∧ Simple.carryingState.Keeps t) ∧
    (∃ t, Classes.constructorState.step = .ok t ∧ t.WellFormed ∧
      Classes.constructorState.Keeps t) ∧
    ∃ t, Units.reducingState.step = .ok t ∧ t.WellFormed ∧ Units.reducingState.Keeps t := by
  have hOk : ∀ {α : Type} {m : Except TypeError α}, m.isOk = true → ∃ a, m = .ok a := by
    intro α m h
    cases m with
    | ok a => exact ⟨a, rfl⟩
    | error e => cases h
  refine ⟨?_, ?_, ?_⟩
  · obtain ⟨t, ht⟩ := hOk (m := Simple.carryingState.step) (by decide +kernel)
    exact ⟨t, ht, step_keeps_wellFormed.1 (by decide +kernel) ht⟩
  · obtain ⟨t, ht⟩ := hOk (m := Classes.constructorState.step) (by decide +kernel)
    exact ⟨t, ht, step_keeps_wellFormed.2.1 (by decide +kernel) ht⟩
  · obtain ⟨t, ht⟩ := hOk (m := Units.reducingState.step) (by decide +kernel)
    exact ⟨t, ht, step_keeps_wellFormed.2.2 (by decide +kernel) ht⟩

/-- So does a run of the solver. -/
theorem unify_keeps_wellFormed :
    (∀ {s t : State Simple.language}, s.WellFormed → s.unify = .ok t →
      t.WellFormed ∧ s.Keeps t) ∧
    (∀ {s t : State Classes.language}, s.WellFormed → s.unify = .ok t →
      t.WellFormed ∧ s.Keeps t) ∧
    ∀ {s t : State Units.language}, s.WellFormed → s.unify = .ok t → t.WellFormed ∧ s.Keeps t := by
  refine ⟨fun hs hRun => ?_, fun hs hRun => ?_, fun hs hRun => ?_⟩
  · exact (Simple.stepsRefine_scoping.unify hs.good hRun).1.keeps hs
  · exact (Classes.stepsRefine_scoping.unify hs.good hRun).1.keeps hs
  · exact (Units.stepsRefine_scoping.unify hs.good hRun).1.keeps hs

/-- Inference from a well-formed state without constraints never
blames the engine, in any of the three languages. What can go wrong is
a fault of the term. -/
theorem infer_ne_malformed :
    (∀ {s : State Simple.language}, s.WellFormed → Settled s.context.entries →
      ∀ (e : Term) (reason : String), infer s e ≠ .error (.malformed reason)) ∧
    (∀ {s : State Classes.language}, s.WellFormed → Settled s.context.entries →
      ∀ (e : Term) (reason : String), infer s e ≠ .error (.malformed reason)) ∧
    ∀ {s : State Units.language}, s.WellFormed → Settled s.context.entries →
      ∀ (e : Term) (reason : String), infer s e ≠ .error (.malformed reason) := by
  have hMalformed : ∀ {α : Type} {m : Except TypeError α} (reason : String), Faultless m →
      m ≠ .error (.malformed reason) := by
    intro α m reason h hError
    cases h _ hError
  refine ⟨fun hs hSettled e reason => ?_, fun hs hSettled e reason => ?_,
    fun hs hSettled e reason => ?_⟩
  · exact hMalformed reason (infer_faultless Simple.faultlessRules Simple.faultlessSolver
      Simple.stepsRefine_scoping hs hSettled e)
  · exact hMalformed reason (infer_faultless Classes.faultlessRules Classes.faultlessSolver
      Classes.stepsRefine_scoping hs hSettled e)
  · exact hMalformed reason (infer_faultless Units.faultlessRules Units.faultlessSolver
      Units.stepsRefine_scoping hs hSettled e)

/-- A function that is applied to itself inside a let. -/
def selfApplication : Term :=
  .lam "x" (.letIn "y" (.lam "z" (.app (.var "x") (.var "z"))) (.app (.var "y") (.var "x")))

/-- A variable that is in use before inference starts. -/
def Simple.openState : State Simple.language :=
  ⟨.empty, ⟨[.intro "a" .type, .bind "f" (.mono (.arrow (.var "a") (.var "a")))]⟩⟩

/-- A binding for members of a class that has no instances. -/
def Classes.memberState : State Classes.language :=
  ⟨.empty, ⟨[.declare ⟨"C", []⟩, .bind "f" ⟨[("a", .data)],
    ⟨[⟨"C", .var "a" .data⟩], .fn (.var "a" .data) (.con "int" .data)⟩⟩]⟩⟩

/-- Multiplication of numbers with units. -/
def Units.productState : State Units.language :=
  ⟨.empty, ⟨[.bind "f" ⟨[("u", .unit), ("v", .unit)], ⟨[], .arrow (.float (.var "u"))
    (.arrow (.float (.var "v")) (.float (.mul (.var "u") (.var "v"))))⟩⟩]⟩⟩

theorem infer_ne_malformed_selfApplication :
    infer Simple.openState selfApplication ≠
      .error (.malformed "a constraint mentions a variable that was never introduced") ∧
    infer Classes.memberState selfApplication ≠
      .error (.malformed "missing locality marker") ∧
    infer Units.productState selfApplication ≠
      .error (.malformed "constraint below the first constraint") := by
  refine ⟨?_, ?_, ?_⟩
  · apply infer_ne_malformed.1 (by decide +kernel)
    simp [Settled, Simple.openState, Entry.isConstraint]
  · apply infer_ne_malformed.2.1 (by decide +kernel)
    simp [Settled, Classes.memberState, Entry.isConstraint]
  · apply infer_ne_malformed.2.2 (by decide +kernel)
    simp [Settled, Units.productState, Entry.isConstraint]

end HindleyMilner
