import HindleyMilner.Proofs.Failure
import HindleyMilner.Proofs.Scoping

/-! Faults of the engine. An error that says that a context breaks the rules of the
solver is never the fault of a term: in well-formed states the solver finds what it
looks for, and inference finds the binding and the marker it has put down. -/
namespace HindleyMilner

open Context

/-- A computation that does not fail for an internal reason. -/
def Faultless {α : Type} (m : Except TypeError α) : Prop :=
  ∀ e, m = .error e → e.isInternal = false

variable {L : Language} [Rules L]

/-- The rules of a language blame no context. -/
structure FaultlessRules (L : Language) [Rules L] : Prop where
  decompose : ∀ l r : L.Ty, Faultless (Rules.decompose l r)
  flexRigid : ∀ (supply : Supply) (deps : L.Telescope) (eq : FlexRigid L),
    Faultless (Rules.flexRigid supply deps eq)
  literal : ∀ value : Binary64, Faultless (Rules.literal (L := L) value)
  reduce : ∀ (ps : List L.Pred) (ctx : Context L), Faultless (Rules.reduce ps ctx)
  finish : ∀ t : L.Ty, Faultless (Rules.finish t)

/-- Rules that give errors of their own kinds only do not blame the engine. -/
theorem OwnErrors.faultlessRules (h : OwnErrors L) : FaultlessRules L := by
  have hFaultless : ∀ {α : Type} {m : Except TypeError α}, FailsOnly TypeError.IsOfRules m →
      Faultless m := by
    intro α m hm e he
    have hOwn := hm e he
    cases e with
    | malformed reason => cases hOwn
    | _ => rfl
  exact ⟨fun l r => hFaultless (h.decompose l r),
    fun supply deps eq => hFaultless (h.flexRigid supply deps eq),
    fun value => hFaultless (h.literal value), fun ps ctx => hFaultless (h.reduce ps ctx),
    fun t => hFaultless (h.finish t)⟩

namespace Focus

variable {f : Focus L}

omit [Rules L] in
/-- Below the first constraint there is no other. -/
theorem below_not_constraint (hSettled : Settled f.below.reverse) {c : Constraint L}
    {below : List (Entry L)} : f.below ≠ .constraint c :: below := by
  intro hBelow
  have hConstraint := hSettled (.constraint c) (by rw [hBelow]; simp)
  cases hConstraint

omit [Rules L] in
/-- There are entries below where a variable is declared. -/
theorem below_ne_nil {x : Name} (h : x ∈ (declared f.below.reverse).map Prod.fst) :
    f.below ≠ [] := by
  intro hNil
  rw [hNil] at h
  cases h

omit [Rules L] in
/-- A variable walks down a context that declares it, unless it
would contain itself. -/
theorem occurs_of_walk_error (hSettled : Settled f.below.reverse) {eq : FlexRigid L}
    (hDeclared : eq.name ∈ (declared f.below.reverse).map Prod.fst) {goal : Goal L}
    {deps : L.Telescope} {e : TypeError} (h : f.walk goal deps eq = .error e) :
    eq.name ∈ freeVars eq.rigid ∧ e = .occurs eq.name (Text.plain eq.rigid) := by
  rcases walk_eq_error h with hNil | ⟨c, below, hBelow⟩ | ⟨-, -, -, hOccurs⟩
  · exact absurd hNil (below_ne_nil hDeclared)
  · exact absurd hBelow (below_not_constraint hSettled)
  · exact hOccurs

omit [Rules L] in
/-- So walking down a context that declares the variable blames at most the
variable itself, for containing itself. -/
theorem walk_faultless (hSettled : Settled f.below.reverse) {eq : FlexRigid L}
    (hDeclared : eq.name ∈ (declared f.below.reverse).map Prod.fst) (goal : Goal L)
    (deps : L.Telescope) : Faultless (f.walk goal deps eq) := by
  intro e h
  rw [(occurs_of_walk_error hSettled hDeclared h).2]
  rfl

omit [Rules L] in
/-- Two variables meet at the entry of one of them, if there is one below, and
nothing can go wrong there. -/
theorem meetVars_ne_error (hSettled : Settled f.below.reverse) {a b : Name} {l r : L.Ty}
    (hDeclared : a ∈ (declared f.below.reverse).map Prod.fst) {e : TypeError} :
    f.meetVars a b l r ≠ .error e := by
  intro h
  rcases meetVars_eq_error h with hNil | ⟨c, below, hBelow⟩
  · exact below_ne_nil hDeclared hNil
  · exact below_not_constraint hSettled hBelow

omit [Rules L] in
/-- Putting down the variables that a constraint carries declares them below it. -/
theorem declared_lower (f : Focus L) (deps : L.Telescope) :
    declared (f.lower deps).below.reverse = declared f.below.reverse ++ deps := by
  rw [lower, List.reverse_append, List.reverse_reverse, declared_append, declared_intros]

omit [Rules L] in
theorem settled_lower (hSettled : Settled f.below.reverse) (deps : L.Telescope) :
    Settled (f.lower deps).below.reverse := by
  rw [lower, List.reverse_append, List.reverse_reverse]
  exact settled_append.mpr ⟨hSettled, settled_intros deps⟩

/-- The ways in which an equation of a declared variable with another type fails. -/
inductive FlexFailure (f : Focus L) (deps : L.Telescope) (eq : FlexRigid L) : TypeError → Prop where
  | rules {e : TypeError} (h : Rules.flexRigid f.supply deps eq = .error e) :
      FlexFailure f deps eq e
  | occurs (h : eq.name ∈ freeVars eq.rigid) :
      FlexFailure f deps eq (.occurs eq.name (Text.plain eq.rigid))

/-- An equation between a declared variable and another type fails
because the language gives up on it, or because the variable would
contain itself where it is found. -/
theorem FlexFailure.of_flexRigid (hSettled : Settled f.below.reverse) {eq : FlexRigid L}
    (hDeclared : eq.name ∈ (declared f.below.reverse).map Prod.fst) {deps : L.Telescope}
    {e : TypeError} (h : f.flexRigid deps eq = .error e) : FlexFailure f deps eq e := by
  rw [flexRigid] at h
  cases hRules : Rules.flexRigid f.supply deps eq with
  | error err =>
      rw [hRules] at h
      cases h
      exact .rules hRules
  | ok made =>
      rw [hRules] at h
      cases made with
      | none =>
          obtain ⟨hOccurs, rfl⟩ := occurs_of_walk_error hSettled hDeclared h
          exact .occurs hOccurs
      | some made => cases h

/-- The ways in which an equation of declared variables fails. -/
inductive EquationFailure (f : Focus L) (deps : L.Telescope) (l r : L.Ty) (e : TypeError) :
    Prop where
  | left {x : Name} (hl : L.asVar? l = some x) (hr : L.asVar? r = none)
      (h : FlexFailure f deps ⟨x, l, r⟩ e) : EquationFailure f deps l r e
  | right {x : Name} (hl : L.asVar? l = none) (hr : L.asVar? r = some x)
      (h : FlexFailure f deps ⟨x, r, l⟩ e) : EquationFailure f deps l r e
  | rigid (hl : L.asVar? l = none) (hr : L.asVar? r = none) (h : Rules.decompose l r = .error e) :
      EquationFailure f deps l r e

section

variable [Sized L] [FreeVars L.Special] [Lexical L] (hSettled : Settled f.below.reverse)
  {deps : L.Telescope} {l r : L.Ty}
  (hScope : ∀ x ∈ freeVars l ++ freeVars r, x ∈ (declared f.below.reverse ++ deps).map Prod.fst)
  (hAnchors : ∀ p ∈ deps, (Goal.eq l r).Anchors p.1)

include hSettled hScope hAnchors

/-- An equation whose variables are declared, and that determines those it
carries, finds its variable below it. -/
theorem EquationFailure.of_solveEq {e : TypeError} (h : f.solveEq deps l r = .error e) :
    EquationFailure f deps l r e := by
  rw [solveEq] at h
  have hCarried : ∀ p ∈ deps, ∃ a, L.asVar? l = some a ∧ p.1 ≠ a :=
    fun p hp => ((Goal.anchors_of_sides (g := .eq l r) rfl).mp (hAnchors p hp)).1
  cases hl : L.asVar? l with
  | some a =>
      have ha := hScope a (List.mem_append_left _ (Lexical.mem_freeVars hl))
      cases hr : L.asVar? r with
      | some b =>
          simp only [hl, hr] at h
          split at h
          · cases h
          · refine absurd h (meetVars_ne_error (settled_lower hSettled deps) ?_)
            rw [declared_lower]
            exact ha
      | none =>
          simp only [hl, hr] at h
          refine .left hl hr (.of_flexRigid hSettled ?_ h)
          rw [List.map_append, List.mem_append] at ha
          refine ha.resolve_right fun hMem => ?_
          obtain ⟨p, hp, hEq⟩ := List.mem_map.mp hMem
          obtain ⟨a', ha', hNe⟩ := hCarried p hp
          rw [hl] at ha'
          cases ha'
          exact hNe hEq
  | none =>
      have hFree : deps = [] := by
        refine List.eq_nil_iff_forall_not_mem.mpr fun p hp => ?_
        obtain ⟨a, ha, -⟩ := hCarried p hp
        rw [hl] at ha
        cases ha
      cases hr : L.asVar? r with
      | some b =>
          simp only [hl, hr] at h
          have hb := hScope b (List.mem_append_right _ (Lexical.mem_freeVars hr))
          rw [hFree, List.append_nil] at hb
          exact .right hl hr (.of_flexRigid hSettled hb h)
      | none =>
          simp only [hl, hr] at h
          cases hGoals : Rules.decompose l r with
          | ok goals =>
              rw [hGoals] at h
              cases h
          | error err =>
              rw [hGoals] at h
              cases h
              exact .rigid hl hr hGoals

/-- Such an equation does not blame the context. -/
theorem solveEq_faultless (hRules : FaultlessRules L) : Faultless (f.solveEq deps l r) := by
  have hFlex : ∀ {eq : FlexRigid L} {e : TypeError}, FlexFailure f deps eq e →
      e.isInternal = false := by
    intro eq e h
    cases h with
    | rules h => exact hRules.flexRigid _ _ _ e h
    | occurs => rfl
  intro e h
  cases EquationFailure.of_solveEq hSettled hScope hAnchors h with
  | left _ _ h => exact hFlex h
  | right _ _ h => exact hFlex h
  | rigid _ _ h => exact hRules.decompose l r e h

end

end Focus

/-- Solving the equation of an application blames no context. -/
def FaultlessSolver (L : Language) [Rules L] [Sized L] [FreeVars L.Special] [Lexical L]
    [Terminating L] : Prop :=
  ∀ {s : State L} {function argument : L.Ty}, Settled s.context.entries →
    (Discipline.scoping L).Good (s.equate function argument) →
    Faultless (s.equate function argument).unify

/-- Where all constraints are equations, every constraint determines what it
carries, and moves keep this so. Hence no state of a run has an equation that
loses its variable. -/
theorem EquationsOnly.faultlessSolver [Sized L] [FreeVars L.Special] [Lexical L] [Terminating L]
    (hOnly : EquationsOnly L) (hRules : FaultlessRules L) : FaultlessSolver L := by
  intro s function argument hSettled hs
  refine State.unify_failsOnly
    (fun s => (Discipline.scoping L).Good s ∧ Anchored s.context.entries) ?_ ?_
    ⟨hs, State.anchored_equate hSettled function argument⟩
  · rintro s t ⟨hGood, hAnchored⟩ hStep
    obtain ⟨-, hMoves⟩ := hOnly.step_moves hStep
    exact ⟨(hOnly.stepsRefine _ (Model.onePoint L) hGood hStep).good, hMoves.anchored hAnchored⟩
  · rintro s ⟨hGood, hAnchored⟩ e hError
    obtain ⟨⟨deps, goal⟩, f, rfl, hBelow, hSolve⟩ := State.step_eq_error hError
    cases goal with
    | special g => exact (hOnly.special g).elim
    | eq l r =>
        refine Focus.solveEq_faultless hBelow hGood.goal_scope (fun p hp => ?_) hRules e hSolve
        exact hAnchored _ (List.mem_append_right _ List.mem_cons_self) p hp

variable [Sized L] [FreeVars L.Special] [Lexical L] [Terminating L]

/-- Rules that blame nobody fail in no other ways, as is asked of them to show
this for whole runs. -/
theorem FaultlessRules.failureRules (hRules : FaultlessRules L) (hSolver : FaultlessSolver L) :
    FailureRules (Discipline.scoping L) fun e => e.isInternal = false where
  unbound _ := rfl
  literal := hRules.literal
  reduce := hRules.reduce
  finish _ := hRules.finish _
  solve := hSolver

/-- Inference from a well-formed state without constraints fails only with
errors that tell of the program. -/
theorem infer_faultless [DecidableEq L.Kind] (hRules : FaultlessRules L)
    (hSolver : FaultlessSolver L)
    (hSteps : StepsRefine (Discipline.scoping L) (Model.onePoint L)) {s : State L}
    (hs : s.WellFormed) (hSettled : Settled s.context.entries) (e : Term) :
    Faultless (infer s e) :=
  (hRules.failureRules hSolver).infer_failsOnly (Model.compatible_onePoint _) hSteps hs.good
    hSettled e

end HindleyMilner
