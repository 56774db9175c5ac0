import HindleyMilner.Proofs.Evaluation
import HindleyMilner.Proofs.Simple.Scoping

/-! The solver on simple types. Steps keep the set of solutions, and a step fails
only where there is no solution, so what the solver leaves is most general. -/
namespace HindleyMilner.Simple

open Context

/-- Every constraint is an equation, so steps are moves, and moves refine. -/
theorem stepsRefine : StepsRefine scoping model := equationsOnly.stepsRefine scoping model

/-- No move adds a condition: what solves the old entries solves the new
ones. For taking apart an equation of arrows this is that arrows are equal
only if their sides are. -/
theorem satisfies_move {θ : model.Valuation} {old new : List (Entry language)} (h : Move old new)
    (hOld : model.Satisfies θ old) : model.Satisfies θ new := by
  cases h with
  | recast =>
      rw [model.satisfies_cons] at hOld ⊢
      exact ⟨Eq.symm hOld.1, hOld.2⟩
  | lower deps g =>
      obtain ⟨hGoal, hNil⟩ := model.satisfies_cons.mp hOld
      rw [model.satisfies_append]
      exact ⟨model.satisfies_intros θ deps, model.satisfies_cons.mpr ⟨hGoal, hNil⟩⟩
  | sink =>
      rw [model.satisfies_cons, model.satisfies_cons] at hOld ⊢
      exact ⟨hOld.2.1, hOld.1, hOld.2.2⟩
  | pass =>
      rw [model.satisfies_cons, model.satisfies_cons] at hOld ⊢
      exact ⟨hOld.2.1, hOld.1, hOld.2.2⟩
  | lift =>
      rw [model.satisfies_cons, model.satisfies_cons] at hOld
      exact model.satisfies_cons.mpr hOld.2
  | unfold hSides =>
      rw [model.satisfies_cons, model.satisfies_cons] at hOld ⊢
      obtain ⟨hDefine, hGoal, hNil⟩ := hOld
      refine ⟨?_, hDefine, hNil⟩
      change model.eval θ _ (subst1 _ _ _) = model.eval θ _ (subst1 _ _ _)
      rw [model.eval_subst1 hDefine, model.eval_subst1 hDefine]
      exact (model.solves_of_sides hSides).mp hGoal
  | solve hSides hVar hFree =>
      rw [model.satisfies_cons, model.satisfies_cons] at hOld
      refine model.satisfies_cons.mpr ⟨fun k => ?_, hOld.2.2⟩
      have hEq := (model.solves_of_sides hSides).mp hOld.2.1
      rw [model.eval_var hVar] at hEq
      cases k
      exact hEq
  | drop => exact model.satisfies_nil
  | @split l r goals h =>
      obtain ⟨a, b, c, d, rfl, rfl, rfl⟩ := decompose_eq_ok h
      have hEq : (Ty.arrow _ _ : Ty) = Ty.arrow _ _ := (model.satisfies_cons.mp hOld).1
      rw [Ty.arrow.injEq] at hEq
      exact model.satisfies_cons.mpr ⟨hEq.1, model.satisfies_cons.mpr ⟨hEq.2, model.satisfies_nil⟩⟩

/-- By induction, no sequence of moves does. -/
theorem satisfies_moves {θ : model.Valuation} {es fs : List (Entry language)} (h : Moves es fs)
    (hOld : model.Satisfies θ es) : model.Satisfies θ fs := by
  induction h with
  | refl => exact hOld
  | tail _ hLast ih =>
      obtain ⟨pre, post, hMove⟩ := hLast
      rw [model.satisfies_append, model.satisfies_append] at ih ⊢
      exact ⟨ih.1, satisfies_move hMove ih.2.1, ih.2.2⟩

/-- What is put for a variable that occurs is at most as large as the result. -/
theorem Ty.size_le_of_mem {σ : Assignment Ty} {x : Name} {t : Ty} (h : x ∈ t.freeVars) :
    ((σ x).getD (.var x)).size ≤ (t.subst σ).size := by
  induction t with
  | var y =>
      rw [List.mem_singleton.mp h]
      exact Nat.le_refl _
  | arrow a b iha ihb =>
      rw [subst, size]
      rcases List.mem_append.mp h with h | h
      · have := iha h
        omega
      · have := ihb h
        omega

/-- A variable is never equal to a larger type that it occurs in, whatever
the variables stand for, because the value of the type would be larger than
that of the variable. -/
theorem not_solves_of_occurs {θ : model.Valuation} {l r : Ty} {x : Name}
    (hLeft : l.asVar? = some x) (hRight : r.asVar? = none) (hOccurs : x ∈ r.freeVars) :
    model.eval θ .type l ≠ model.eval θ .type r := by
  intro h
  rw [model.eval_var hLeft] at h
  cases r with
  | var y => cases hRight
  | arrow a b =>
      have hSize : (θ x .type : Ty).size =
          (Ty.subst (fun y => some (θ y .type)) (.arrow a b)).size := congrArg Ty.size h
      rw [Ty.subst, Ty.size] at hSize
      rcases List.mem_append.mp hOccurs with hx | hx
      · have hLe := Ty.size_le_of_mem (σ := fun y => some (θ y .type)) hx
        change (θ x .type : Ty).size ≤ _ at hLe
        omega
      · have hLe := Ty.size_le_of_mem (σ := fun y => some (θ y .type)) hx
        change (θ x .type : Ty).size ≤ _ at hLe
        omega

/-- The first constraint of a context that determines what its constraints carry. -/
structure First (f : Focus language) (deps : language.Telescope) (l r : Ty) : Prop where
  settled : Settled f.below.reverse
  inScope : ∀ x ∈ l.freeVars ++ r.freeVars, ∃ k, (x, k) ∈ declared f.below.reverse ++ deps
  anchored : ∀ p ∈ deps, (Goal.eq l r : Goal language).Anchors p.1

/-- An equation fails only if it has no solution, and only because a
variable would contain itself. Two arrows can always be taken apart, so
there is no other way to fail. -/
theorem First.solve_error {f : Focus language} {deps : language.Telescope} {l r : Ty}
    (h : First f deps l r) {e : TypeError} (hError : f.solveEq deps l r = .error e) :
    (∃ x text, e = .occurs x text) ∧ ∀ θ, model.eval θ .type l ≠ model.eval θ .type r := by
  have hFlex : ∀ {x : Name} {flex rigid : Ty}, flex.asVar? = some x → rigid.asVar? = none →
      f.FlexFailure deps ⟨x, flex, rigid⟩ e →
      (∃ x text, e = .occurs x text) ∧
        ∀ θ, model.eval θ .type flex ≠ model.eval θ .type rigid := by
    intro x flex rigid hVar hRigid hFailure
    cases hFailure with
    | rules hRules => cases hRules
    | occurs hOccurs => exact ⟨⟨x, _, rfl⟩, fun θ => not_solves_of_occurs hVar hRigid hOccurs⟩
  have hScope : ∀ x ∈ l.freeVars ++ r.freeVars,
      x ∈ (declared f.below.reverse ++ deps).map Prod.fst :=
    fun x hx => mem_names_iff.mpr (h.inScope x hx)
  cases Focus.EquationFailure.of_solveEq h.settled hScope h.anchored hError with
  | left hl hr hFailure => exact hFlex hl hr hFailure
  | right hl hr hFailure =>
      obtain ⟨he, hNone⟩ := hFlex hr hl hFailure
      exact ⟨he, fun θ => (hNone θ).symm⟩
  | rigid hl hr hDecompose =>
      cases l with
      | var => cases hl
      | arrow =>
          cases r with
          | var => cases hr
          | arrow => cases hDecompose

/-- A step that fails has met a variable that would contain itself, and then
nothing solves the context. -/
theorem not_satisfies_of_step_error {s : State language} {e : TypeError}
    (hs : scoping.WellFormed s.context.entries) (hAnchored : Anchored s.context.entries)
    (h : s.step = .error e) :
    (∃ x text, e = .occurs x text) ∧ ∀ θ, ¬model.Satisfies θ s.context.entries := by
  obtain ⟨⟨deps, goal⟩, f, rfl, hSettled, hSolve⟩ := State.step_eq_error h
  cases goal with
  | special g => cases g
  | eq l r =>
      obtain ⟨k, -, hl, hr⟩ := (scoping.scoped_append.mp hs.inScope).2.1
      have hFirst : First f deps l r := by
        refine ⟨hSettled, fun x hx => ?_, fun p hp => ?_⟩
        · rcases List.mem_append.mp hx with hx | hx
          · exact hl x hx
          · exact hr x hx
        · exact hAnchored _ (List.mem_append_right _ List.mem_cons_self) p hp
      obtain ⟨he, hNone⟩ := hFirst.solve_error hSolve
      refine ⟨he, fun θ hθ => hNone θ ?_⟩
      exact hθ (.constraint ⟨deps, .eq l r⟩) (List.mem_append_right _ List.mem_cons_self)

/-- A step keeps all solutions and adds none. -/
theorem satisfies_step {s t : State language} (h : s.step = .ok t) (θ : model.Valuation) :
    model.Satisfies θ s.context.entries ↔ model.Satisfies θ t.context.entries := by
  obtain ⟨-, hMoves⟩ := equationsOnly.step_moves h
  exact ⟨satisfies_moves hMoves, model.satisfies_of_moves hMoves⟩

/-- A run that succeeds ends in a well-formed context without constraints and
with the same solutions. -/
theorem unify_eq_ok {s t : State language} (hs : scoping.WellFormed s.context.entries)
    (h : s.unify = .ok t) :
    Settled t.context.entries ∧ scoping.WellFormed t.context.entries ∧
      ∀ θ, model.Satisfies θ s.context.entries ↔ model.Satisfies θ t.context.entries := by
  fun_induction State.unify s with
  | case1 s hCan u hStep ih =>
      have hMoves := (equationsOnly.step_moves hStep).2
      obtain ⟨hSettled, hWellFormed, hSame⟩ := ih (hMoves.wellFormed scoping hs) h
      exact ⟨hSettled, hWellFormed, fun θ => (satisfies_step hStep θ).trans (hSame θ)⟩
  | case2 s hCan e hStep => cases h
  | case3 s hCan =>
      cases h
      exact ⟨State.settled_of_not_canStep hCan, hs, fun θ => .rfl⟩

/-- A run that fails stops at a variable that would have to contain itself, and
the context it started in has no solution. -/
theorem unify_eq_error {s : State language} {e : TypeError}
    (hs : scoping.WellFormed s.context.entries) (hAnchored : Anchored s.context.entries)
    (h : s.unify = .error e) :
    (∃ x text, e = .occurs x text) ∧ ∀ θ, ¬model.Satisfies θ s.context.entries := by
  fun_induction State.unify s with
  | case1 s hCan u hStep ih =>
      obtain ⟨-, hMoves⟩ := equationsOnly.step_moves hStep
      obtain ⟨he, hNone⟩ := ih (hMoves.wellFormed scoping hs) (hMoves.anchored hAnchored) h
      exact ⟨he, fun θ hθ => hNone θ (satisfies_moves hMoves hθ)⟩
  | case2 s hCan err hStep =>
      cases h
      exact not_satisfies_of_step_error hs hAnchored hStep
  | case3 s hCan => cases h

/-- A substitution satisfies all definitions and all equations of a context. -/
structure Unifies (σ : Assignment Ty) (es : List (Entry language)) : Prop where
  definitions : ∀ x d k, .define x d k ∈ es → subst σ (Ty.var x) = subst σ d
  equations : ∀ deps l r, .constraint ⟨deps, .eq l r⟩ ∈ es → subst σ l = subst σ r

/-- The value of a type in the model is the type with the substitution applied. -/
theorem eval_of_assignment (σ : Assignment Ty) (k : Kind) (t : Ty) :
    model.eval (fun x _ => (subst σ (Ty.var x) : Ty)) k t = subst σ t := by
  apply Ty.subst_congr
  intro x _
  rfl

/-- The unifiers of some entries are their solutions in the model, in
which types stand for themselves and a variable has the type that is put
for it as its value. -/
theorem unifies_iff {σ : Assignment Ty} {es : List (Entry language)} :
    Unifies σ es ↔ model.Satisfies (fun x _ => (subst σ (Ty.var x) : Ty)) es := by
  constructor
  · intro h e he
    cases e with
    | define x d k =>
        intro j
        rw [eval_of_assignment]
        exact h.definitions x d k he
    | constraint c =>
        obtain ⟨deps, goal⟩ := c
        cases goal with
        | special g => cases g
        | eq l r =>
            change model.eval _ _ l = model.eval _ _ r
            rw [eval_of_assignment, eval_of_assignment]
            exact h.equations deps l r he
    | _ => trivial
  · intro h
    refine ⟨fun x d k he => ?_, fun deps l r he => ?_⟩
    · have hDefine := h _ he .type
      rwa [eval_of_assignment] at hDefine
    · have hEquation : model.eval _ _ l = model.eval _ _ r := h _ he
      rwa [eval_of_assignment, eval_of_assignment] at hEquation

/-- What a solved context substitutes is its solution in which the variables
that it leaves open stand for themselves. -/
theorem apply_eq_eval {ctx : Context language} (t : Ty) :
    ctx.apply t = model.eval (model.extend model.algebra.var (definitions ctx.entries)) .type t :=
  (model.eval_id .type _).symm.trans (model.eval_unwind _ _ _ t)

/-- The solver computes a most general unifier inside the context. What it has
solved makes the two sides of every equation equal and keeps the earlier
definitions, and every unifier of the equations satisfies the definitions it has
found. If it fails, it has met a variable that would have to contain itself, and
there is no unifier. -/
theorem unify_mostGeneral {s : State language} (hs : scoping.WellFormed s.context.entries)
    (hDeps : ∀ c, .constraint c ∈ s.context.entries → c.deps = []) :
    (∀ t, s.unify = .ok t →
      Settled t.context.entries ∧
      (∀ l r, .ofGoal (.eq l r) ∈ s.context.entries → t.context.apply l = t.context.apply r) ∧
      (∀ x d k, .define x d k ∈ s.context.entries →
        t.context.apply (Ty.var x) = t.context.apply d) ∧
      ∀ σ, Unifies σ s.context.entries → ∀ x d k, .define x d k ∈ t.context.entries →
        subst σ (Ty.var x) = subst σ d) ∧
    ∀ e, s.unify = .error e →
      (∃ x text, e = .occurs x text) ∧ ∀ σ, ¬Unifies σ s.context.entries := by
  have hAnchored : Anchored s.context.entries := by
    intro c hc p hp
    rw [hDeps c hc] at hp
    cases hp
  constructor
  · intro t hRun
    obtain ⟨hSettled, hWellFormed, hSame⟩ := unify_eq_ok hs hRun
    have hSolution := (hSame _).mpr
      (model.satisfies_extend scoping (K := []) model.algebra.var hSettled hWellFormed.inScope
        hWellFormed.nodup)
    refine ⟨hSettled, fun l r he => ?_, fun x d k he => ?_, fun σ hσ x d k he => ?_⟩
    · rw [apply_eq_eval, apply_eq_eval]
      exact hSolution _ he
    · rw [apply_eq_eval, apply_eq_eval]
      exact hSolution _ he .type
    · have hTarget := unifies_iff.mpr ((hSame _).mp (unifies_iff.mp hσ))
      exact hTarget.definitions x d k he
  · intro e hRun
    obtain ⟨he, hNone⟩ := unify_eq_error hs hAnchored hRun
    exact ⟨he, fun σ hσ => hNone _ (unifies_iff.mp hσ)⟩

/-- Equations above a marker that determine a variable below it. -/
def crossingState : State language :=
  ⟨.empty, ⟨[.intro "a" .type, .intro "b" .type,
    .define "f" (.arrow (.var "a") (.var "b")) .type, .marker, .intro "c" .type,
    .ofGoal (.eq (.var "b") (.arrow (.var "c") (.var "c"))),
    .ofGoal (.eq (.var "f") (.arrow (.arrow (.var "c") (.var "c")) (.var "a")))]⟩⟩

/-- Equations that only an infinite type would solve. -/
def loopState : State language :=
  ⟨.empty, ⟨[.intro "a" .type, .marker, .intro "b" .type, .ofGoal (.eq (.var "a") (.var "b")),
    .ofGoal (.eq (.arrow (.var "a") (.var "a")) (.var "b"))]⟩⟩

theorem unify_mostGeneral_crossing_loop :
    (∃ t, crossingState.unify = .ok t ∧
      t.context.apply (Ty.var "f") =
        t.context.apply (Ty.arrow (.arrow (.var "c") (.var "c")) (.var "a")) ∧
      ∀ σ, Unifies σ crossingState.context.entries →
        subst σ (Ty.var "a") = subst σ (Ty.arrow (.var "c") (.var "c"))) ∧
    loopState.unify = .error (.occurs "a" "a -> a") ∧
      ∀ σ, ¬Unifies σ loopState.context.entries := by
  have hKind : Nonempty Kind := ⟨.type⟩
  constructor
  · have hWellFormed : scoping.WellFormed crossingState.context.entries := by
      refine ⟨?_, by decide⟩
      simp [crossingState, Sorting.Scoped, Sorting.Entry, Sorting.Goal, Sorting.Equation, scoping,
        Entry.ofGoal, Constraint.ofGoal, Entry.declared, Language.Telescope.Declares, Ty.freeVars]
    have hDeps : ∀ c, .constraint c ∈ crossingState.context.entries → c.deps = [] := by
      simp [crossingState, Entry.ofGoal, Constraint.ofGoal]
    have hRun : crossingState.unify.map (fun t => definitions t.context.entries) =
        .ok [("a", .arrow (.var "c") (.var "c")), ("b", .arrow (.var "c") (.var "c")),
          ("f", .arrow (.var "a") (.var "b"))] := by
      apply State.map_unify_of_unifyWithin? (n := 20)
      decide +kernel
    obtain ⟨t, hUnify, hDefinitions⟩ := map_eq_ok.mp hRun
    obtain ⟨k, hDefine⟩ := mem_definitions.mp (hDefinitions ▸ List.mem_cons_self)
    obtain ⟨-, hEquations, -, hGeneral⟩ := (unify_mostGeneral hWellFormed hDeps).1 t hUnify
    refine ⟨t, hUnify, hEquations _ _ (by simp [crossingState]), fun σ hσ => ?_⟩
    exact hGeneral σ hσ "a" _ k hDefine
  · have hWellFormed : scoping.WellFormed loopState.context.entries := by
      refine ⟨?_, by decide⟩
      simp [loopState, Sorting.Scoped, Sorting.Entry, Sorting.Goal, Sorting.Equation, scoping,
        Entry.ofGoal, Constraint.ofGoal, Entry.declared, Language.Telescope.Declares, Ty.freeVars]
    have hDeps : ∀ c, .constraint c ∈ loopState.context.entries → c.deps = [] := by
      simp [loopState, Entry.ofGoal, Constraint.ofGoal]
    have hRun : loopState.unify = .error (.occurs "a" "a -> a") := by
      apply State.unify_of_unifyWithin? (n := 20)
      rfl
    exact ⟨hRun, ((unify_mostGeneral hWellFormed hDeps).2 _ hRun).2⟩

end HindleyMilner.Simple
