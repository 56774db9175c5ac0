import HindleyMilner.Proofs.Completeness
import HindleyMilner.Proofs.Simple.Unification

/-! Inference of simple types against the typing rules. -/
namespace HindleyMilner.Simple

open Context TypeAlgebra

/-- Where types are taken apart only, an equation between a variable and a type
determines the variables of the type: substitution is one-to-one on the
variables that occur. -/
theorem determined : model.Determined scoping := by
  intro K deps g θ θ' hGoal hAnchors hθ hθ' hAgree p hp
  cases g with
  | special g => cases g
  | eq l r =>
      obtain ⟨⟨a, hVar, -⟩, hOccurs⟩ := hAnchors p hp
      obtain ⟨k, -, hLeft, -⟩ := hGoal
      -- The variable on the left is not carried along, so both solutions agree on it.
      have hSame : θ a .type = θ' a .type := by
        obtain ⟨j, hj⟩ := hLeft a (by cases l <;> cases hVar; exact List.mem_cons_self)
        cases j
        rcases List.mem_append.mp hj with hj | hj
        · exact hAgree _ hj
        · obtain ⟨⟨b, hb, hNe⟩, -⟩ := hAnchors _ hj
          rw [hVar] at hb
          cases hb
          exact absurd rfl hNe
      have hRight : model.eval θ .type r = model.eval θ' .type r := by
        rw [← (show model.eval θ .type l = model.eval θ .type r from hθ),
          ← (show model.eval θ' .type l = model.eval θ' .type r from hθ'),
          model.eval_var hVar, model.eval_var hVar]
        exact hSame
      exact Ty.eq_of_subst_eq hRight p.1 hOccurs

/-- All constraints are equations, so steps are moves, and moves
determine what they declare. -/
theorem stepsDetermine : StepsDetermine scoping model fun s => Anchored s.context.entries := by
  intro s t hs hAnchored hStep
  obtain ⟨-, hMoves⟩ := equationsOnly.step_moves hStep
  exact ⟨hMoves.determines determined hs.wellFormed hAnchored, hMoves.anchored hAnchored⟩

/-- The solver is complete without any excuse: a state with a solution is
solved, and its solutions are those of the result. -/
theorem completeSolver :
    CompleteSolver scoping model (fun _ _ => False) (Logged.unifyWith false) where
  compatible := compatible
  refines hs hRun := by
    rw [Logged.result_unifyWith] at hRun
    exact stepsRefine.unify hs hRun
  determines hSettled hs hRun := by
    rw [Logged.result_unifyWith] at hRun
    exact stepsDetermine.unify stepsRefine hs (State.anchored_equate hSettled _ _) hRun
  solves {s function argument θ} hSettled hs hθ := by
    rw [Logged.result_unifyWith]
    cases hRun : (s.equate function argument).unify with
    | ok t =>
        obtain ⟨-, -, hSame⟩ := unify_eq_ok hs.wellFormed hRun
        exact ⟨θ, (hSame θ).mp hθ, fun _ _ => rfl⟩
    | error e =>
        have hAnchored := State.anchored_equate hSettled function argument
        exact (unify_eq_error hs.wellFormed hAnchored hRun).2 θ hθ
  reduces ps _ := ⟨ps, rfl⟩
  literal _ _ h := by cases h

/-- A state that holds nothing but bindings of closed schemes. -/
def ClosedBindings (s : State language) : Prop :=
  ∀ e ∈ s.context.entries, ∃ x scheme, e = .bind x scheme ∧ freeVars scheme = []

/-- Bindings to schemes without free variables make a closed state. -/
theorem ClosedBindings.closed {s : State language} (h : ClosedBindings s) : scoping.Closed s := by
  intro e he
  obtain ⟨x, scheme, rfl, hClosed⟩ := h e he
  refine ⟨x, scheme, rfl, fun y hy => ?_⟩
  have hMem : y ∈ scheme.quantified.map Prod.fst := by
    refine Classical.byContradiction fun hNot => ?_
    have hFilter : y ∈ freeVars scheme :=
      List.mem_filter.mpr ⟨List.mem_append_left _ hy, decide_eq_true hNot⟩
    rw [hClosed] at hFilter
    cases hFilter
  have hSome : (scheme.quantified.reverse.lookup y).isSome := by
    obtain ⟨p, hp, rfl⟩ := List.mem_map.mp hMem
    exact List.lookup_isSome_iff.mpr ⟨p, List.mem_reverse.mpr hp, beq_self_eq_true _⟩
  obtain ⟨k, hk⟩ := Option.isSome_iff_exists.mp hSome
  exact ⟨k, .inl hk⟩

/-- What inference finds is a type of the term. -/
theorem infer_sound {s : State language} (hs : ClosedBindings s) {e : Term} {t : Ty}
    (h : inferType s e = .ok t) : Typing (model.environment s) e t := by
  obtain ⟨q, hInfer, rfl⟩ := inferType_eq_ok.mp h
  exact (typing_of_infer compatible stepsRefine hs.closed hInfer).2

/-- A state in which a constant function is bound. -/
def constantState : State language :=
  ⟨.empty, ⟨[.bind "k" ⟨[("a", .type), ("b", .type)],
    .ofType (.arrow (.var "a") (.arrow (.var "b") (.var "a")))⟩]⟩⟩

/-- An identity function that is used at two types. -/
def polymorphicTerm : Term :=
  .letIn "i" (.lam "x" (.var "x")) (.app (.app (.var "i") (.var "i")) (.var "k"))

theorem closedBindings_constantState : ClosedBindings constantState := by
  intro e he
  rw [List.mem_singleton.mp he]
  exact ⟨_, _, rfl, by decide⟩

theorem infer_polymorphicTerm : inferType constantState polymorphicTerm =
    .ok (.arrow (.var "t4") (.arrow (.var "t5") (.var "t4"))) := by
  apply inferType_of_inferWithin (n := 20)
  decide +kernel

theorem infer_sound_polymorphicTerm :
    inferType constantState polymorphicTerm =
      .ok (.arrow (.var "t4") (.arrow (.var "t5") (.var "t4"))) ∧
    Typing (model.environment constantState) polymorphicTerm
      (Ty.arrow (.var "t4") (.arrow (.var "t5") (.var "t4"))) :=
  ⟨infer_polymorphicTerm, infer_sound closedBindings_constantState infer_polymorphicTerm⟩

/-- Inference finds a type for every term that has one. What it finds is itself
a type of the term, and every type of the term is an instance of it. -/
theorem infer_principal {s : State language} (hs : ClosedBindings s) {e : Term} {t : Ty}
    (h : Typing (model.environment s) e t) :
    ∃ principal, inferType s e = .ok principal ∧
      Typing (model.environment s) e principal ∧
      ∃ σ : Assignment Ty, t = subst σ principal := by
  have hYields := infer_of_typing completeSolver (fun _ => trivial) hs.closed h
  cases hInfer : infer s e with
  | error err =>
      rw [hInfer] at hYields
      exact hYields.elim
  | ok q =>
      rw [hInfer] at hYields
      obtain ⟨θ, hθ⟩ := hYields
      have hTyping := (typing_of_infer compatible stepsRefine hs.closed hInfer).2
      exact ⟨q.head, inferType_eq_ok.mpr ⟨q, hInfer, rfl⟩, hTyping, fun x => some (θ x .type),
        hθ.symm⟩

theorem infer_principal_polymorphicTerm :
    Typing (model.environment constantState) polymorphicTerm
      (Ty.arrow (.arrow (.var "p") (.var "q")) (.arrow (.var "p") (.arrow (.var "p") (.var "q")))) ∧
    inferType constantState polymorphicTerm =
      .ok (.arrow (.var "t4") (.arrow (.var "t5") (.var "t4"))) ∧
    Typing (model.environment constantState) polymorphicTerm
      (Ty.arrow (.var "t4") (.arrow (.var "t5") (.var "t4"))) ∧
    ∃ σ : Assignment Ty, Ty.arrow (.arrow (.var "p") (.var "q"))
        (.arrow (.var "p") (.arrow (.var "p") (.var "q"))) =
      subst σ (Ty.arrow (.var "t4") (.arrow (.var "t5") (.var "t4"))) := by
  have hIdentity : ∀ v : Ty, (TypeAlgebra.generalize (model.environment constantState)
      (Ty.arrow (.var "a") (.var "a"))).Instance (Ty.arrow v v) := by
    intro v
    refine ⟨fun x _ => if x = "a" then v else .var x, fun x k hx => if_neg ?_, rfl⟩
    rintro rfl
    cases k
    exact hx (by decide)
  have hConstant : TypeAlgebra.Scheme.Instance (A := algebra)
      ⟨[("a", .type), ("b", .type)], Ty.arrow (.var "a") (.arrow (.var "b") (.var "a"))⟩
      (Ty.arrow (.arrow (.var "p") (.var "q"))
        (.arrow (.var "p") (.arrow (.var "p") (.var "q")))) := by
    refine ⟨fun x _ => if x = "a" then .arrow (.var "p") (.var "q") else
      if x = "b" then .var "p" else .var x, fun x k hx => ?_, rfl⟩
    cases k
    have hNot : x ≠ "a" ∧ x ≠ "b" := by simpa using hx
    exact (if_neg hNot.1).trans (if_neg hNot.2)
  have hTyping : Typing (model.environment constantState) polymorphicTerm
      (Ty.arrow (.arrow (.var "p") (.var "q"))
        (.arrow (.var "p") (.arrow (.var "p") (.var "q")))) := by
    apply Typing.letIn (a := Ty.arrow (.var "a") (.var "a"))
    · apply Typing.lam
      exact .var rfl (Scheme.instance_mono.mpr rfl)
    · apply Typing.app
      · exact .app (.var rfl (hIdentity _)) (.var rfl (hIdentity _))
      · exact .var rfl hConstant
  obtain ⟨principal, hFound, hPrincipal⟩ :=
    infer_principal closedBindings_constantState hTyping
  rw [infer_polymorphicTerm] at hFound
  cases hFound
  exact ⟨hTyping, infer_polymorphicTerm, hPrincipal⟩

end HindleyMilner.Simple
