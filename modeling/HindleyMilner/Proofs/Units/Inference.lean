import HindleyMilner.Proofs.Evaluation
import HindleyMilner.Proofs.Soundness
import HindleyMilner.Proofs.Units.Unification

/-! Inference of types with units against the typing rules, whose types are taken up to
the laws of units. -/
namespace HindleyMilner.Units

open Context TypeAlgebra

/-- What inference finds is a value type, with variables of one kind each, and
a type of the term. -/
theorem infer_sound_upToUnits {s : State language} (hs : kinding.Closed s) {e : Term} {t : Ty}
    (h : inferType s e = .ok t) :
    (∃ K : language.Telescope, (K.map Prod.fst).Nodup ∧ HasKind K.Declares t .value) ∧
      Typing (model.environment s) e t.toValue := by
  obtain ⟨q, hInfer, rfl⟩ := inferType_eq_ok.mp h
  obtain ⟨⟨K, u, hNodup, hKind, hFinish⟩, hTyping⟩ :=
    typing_of_infer compatible stepsRefine hs hInfer
  exact ⟨⟨K, hNodup, HasKind.canonical hKind hFinish⟩, hTyping⟩

/-- A state with multiplication at all units, and a length. -/
def measuringState : State language :=
  ⟨.empty, ⟨[
    .bind "mul" ⟨[("u", .unit), ("v", .unit)], .ofType (.arrow (.float (.var "u"))
      (.arrow (.float (.var "v")) (.float (.mul (.var "u") (.var "v")))))⟩,
    .bind "m" ⟨[], .ofType (.float (.prim "m"))⟩]⟩⟩

/-- A square function that is used at two units. -/
def squareTerm : Term :=
  .letIn "sq" (.lam "x" (.app (.app (.var "mul") (.var "x")) (.var "x")))
    (.app (.app (.var "mul") (.app (.var "sq") (.var "m")))
      (.app (.var "sq") (.float ⟨0x3FF0000000000000⟩)))

theorem closed_measuringState : kinding.Closed measuringState := by
  intro e he
  simp only [measuringState, List.mem_cons, List.not_mem_nil, or_false] at he
  rcases he with rfl | rfl
  · refine ⟨_, _, rfl, .arrow (.float (.var (.inl rfl))) (.arrow (.float (.var (.inl rfl))) ?_)⟩
    exact .float (.mul (.var (.inl rfl)) (.var (.inl rfl)))
  · exact ⟨_, _, rfl, .float (.prim "m")⟩

theorem infer_sound_upToUnits_squareTerm :
    inferType measuringState squareTerm = .ok (.float (.pow (.prim "m") 2)) ∧
    (∃ K : language.Telescope, (K.map Prod.fst).Nodup ∧
      HasKind K.Declares (.float (.pow (.prim "m") 2)) .value) ∧
    Typing (model.environment measuringState) squareTerm
      (Ty.float (.pow (.prim "m") 2)).toValue := by
  have hInfer : inferType measuringState squareTerm = .ok (.float (.pow (.prim "m") 2)) := by
    apply inferType_of_inferWithin (n := 40)
    decide +kernel
  exact ⟨hInfer, infer_sound_upToUnits closed_measuringState hInfer⟩

end HindleyMilner.Units
