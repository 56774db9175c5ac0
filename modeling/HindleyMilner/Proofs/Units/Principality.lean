import HindleyMilner.Proofs.Completeness
import HindleyMilner.Proofs.Runs
import HindleyMilner.Proofs.Units.Overflow

/-! Inference with units finds a principal type of every term that has one, up to the laws
of units, as long as the exponents fit that it computes on the way. -/
namespace HindleyMilner.Units

open Context TypeAlgebra

/-- A run comes to a step that fails, and an exponent of that step does not fit. -/
def RunOverflows (s : State language) (e : TypeError) : Prop :=
  ∃ t, s.Reaches t ∧ t.step = .error e ∧ (reckonAny t).Overflows

/-- From a state with a solution, solving ends in a state with a solution
that gives the declared variables the same values, or fails because an
exponent of the run does not fit. The induction is on the run, and every
step carries the solution on. -/
theorem unify_yields {s : State language} (hs : Ready s) {θ : model.Valuation}
    (hθ : Fulfils θ s.context.entries) :
    Yields (fun e => IsUnitMismatch e ∧ RunOverflows s e) s.unify fun t =>
      ∃ θ', model.Satisfies θ' t.context.entries ∧
        model.Agree (declared s.context.entries) θ' θ := by
  fun_induction State.unify s generalizing θ with
  | case1 s hCan t hStep ih =>
      obtain ⟨θ₁, hAgree, hθ₁⟩ := fulfils_step hs.good hStep hθ
      have hSubset := (stepsRefine hs.good hStep).toExtends.declared_subset
      have hYields := ih (hs.step hStep) hθ₁
      cases hRun : t.unify with
      | ok u =>
          rw [hRun] at hYields
          obtain ⟨θ', hHolds, hAgree'⟩ := hYields
          exact ⟨θ', hHolds, (hAgree'.mono hSubset).trans hAgree⟩
      | error e =>
          rw [hRun] at hYields
          obtain ⟨hMismatch, u, hReaches, hError⟩ := hYields
          exact ⟨hMismatch, u, .head ⟨hCan, hStep⟩ hReaches, hError⟩
  | case2 s hCan e hStep =>
      have hResult := (result_reckonAny s).trans hStep
      obtain ⟨hMismatch, hOverflows⟩ := reckonAny_failsByOverflow hs hθ e hResult
      exact ⟨hMismatch, s, .refl, hStep, hOverflows⟩
  | case3 s hCan => exact hθ.exists_satisfies hs.good.wellFormed (State.settled_of_not_canStep hCan)

/-- The solver is complete, with the excuse that an exponent does not fit. What
completeness asks of the rules holds because predicates are not there and
literals are plain numbers. -/
theorem completeSolver : CompleteSolver kinding model
    (fun s e => IsUnitMismatch e ∧ RunOverflows s e) (Logged.unifyWith false) where
  compatible := compatible
  refines hs hRun := by
    rw [Logged.result_unifyWith] at hRun
    exact stepsRefine.unify hs hRun
  determines hSettled hs hRun := by
    rw [Logged.result_unifyWith] at hRun
    exact stepsDetermine.unify stepsRefine hs (.equate hSettled hs) hRun
  solves hSettled hs hθ := by
    rw [Logged.result_unifyWith]
    exact unify_yields (.equate hSettled hs) (fulfils_of_satisfies hθ)
  reduces ps _ := ⟨ps, rfl⟩
  literal _ _ h := by
    cases h
    exact ⟨.float .one, rfl, rfl⟩

/-- The canonical form of a type, with the exponents that are computed. -/
def Ty.reckonCanonical : Ty → Reckoning Ty
  | arrow a b => do
      let a ← a.reckonCanonical
      let b ← b.reckonCanonical
      pure (arrow a b)
  | float u => do
      let m ← u.reckonMeasure
      pure (float m.toType)
  | mul a b => do
      let m ← (mul a b).reckonMeasure
      pure m.toType
  | pow a e => do
      let m ← (pow a e).reckonMeasure
      pure m.toType
  | t => .ofExcept t.canonical

/-- Telling exponents changes nothing about the canonical form. -/
theorem Ty.result_reckonCanonical (t : Ty) : t.reckonCanonical.result = t.canonical := by
  induction t with
  | arrow a b iha ihb =>
      simp only [reckonCanonical, Reckoning.result_bind, iha, ihb]
      rfl
  | float u =>
      simp only [reckonCanonical, Reckoning.result_bind, result_reckonMeasure]
      rfl
  | mul a b =>
      simp only [reckonCanonical, Reckoning.result_bind, result_reckonMeasure]
      rfl
  | pow a e =>
      simp only [reckonCanonical, Reckoning.result_bind, result_reckonMeasure]
      rfl
  | _ => rfl

/-- The canonical form of a value type fails by overflow alone. -/
theorem reckonCanonical_failsByOverflow {K : language.Scope} {t : Ty} (h : HasKind K t .value) :
    t.reckonCanonical.FailsByOverflow := by
  induction t with
  | var x => exact .of_ok rfl
  | arrow a b iha ihb =>
      cases h with
      | arrow ha hb => exact (iha ha).bind fun a _ => (ihb hb).bind fun b _ => .of_ok rfl
  | float u =>
      cases h with
      | float hu => exact (Ty.reckonMeasure_failsByOverflow hu).bind fun m _ => .of_ok rfl
  | _ => cases h

/-- So it is found, or an exponent that it needs does not fit. -/
theorem canonical_yields {K : language.Scope} {t : Ty} (h : HasKind K t .value) :
    Yields (fun e => IsUnitMismatch e ∧ t.canonical = .error e ∧ t.reckonCanonical.Overflows)
      t.canonical fun _ => True := by
  cases hCanonical : t.canonical with
  | ok u => trivial
  | error e =>
      have hResult := t.result_reckonCanonical.trans hCanonical
      obtain ⟨hMismatch, hOverflows⟩ := reckonCanonical_failsByOverflow h e hResult
      exact ⟨hMismatch, rfl, hOverflows⟩

/-- Every element of the group is what some type stands for. It is built factor
by factor, and power by power, so that no exponent has to fit. -/
theorem exists_toUnit (u : UnitGroup) :
    ∃ t, HasKind (fun _ _ => True) t .unit ∧ t.toUnit = u := by
  have hFactor : ∀ f : Factor, ∃ t, HasKind (fun _ _ => True) t .unit ∧
      t.toUnit = Finsupp.single f 1
    | .var x => ⟨.var x, .var trivial, rfl⟩
    | .prim p => ⟨.prim p, .prim p, rfl⟩
  induction u using Finsupp.induction_linear with
  | zero => exact ⟨.one, .one, rfl⟩
  | add u v ihu ihv =>
      obtain ⟨a, ha, rfl⟩ := ihu
      obtain ⟨b, hb, rfl⟩ := ihv
      exact ⟨.mul a b, .mul ha hb, rfl⟩
  | single f n =>
      obtain ⟨t, ht, hUnit⟩ := hFactor f
      induction n using Int.induction_on with
      | zero => exact ⟨.one, .one, (Finsupp.single_zero f).symm⟩
      | succ n ih =>
          obtain ⟨a, ha, hValue⟩ := ih
          refine ⟨.mul a t, .mul ha ht, ?_⟩
          rw [Ty.toUnit, hValue, hUnit, Finsupp.single_add]
      | pred n ih =>
          obtain ⟨a, ha, hValue⟩ := ih
          refine ⟨.mul a (.pow t (-1)), .mul ha (.pow ht (-1)), ?_⟩
          rw [Ty.toUnit, Ty.toUnit, hValue, hUnit, Finsupp.single_sub, sub_eq_add_neg]
          exact congrArg _ (neg_one_zsmul _)

/-- Every value is what some type stands for, by induction on the value. -/
theorem exists_denote : (k : Kind) → (v : Meaning k) →
    ∃ t, HasKind (fun _ _ => True) t k ∧ t.denote k = v
  | .unit, u => exists_toUnit u
  | .value, v => by
      induction v with
      | var x => exact ⟨.var x, .var trivial, rfl⟩
      | arrow a b iha ihb =>
          obtain ⟨c, hc, rfl⟩ := iha
          obtain ⟨d, hd, rfl⟩ := ihb
          exact ⟨.arrow c d, .arrow hc hd, rfl⟩
      | float u =>
          obtain ⟨t, ht, rfl⟩ := exists_toUnit u
          exact ⟨.float t, .float ht, rfl⟩

/-- Values of the variables of a type can be substituted in it: every value is
what some type stands for, and that type is put for the variable. -/
theorem exists_subst {K : language.Telescope} (hNodup : (K.map Prod.fst).Nodup) {t : Ty}
    (h : HasKind K.Declares t .value) (θ : model.Valuation) :
    ∃ σ : Assignment Ty, HasKind (fun _ _ => True) (subst σ t) .value ∧
      (subst σ t).toValue = model.eval θ .value t := by
  choose type hType using fun (p : Name × Kind) => exists_denote p.2 (θ p.1 p.2)
  let σ : Assignment Ty := fun x => (K.lookup x).map fun k => type (x, k)
  have hσ : ∀ {x : Name} {k : Kind}, K.Declares x k → σ x = some (type (x, k)) := by
    intro x k hx
    simp only [σ, Name.lookup_of_nodup hNodup hx, Option.map_some]
  refine ⟨σ, h.subst fun x k _ hx => .inl ⟨_, hσ hx, (hType (x, k)).1⟩, ?_⟩
  have hEval : model.eval model.algebra.var .value (subst σ t) = model.eval θ .value t := by
    rw [model.eval_subst]
    apply model.algebra.subst_congr
    intro p hp
    simp only [Reading.assign, hσ (compatible h p hp)]
    exact (model.eval_id _ _).trans (hType p).2
  exact (model.eval_id .value _).symm.trans hEval

/-- Inference fails where an exponent does not fit: in the run that has to
solve the equation of an application, or when the type that was found is
brought to canonical form. -/
def InferenceOverflows (s : State language) (e : Term) (err : TypeError) : Prop :=
  (∃ problem, Poses State.unify e s problem ∧ RunOverflows problem err) ∨
    ∃ r, Synthesizes State.unify e s r ∧
      (r.state.context.normalize.apply r.type.head).canonical = .error err ∧
      (Ty.reckonCanonical (r.state.context.normalize.apply r.type.head)).Overflows

/-- Of a term that has a type, inference finds a type of the term of which that
one is an instance, both up to the laws of units. Otherwise it fails with a
mismatch of units because an exponent does not fit. -/
theorem infer_principal_upToUnits {s : State language} (hs : kinding.Closed s) {e : Term}
    {τ : ValueTy} (h : Typing (model.environment s) e τ) :
    (∃ t, inferType s e = .ok t ∧ Typing (model.environment s) e t.toValue ∧
      ∃ σ : Assignment Ty,
        HasKind (fun _ _ => True) (subst σ t) .value ∧ (subst σ t).toValue = τ) ∨
    ∃ text, inferType s e = .error (.unitMismatch text) ∧
      InferenceOverflows s e (.unitMismatch text) := by
  have hYields : Yields (fun err => IsUnitMismatch err ∧ InferenceOverflows s e err) (infer s e)
      fun q => ∃ θ, model.eval θ .value q.head = τ := by
    refine infer_yields completeSolver hs ?_ (fun r hr hSound => ?_) h
    · rintro err ⟨problem, hPoses, -, hMismatch, hOverflows⟩
      simp only [Logged.result_unifyWith] at hPoses
      exact ⟨hMismatch, .inl ⟨problem, hPoses, hOverflows⟩⟩
    · apply (canonical_yields hSound.ty_apply).excuse_mono
      rintro err - ⟨hMismatch, hOverflows⟩
      exact ⟨hMismatch, .inr ⟨r, hr, hOverflows⟩⟩
  cases hInfer : infer s e with
  | ok q =>
      left
      rw [hInfer] at hYields
      obtain ⟨θ, rfl⟩ := hYields
      obtain ⟨⟨K, u, hNodup, hKind, hFinish⟩, hTyping⟩ :=
        typing_of_infer compatible stepsRefine hs hInfer
      exact ⟨q.head, inferType_eq_ok.mpr ⟨q, hInfer, rfl⟩, hTyping,
        exists_subst hNodup (HasKind.canonical hKind hFinish) θ⟩
  | error err =>
      right
      rw [hInfer] at hYields
      obtain ⟨⟨text, rfl⟩, hOverflows⟩ := hYields
      refine ⟨text, ?_, hOverflows⟩
      rw [inferType, hInfer]
      rfl

/-- A state with multiplication at all units, a length, and a number whose unit
has the largest exponent. -/
def extremeState : State language :=
  measuringState.push (.bind "n" ⟨[], .ofType (.float (.pow (.prim "m") 2147483647))⟩)

theorem closed_extremeState : kinding.Closed extremeState := by
  intro e he
  rcases List.mem_append.mp he with he | he
  · exact closed_measuringState e he
  · rw [List.mem_singleton.mp he]
    exact ⟨_, _, rfl, .float (.pow (.prim "m") 2147483647)⟩

theorem typing_mul {Γ : algebra.Env} (hΓ : Γ.lookup "mul" =
      some ⟨[("u", .unit), ("v", .unit)], ValueTy.arrow (.float (.var "u"))
        (.arrow (.float (.var "v")) (.float (.var "u" + .var "v")))⟩) (u v : UnitGroup) :
    Typing Γ (.var "mul") (ValueTy.arrow (.float u) (.arrow (.float v) (.float (u + v)))) := by
  let ρ : Name → UnitGroup := fun x => if x = "u" then u else if x = "v" then v else .var x
  let η : algebra.Valuation
    | x, .unit => ρ x
    | x, .value => ValueTy.var x
  refine .var hΓ ⟨η, fun x k hx => ?_, ?_⟩
  · cases k with
    | value => rfl
    | unit =>
        have hNot : x ≠ "u" ∧ x ≠ "v" := by simpa using hx
        exact (if_neg hNot.1).trans (if_neg hNot.2)
  · change _ = ValueTy.arrow (.float (UnitGroup.subst ρ (.var "u")))
      (.arrow (.float (UnitGroup.subst ρ (.var "v")))
        (.float (UnitGroup.subst ρ (.var "u" + .var "v"))))
    rw [map_add, UnitGroup.subst_var, UnitGroup.subst_var]
    rfl

def squareFunction : Term := .lam "x" (.app (.app (.var "mul") (.var "x")) (.var "x"))

def squareType : Ty := .arrow (.float (.pow (.var "h0") 1)) (.float (.pow (.var "h0") 2))

/-- A product whose unit has an exponent that does not fit. -/
def hugeProduct : Term := .app (.app (.var "mul") (.var "n")) (.var "n")

theorem infer_principal_upToUnits_products :
    (Typing (model.environment extremeState) squareFunction
        (Ty.arrow (.float (.prim "m")) (.float (.mul (.prim "m") (.prim "m")))).toValue ∧
      inferType extremeState squareFunction = .ok squareType ∧
      Typing (model.environment extremeState) squareFunction squareType.toValue ∧
      ∃ σ : Assignment Ty,
        HasKind (fun _ _ => True) (subst σ squareType) .value ∧ (subst σ squareType).toValue =
          (Ty.arrow (.float (.prim "m")) (.float (.mul (.prim "m") (.prim "m")))).toValue) ∧
    inferType extremeState hugeProduct = .error (.unitMismatch "m^2147483647") ∧
      InferenceOverflows extremeState hugeProduct (.unitMismatch "m^2147483647") := by
  have hSquare : inferType extremeState squareFunction = .ok squareType := by
    apply inferType_of_inferWithin (n := 40)
    decide +kernel
  have hHuge : inferType extremeState hugeProduct = .error (.unitMismatch "m^2147483647") := by
    apply inferType_of_synthesizeWithin (n := 40)
    decide +kernel
  have hSquareTyping : Typing (model.environment extremeState) squareFunction
      (Ty.arrow (.float (.prim "m")) (.float (.mul (.prim "m") (.prim "m")))).toValue := by
    apply Typing.lam
    apply Typing.app
    · apply Typing.app
      · exact typing_mul rfl (.prim "m") (.prim "m")
      · exact .var rfl (Scheme.instance_mono.mpr rfl)
    · exact .var rfl (Scheme.instance_mono.mpr rfl)
  have hHugeTyping : Typing (model.environment extremeState) hugeProduct
      (Ty.float (.mul (.pow (.prim "m") 2147483647) (.pow (.prim "m") 2147483647))).toValue := by
    apply Typing.app
    · apply Typing.app
      · exact typing_mul rfl _ _
      · exact .var rfl (Scheme.instance_mono.mpr rfl)
    · exact .var rfl (Scheme.instance_mono.mpr rfl)
  constructor
  · refine ⟨hSquareTyping, ?_⟩
    rcases infer_principal_upToUnits closed_extremeState hSquareTyping with
      ⟨_, hFound, hPrincipal⟩ | ⟨_, hError, -⟩
    · rw [hSquare] at hFound
      cases hFound
      exact ⟨hSquare, hPrincipal⟩
    · rw [hSquare] at hError
      cases hError
  · refine ⟨hHuge, ?_⟩
    rcases infer_principal_upToUnits closed_extremeState hHugeTyping with ⟨_, hFound, -⟩ |
      ⟨text, hError, hOverflows⟩
    · rw [hHuge] at hFound
      cases hFound
    · rw [hHuge] at hError
      cases hError
      exact hOverflows

end HindleyMilner.Units
