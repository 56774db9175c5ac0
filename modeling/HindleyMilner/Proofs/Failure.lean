import HindleyMilner.Proofs.Soundness

/-! How inference can fail. Where the solver and the rules of a language fail only in
some ways, inference fails only in those: it finds the binding and the marker that it
has put down. -/
namespace HindleyMilner

open Context

/-- A computation whose errors are all of some sort. -/
def FailsOnly (P : TypeError → Prop) {α : Type} (m : Except TypeError α) : Prop :=
  ∀ e, m = .error e → P e

namespace FailsOnly

variable {P : TypeError → Prop} {α β : Type}

theorem ok (a : α) : FailsOnly P (.ok a) := fun _ h => nomatch h

/-- A failure has to be one of those that are allowed. -/
theorem error {e : TypeError} (h : P e) : FailsOnly P (.error e : Except _ α) := by
  intro e' he
  cases he
  exact h

/-- A computation fails as its first part does, or as the second does on what
the first has found. -/
theorem bind {m : Except TypeError α} {f : α → Except TypeError β} (hm : FailsOnly P m)
    (hf : ∀ a, m = .ok a → FailsOnly P (f a)) : FailsOnly P (m >>= f) := by
  cases m with
  | ok a => exact hf a rfl
  | error e => exact error (hm e rfl)

/-- What fails in some ways only fails in no others than any larger set of ways. -/
theorem mono {Q : TypeError → Prop} {m : Except TypeError α} (h : FailsOnly P m)
    (hPQ : ∀ e, P e → Q e) : FailsOnly Q m := fun e he => hPQ e (h e he)

end FailsOnly

/-- An error about types, kinds, classes or units, and not about a term, a
context or a solution. -/
def TypeError.IsOfRules : TypeError → Prop
  | unboundVariable _ => False
  | occurs _ _ => False
  | malformed _ => False
  | _ => True

variable {L : Language} [Rules L] {P : TypeError → Prop}

/-- The rules of a language fail only with errors of their own. -/
structure OwnErrors (L : Language) [Rules L] : Prop where
  decompose : ∀ l r : L.Ty, FailsOnly TypeError.IsOfRules (Rules.decompose l r)
  flexRigid : ∀ (supply : Supply) (deps : L.Telescope) (eq : FlexRigid L),
    FailsOnly TypeError.IsOfRules (Rules.flexRigid supply deps eq)
  literal : ∀ value : Binary64, FailsOnly TypeError.IsOfRules (Rules.literal (L := L) value)
  reduce : ∀ (ps : List L.Pred) (ctx : Context L),
    FailsOnly TypeError.IsOfRules (Rules.reduce ps ctx)
  finish : ∀ t : L.Ty, FailsOnly TypeError.IsOfRules (Rules.finish t)

namespace Focus

variable (hMalformed : ∀ reason, P (.malformed reason)) {f : Focus L}

include hMalformed

omit [Rules L] in
theorem pop_failsOnly : FailsOnly P f.pop := by
  obtain ⟨supply, below, above⟩ := f
  cases below with
  | nil => exact .error (hMalformed _)
  | cons top below => exact .ok _

omit [Rules L] in
/-- The solver itself fails where a variable would contain itself, and otherwise
blames its context. -/
theorem walk_failsOnly (hOccurs : ∀ x type, P (.occurs x type)) (goal : Goal L)
    (deps : L.Telescope) (eq : FlexRigid L) : FailsOnly P (f.walk goal deps eq) := by
  apply (pop_failsOnly hMalformed).bind
  rintro ⟨top, f'⟩ _
  cases top with
  | intro x kind =>
      simp only
      split
      · split
        · exact .error (hOccurs _ _)
        · exact .ok _
      · split
        · exact .ok _
        · exact .ok _
  | constraint c => exact .error (hMalformed _)
  | _ => exact .ok _

omit [Rules L] in
theorem meetVars_failsOnly (a b : Name) (l r : L.Ty) : FailsOnly P (f.meetVars a b l r) := by
  apply (pop_failsOnly hMalformed).bind
  rintro ⟨top, f'⟩ _
  cases top with
  | intro x kind =>
      simp only
      split
      · exact .ok _
      · split
        · exact .ok _
        · exact .ok _
  | define x type kind =>
      simp only
      split
      · exact .ok _
      · exact .ok _
  | constraint c => exact .error (hMalformed _)
  | _ => exact .ok _

/-- An equation fails in the ways of the solver, or in those of the language
where types are taken apart or a variable meets another type. -/
theorem solveEq_failsOnly (hOccurs : ∀ x type, P (.occurs x type)) {deps : L.Telescope} {l r : L.Ty}
    (hDecompose : FailsOnly P (Rules.decompose l r))
    (hFlex : ∀ eq : FlexRigid L, eq.rigid = l ∨ eq.rigid = r →
      FailsOnly P (Rules.flexRigid f.supply deps eq)) : FailsOnly P (f.solveEq deps l r) := by
  have hFlexRigid : ∀ eq : FlexRigid L, eq.rigid = l ∨ eq.rigid = r →
      FailsOnly P (f.flexRigid deps eq) := by
    intro eq hSide
    apply (hFlex eq hSide).bind
    intro made _
    cases made with
    | none => exact walk_failsOnly hMalformed hOccurs _ deps eq
    | some made => exact .ok _
  rw [solveEq]
  split
  · exact hFlexRigid _ (.inr rfl)
  · exact hFlexRigid _ (.inl rfl)
  · split
    · exact .ok _
    · exact meetVars_failsOnly hMalformed _ _ l r
  · exact hDecompose.bind fun goals _ => .ok _

end Focus

/-- A run fails only in ways in which a step does, by an invariant of the steps. -/
theorem State.unify_failsOnly [Terminating L] (Inv : State L → Prop)
    (hStep : ∀ {s t : State L}, Inv s → s.step = .ok t → Inv t)
    (hFails : ∀ {s : State L}, Inv s → FailsOnly P s.step) {s : State L} (hs : Inv s) :
    FailsOnly P s.unify := by
  intro e h
  fun_induction State.unify s with
  | case1 s hCan t ht ih => exact ih (hStep hs ht) h
  | case2 s hCan err hError =>
      cases h
      exact hFails hs _ hError
  | case3 s hCan => cases h

/-- Generalizing fails only as reducing the predicates does. -/
theorem generalize_failsOnly
    (hReduce : ∀ (ps : List L.Pred) (ctx : Context L), FailsOnly P (Rules.reduce ps ctx))
    (ctx : Context L) (above : List (Entry L)) (type : L.Qualified) :
    FailsOnly P (generalize ctx above type) := by
  have hSplit : ∀ ps generalized, FailsOnly P (splitPredicates ps ctx generalized) :=
    fun ps _ => (hReduce ps ctx).bind fun _ _ => .ok _
  exact (hSplit _ _).bind fun _ _ => .ok _

/-- What inference asks of the solver and of the rules fails only in some ways. -/
structure FailureRules [Sized L] [FreeVars L.Special] [Terminating L] (D : Discipline L)
    (P : TypeError → Prop) : Prop where
  unbound : ∀ x, P (.unboundVariable x)
  literal : ∀ value : Binary64, FailsOnly P (Rules.literal (L := L) value)
  reduce : ∀ (ps : List L.Pred) (ctx : Context L), FailsOnly P (Rules.reduce ps ctx)
  finish : ∀ {K : L.Scope} {t : L.Ty}, D.Ty K t L.valueKind → FailsOnly P (Rules.finish t)
  solve : ∀ {s : State L} {function argument : L.Ty}, Settled s.context.entries →
    D.Good (s.equate function argument) → FailsOnly P (s.equate function argument).unify

namespace FailureRules

variable [Sized L] [FreeVars L.Special] [Terminating L] [DecidableEq L.Kind] {D : Discipline L}
  {M : Model L} (hRules : FailureRules D P)

include hRules

/-- Synthesis finds every binding that it has to remove and every marker that it
has to generalize above. -/
theorem synthesize_failsOnly (hCompatible : M.Compatible D) (hSteps : StepsRefine D M) (e : Term)
    (depth : Nat) {s : State L} (hs : D.Good s) (hSettled : Settled s.context.entries) :
    FailsOnly P (synthesize (Logged.unifyWith false) e depth s).result := by
  have hSound : ∀ {e : Term} {depth : Nat} {s : State L} {r : Synthesis L},
      D.Good s → Settled s.context.entries →
      (synthesize (Logged.unifyWith false) e depth s).result = .ok r →
      Sound D M e s r := by
    intro e depth s r hs hSettled h
    rw [synthesize_eq_ok] at h
    refine h.sound hCompatible (fun hGood hRun => ?_) hs hSettled
    rw [Logged.result_unifyWith] at hRun
    exact hSteps.unify hGood hRun
  induction e generalizing depth s with
  | var x =>
      rw [result_synthesize_var]
      split
      · exact .error (hRules.unbound x)
      · exact .ok _
  | lam x body ih =>
      rw [result_synthesize_lam]
      have hEntered := hs.enterLam x
      have hEnteredSettled := State.settled_enterLam hSettled x
      apply (ih _ hEntered hEnteredSettled).bind
      intro inner hInner
      obtain ⟨rest, hRest, -⟩ := (hSound hEntered hEnteredSettled hInner).removes
      rw [hRest]
      exact .ok _
  | app function argument ihFunction ihArgument =>
      rw [result_synthesize_app]
      apply (ihFunction _ hs hSettled).bind
      intro f hf
      have hFunction := hSound hs hSettled hf
      apply (ihArgument _ hFunction.refines.good hFunction.settled).bind
      intro a ha
      have hArgument := hSound hFunction.refines.good hFunction.settled ha
      rw [Logged.result_unifyWith]
      apply (hRules.solve hArgument.settled (hFunction.good_equate hArgument)).bind
      exact fun solved _ => .ok _
  | letIn x bound body ihBound ihBody =>
      rw [result_synthesize_letIn]
      have hMarked := State.settled_marker hSettled
      apply (ihBound _ hs.push_marker hMarked).bind
      intro b hb
      obtain ⟨pre, post, hSkim, hGeneralizes⟩ := (hSound hs.push_marker hMarked hb).generalizes
      rw [hSkim]
      apply (generalize_failsOnly hRules.reduce _ _ _).bind
      intro made hMade
      have hBound := hGeneralizes.good_bind hMade x
      apply (ihBody _ hBound hGeneralizes.settled_bind).bind
      intro inner hInner
      obtain ⟨rest, hRest, -⟩ := (hSound hBound hGeneralizes.settled_bind hInner).removes
      rw [hRest]
      exact .ok _
  | float value =>
      rw [result_synthesize_float]
      exact (hRules.literal value).bind fun _ _ => .ok _

/-- Inference fails in the ways of synthesis, or in those in which the
predicates of its type are resolved. -/
theorem infer_failsOnly (hCompatible : M.Compatible D) (hSteps : StepsRefine D M) {s : State L}
    (hs : D.Good s) (hSettled : Settled s.context.entries) (e : Term) :
    FailsOnly P (infer s e) := by
  rw [result_infer]
  apply (hRules.synthesize_failsOnly hCompatible hSteps e 0 hs hSettled).bind
  intro r hRun
  rw [synthesize_eq_ok] at hRun
  have hSound : Sound D M e s r := by
    refine hRun.sound hCompatible (fun hGood hSolve => ?_) hs hSettled
    rw [Logged.result_unifyWith] at hSolve
    exact hSteps.unify hGood hSolve
  apply (hRules.finish hSound.ty_apply).bind
  intro head _
  exact (hRules.reduce _ _).bind fun _ _ => .ok _

end FailureRules

end HindleyMilner
