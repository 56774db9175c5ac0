import HindleyMilner.Proofs.Soundness

/-! Which variables are determined by others. On its way through a context the
solver may take a variable below a marker, where a let cannot quantify it. It does
so only if the value of the variable is determined by what was below the marker
before, so nothing is lost. -/
namespace HindleyMilner

open Context

variable {L : Language} [Rules L] [Sized L]

/-- In the second context, what is declared below a fixed entry is determined by
what the first one declares below it. -/
def Determines (M : Model L) (es fs : List (Entry L)) : Prop :=
  ∀ n < (fixed es).length, ∀ θ θ', M.Satisfies θ fs → M.Satisfies θ' fs →
    M.Agree (declaredBelow n es) θ θ' → M.Agree (declaredBelow n fs) θ θ'

namespace Determines

variable {M : Model L}

/-- What is determined in two steps is determined at once, if the fixed entries
stay in place and every solution at the end solves the entries in the middle. -/
theorem trans {es fs gs : List (Entry L)} (h : Determines M es fs) (h' : Determines M fs gs)
    (hFixed : fixed fs = fixed es)
    (hReflects : ∀ θ, M.Satisfies θ gs → M.Satisfies θ fs) : Determines M es gs := by
  intro n hn θ θ' hθ hθ' hAgree
  apply h' n (hFixed ▸ hn) θ θ' hθ hθ'
  exact h n hn θ θ' (hReflects θ hθ) (hReflects θ' hθ') hAgree

/-- New entries on top are below no fixed entry that was there. -/
theorem append (es fs : List (Entry L)) : Determines M es (es ++ fs) := by
  intro n hn θ θ' _ _ hAgree
  rw [declaredBelow_append_of_lt hn]
  exact hAgree

/-- If more entries determine others, then so do the first of them. -/
theorem of_append {es fs gs : List (Entry L)} (h : Determines M (es ++ fs) gs) :
    Determines M es gs := by
  intro n hn θ θ' hθ hθ' hAgree
  have hLength : n < (fixed (es ++ fs)).length := by
    rw [fixed_append, List.length_append]
    omega
  apply h n hLength θ θ' hθ hθ'
  rw [declaredBelow_append_of_lt hn]
  exact hAgree

/-- Entries none of which is fixed are replaced by others, whose variables are
determined in their place. -/
theorem of_replaced {pre old new post : List (Entry L)} (hOld : fixed old = [])
    (hNew : fixed new = [])
    (h : ∀ θ θ', M.Satisfies θ new → M.Satisfies θ' new →
      M.Agree (declared pre ++ declared old) θ θ' → M.Agree (declared new) θ θ') :
    Determines M (pre ++ (old ++ post)) (pre ++ (new ++ post)) := by
  intro n _ θ θ' hθ hθ' hAgree
  rw [M.satisfies_append, M.satisfies_append] at hθ hθ'
  rcases Nat.lt_or_ge n (fixed pre).length with hPre | hPre
  · rw [declaredBelow_append_of_lt hPre] at hAgree ⊢
    exact hAgree
  · rw [declaredBelow_append_of_le hPre, declaredBelow_append_of_le (by simp [hOld]),
      ← List.append_assoc, Reading.agree_append] at hAgree
    rw [declaredBelow_append_of_le hPre, declaredBelow_append_of_le (by simp [hNew]),
      Reading.agree_append, Reading.agree_append]
    refine ⟨(Reading.agree_append.mp hAgree.1).1, h θ θ' hθ.2.1 hθ'.2.1 hAgree.1, ?_⟩
    rw [hNew, ← hOld]
    exact hAgree.2

/-- A constraint passes a fixed entry, and what it carries is
determined below it. For all other fixed entries the variables below
them are the same as before. -/
theorem of_passed {pre post : List (Entry L)} {e : Entry L} {c : Constraint L}
    (he : e.isFixed = true) (h : ∀ θ θ', M.Solves θ c.goal → M.Solves θ' c.goal →
      M.Agree (declared pre) θ θ' → M.Agree c.deps θ θ') :
    Determines M (pre ++ ([e, .constraint c] ++ post)) (pre ++ ([.constraint c, e] ++ post)) := by
  intro n _ θ θ' hθ hθ' hAgree
  rw [M.satisfies_append] at hθ hθ'
  rcases Nat.lt_or_ge n (fixed pre).length with hPre | hPre
  · rw [declaredBelow_append_of_lt hPre] at hAgree ⊢
    exact hAgree
  · rw [declaredBelow_append_of_le hPre, List.cons_append, List.cons_append] at hAgree ⊢
    rw [declaredBelow_cons rfl]
    generalize n - (fixed pre).length = m at hAgree ⊢
    cases m with
    | succ m =>
        rw [declaredBelow_succ he, declaredBelow_cons rfl] at hAgree
        rw [declaredBelow_succ he]
        exact hAgree
    | zero =>
        rw [declaredBelow_zero he, List.append_nil] at hAgree
        rw [declaredBelow_zero he, List.append_nil, Reading.agree_append]
        refine ⟨hAgree, h θ θ' ?_ ?_ hAgree⟩
        · exact (M.satisfies_cons.mp hθ.2).1
        · exact (M.satisfies_cons.mp hθ'.2).1

end Determines

variable [FreeVars L.Special]

/-- What a constraint carries is determined by the variables outside of it. -/
def Model.Determined (M : Model L) (D : Discipline L) : Prop :=
  ∀ {K deps : L.Telescope} {g : Goal L} {θ θ' : M.Valuation},
    D.Goal (Language.Telescope.Declares (K ++ deps)) g → (∀ p ∈ deps, g.Anchors p.1) →
    M.Solves θ g → M.Solves θ' g → M.Agree K θ θ' → M.Agree deps θ θ'

/-- A move of the solver determines the variables it declares. The two
moves that need an argument are a definition, whose variable has the
value of its type, and a constraint that passes a fixed entry with the
variables it carries. -/
theorem Move.determines {M : Model L} {D : Discipline L} (hDetermined : M.Determined D)
    {pre old new post : List (Entry L)} (h : Move old new) (hScoped : D.Scoped (declared pre) old)
    (hAnchored : Anchored old) : Determines M (pre ++ (old ++ post)) (pre ++ (new ++ post)) := by
  have hPlain : fixed old = [] → Determines M (pre ++ (old ++ post)) (pre ++ (new ++ post)) := by
    intro hOld
    refine .of_replaced hOld (h.toExtends.fixed_eq.trans hOld) fun θ θ' _ _ hAgree => ?_
    exact (Reading.agree_append.mp hAgree).2.mono h.declared_perm.subset
  cases h with
  | @pass e c he hFree =>
      cases hFixed : e.isFixed with
      | false =>
          apply hPlain
          rw [fixed_cons_of_not hFixed]
          rfl
      | true =>
          have hGoal := hScoped.2.1
          rw [declared_of_isFixed hFixed, List.append_nil] at hGoal
          refine .of_passed hFixed fun θ θ' => hDetermined hGoal ?_
          exact hAnchored c (List.mem_cons_of_mem _ List.mem_cons_self)
  | sink he => exact hPlain (by rw [fixed_cons_of_not (Entry.isFixed_of_isVariable he)]; rfl)
  | _ => exact hPlain rfl

/-- By induction on the moves, where each keeps entries well-formed and
anchored for the next. -/
theorem Moves.determines {M : Model L} {D : Discipline L} (hDetermined : M.Determined D)
    {es fs : List (Entry L)} (h : Moves es fs) (hes : D.WellFormed es) (hAnchored : Anchored es) :
    Determines M es fs := by
  induction h with
  | refl => exact fun _ _ _ _ _ _ hAgree => hAgree
  | tail hMoves hLast ih =>
      have hWellFormed := Moves.wellFormed D hMoves hes
      have hCarries := Moves.anchored hMoves hAnchored
      apply ih.trans _ (Moves.toExtends hMoves).fixed_eq
      · exact fun θ => M.satisfies_of_moves (.single hLast)
      · obtain ⟨pre, post, hMove⟩ := hLast
        apply hMove.determines hDetermined
        · exact hWellFormed.segment.1
        · exact (anchored_append.mp (anchored_append.mp hCarries).2).1

/-- Every step takes variables below a fixed entry only if they are determined,
as long as an invariant holds, which it keeps. -/
def StepsDetermine (D : Discipline L) (M : Model L) (Invariant : State L → Prop) : Prop :=
  ∀ {s t : State L}, D.Good s → Invariant s → s.step = .ok t →
    Determines M s.context.entries t.context.entries ∧ Invariant t

/-- A run of the solver determines what its steps determine. The solutions
of a later state solve the earlier ones, as steps refine, so that the steps
can be put together. -/
theorem StepsDetermine.unify [Terminating L] {D : Discipline L} {M : Model L}
    {Invariant : State L → Prop} (hSteps : StepsRefine D M) (h : StepsDetermine D M Invariant)
    {s t : State L} (hs : D.Good s) (hInvariant : Invariant s) (hRun : s.unify = .ok t) :
    Determines M s.context.entries t.context.entries := by
  fun_induction State.unify s with
  | case1 s hCan u hStep ih =>
      have hRefines := hSteps hs hStep
      obtain ⟨hDetermines, hKept⟩ := h hs hInvariant hStep
      apply hDetermines.trans (ih hRefines.good hKept hRun) hRefines.toExtends.fixed_eq
      exact (hSteps.unify hRefines.good hRun).1.reflects
  | case2 s hCan e hStep => cases hRun
  | case3 s hCan =>
      cases hRun
      exact fun _ _ _ _ _ _ hAgree => hAgree

/-- Taking a binding away changes nothing about the variables below the fixed
entries that remain. -/
theorem Removes.determines {D : Discipline L} {M : Model L} {s r rest : State L}
    {top : Entry L} (h : Removes D M s r rest)
    (hTop : Determines M (s.context.entries ++ [top]) r.context.entries) :
    Determines M s.context.entries rest.context.entries := by
  intro n hn θ θ' hθ hθ' hAgree
  rw [h.declaredBelow_eq n hn]
  exact hTop.of_append n hn θ θ' ((h.satisfies θ).mp hθ) ((h.satisfies θ').mp hθ') hAgree

/-- The entries below the marker of a let are determined by those of the
state it was put on. -/
theorem Generalizes.determines {D : Discipline L} {M : Model L} {s : State L} {b : Synthesis L}
    {pre post : List (Entry L)} (h : Generalizes D s b pre post)
    (hBound : Determines M (s.context.entries ++ [.marker]) b.state.context.entries) :
    Determines M s.context.entries pre := by
  intro n hn θ θ' hθ hθ' hAgree
  obtain ⟨hHolds, hSame⟩ := h.satisfies_above hθ
  obtain ⟨hHolds', hSame'⟩ := h.satisfies_above hθ'
  have hBelow := hBound.of_append n hn _ _ hHolds hHolds'
  rw [h.entries_eq, declaredBelow_append_of_lt (h.toExtends.fixed_eq ▸ hn)] at hBelow
  have hAbove : ∀ {K : L.Telescope}, K ⊆ declared pre →
      (M.Agree K (M.extend θ (definitions post)) (M.extend θ' (definitions post)) ↔
        M.Agree K θ θ') := by
    intro K hK
    constructor
    · intro hExtended p hp
      rw [← hSame p (hK hp), ← hSame' p (hK hp)]
      exact hExtended p hp
    · intro hPlain p hp
      rw [hSame p (hK hp), hSame' p (hK hp)]
      exact hPlain p hp
  apply (hAbove (declaredBelow_subset n pre)).mp
  apply hBelow
  apply (hAbove _).mpr hAgree
  exact List.Subset.trans (declaredBelow_subset n _) h.toExtends.declared_subset

/-- Synthesis determines the variables that are declared below the fixed
entries of its state: only solving adds definitions there, and solving
determines what it declares. -/
theorem Synthesizes.determines {D : Discipline L} {M : Model L} [DecidableEq L.Kind]
    {solve : State L → Except TypeError (State L)} (hCompatible : M.Compatible D)
    (hSolve : ∀ {s t : State L}, D.Good s → solve s = .ok t →
      Refines D M s t ∧ Settled t.context.entries)
    (hDetermine : ∀ {s t : State L} {function argument : L.Ty}, Settled s.context.entries →
      D.Good (s.equate function argument) → solve (s.equate function argument) = .ok t →
      Determines M (s.equate function argument).context.entries t.context.entries)
    {e : Term} {s : State L} {r : Synthesis L} (h : Synthesizes solve e s r) (hs : D.Good s)
    (hSettled : Settled s.context.entries) :
    Determines M s.context.entries r.state.context.entries := by
  induction h with
  | var hLookup =>
      rw [State.instantiate, State.pushAll_eq]
      exact .append _ _
  | @lam x body s inner removed hBody hRemove ih =>
      have hGood := hs.enterLam x
      have hEnter := State.settled_enterLam hSettled x
      obtain ⟨rest, hRest, hRemoves⟩ := (hBody.sound hCompatible hSolve hGood hEnter).removes
      rw [hRest] at hRemove
      cases hRemove
      exact (hRemoves.determines (ih hGood hEnter)).of_append
  | @app function argument s solved f a hFunction hArgument hRun ihFunction ihArgument =>
      have hSoundF := hFunction.sound hCompatible hSolve hs hSettled
      have hSoundA := hArgument.sound hCompatible hSolve hSoundF.refines.good hSoundF.settled
      have hGood := hSoundF.good_equate hSoundA
      have hRefines := (hSolve hGood hRun).1.of_equate
      have hSolved : Determines M a.state.context.entries solved.context.entries :=
        (hDetermine hSoundA.settled hGood hRun).of_append.of_append
      have hSynthesis := (ihFunction hs hSettled).trans
        (ihArgument hSoundF.refines.good hSoundF.settled) hSoundF.refines.toExtends.fixed_eq
        hSoundA.refines.reflects
      apply hSynthesis.trans hSolved
      · exact (hSoundF.refines.trans hSoundA.refines).toExtends.fixed_eq
      · exact hRefines.reflects
  | @letIn x bound body s b inner skimmed made removed hBound hSkim hGeneralize hBody hRemove
      ihBound ihBody =>
      have hMarker := hs.push_marker
      have hMarkerSettled := State.settled_marker hSettled
      obtain ⟨pre, post, hPost, hMarked⟩ :=
        (hBound.sound hCompatible hSolve hMarker hMarkerSettled).generalizes
      rw [hPost] at hSkim
      cases hSkim
      have hBind := hMarked.good_bind hGeneralize x
      obtain ⟨rest, hRest, hRemoves⟩ :=
        (hBody.sound hCompatible hSolve hBind hMarked.settled_bind).removes
      rw [hRest] at hRemove
      cases hRemove
      apply (hMarked.determines (ihBound hMarker hMarkerSettled)).trans
      · exact hRemoves.determines (ihBody hBind hMarked.settled_bind)
      · exact hMarked.toExtends.fixed_eq
      · exact hRemoves.refines.reflects
  | float hLiteral => exact fun _ _ _ _ _ _ hAgree => hAgree

end HindleyMilner
