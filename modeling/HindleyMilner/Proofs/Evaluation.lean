import HindleyMilner.Proofs.Synthesis

/-! Runs with a bound on the number of steps. They recurse on the bound, so they can be
evaluated, and what they find is what the full run finds. -/
namespace HindleyMilner

variable {L : Language} [Rules L]

/-- How a run ends, if it ends within the given number of steps. -/
def State.unifyWithin? (n : Nat) (s : State L) : Option (Except TypeError (State L)) :=
  if s.canStep then
    match n, s.step with
    | 0, _ => none
    | n + 1, .ok t => t.unifyWithin? n
    | _ + 1, .error e => some (.error e)
  else some (.ok s)

/-- A run that ends within some number of steps is the run of the solver. So a
run on a given state can be computed by the kernel, which does not unfold
well-founded recursion. -/
theorem State.unify_of_unifyWithin? [Terminating L] {n : Nat} {s : State L}
    {r : Except TypeError (State L)} (h : s.unifyWithin? n = some r) : s.unify = r := by
  fun_induction State.unifyWithin? n s with
  | case1 s hCan => cases h
  | case2 s hCan n t hStep ih =>
      rw [unify_of_canStep hCan, hStep]
      exact ih h
  | case3 s hCan n e hStep =>
      rw [unify_of_canStep hCan, hStep]
      exact Option.some.inj h
  | case4 n s hCan =>
      rw [unify_of_not_canStep (by simpa using hCan)]
      exact Option.some.inj h

/-- What is to be seen of how a run ends. -/
theorem State.map_unify_of_unifyWithin? [Terminating L] {β : Type} {n : Nat} {s : State L}
    {f : State L → β} {r : Except TypeError β}
    (h : (s.unifyWithin? n).map (Except.map f) = some r) : s.unify.map f = r := by
  obtain ⟨outcome, hEnds, rfl⟩ := Option.map_eq_some_iff.mp h
  rw [unify_of_unifyWithin? hEnds]

/-- A run with what is noted on the way, if it ends within the given number of
steps. -/
def State.runWithin? {β : Type} (note : State L → β → β) (n : Nat) (noted : β) (s : State L) :
    Option (Run L β) :=
  if s.canStep then
    match n, s.step with
    | 0, _ => none
    | n + 1, .ok t => t.runWithin? note n (note s noted)
    | _ + 1, .error e => some ⟨note s noted, .error e⟩
  else some ⟨noted, .ok s⟩

/-- So is a run that notes something at every step, and it notes the same. -/
theorem State.runWith_of_runWithin? [Terminating L] {β : Type} {note : State L → β → β} {n : Nat}
    {noted : β} {s : State L} {r : Run L β} (h : s.runWithin? note n noted = some r) :
    s.runWith note noted = r := by
  fun_induction State.runWithin? note n noted s with
  | case1 noted s hCan => cases h
  | case2 noted s hCan n t hStep ih =>
      rw [runWith_of_step hCan hStep]
      exact ih h
  | case3 noted s hCan n e hStep =>
      rw [runWith_of_error hCan hStep]
      exact Option.some.inj h
  | case4 n noted s hCan =>
      rw [runWith, dif_neg hCan]
      exact Option.some.inj h

/-- Find the type of a term, taking at most the given number of steps
for each application. -/
def synthesizeWithin (n : Nat) (s : State L) (e : Term) : Except TypeError (Synthesis L) :=
  (synthesize (fun s => ⟨[], (s.unifyWithin? n).getD (.error (.malformed "out of steps"))⟩)
    e 0 s).result

/-- Infer the type of a term, taking at most the given number of steps
for each application. -/
def inferWithin (n : Nat) (s : State L) (e : Term) : Except TypeError L.Qualified :=
  synthesizeWithin n s e >>= fun r => resolveType r.state.context.normalize r.type

/-- What is synthesized by solving some states is synthesized by a solver that
solves at least these, in the same way. -/
theorem Synthesizes.mono {solve solve' : State L → Except TypeError (State L)}
    (hSolve : ∀ s t, solve s = .ok t → solve' s = .ok t) {e : Term} {s : State L} {r : Synthesis L}
    (h : Synthesizes solve e s r) : Synthesizes solve' e s r := by
  induction h with
  | var hLookup => exact .var hLookup
  | lam _ hRemove ih => exact .lam ih hRemove
  | app _ _ hSolved ihFunction ihArgument =>
      exact .app ihFunction ihArgument (hSolve _ _ hSolved)
  | letIn _ hSkim hGeneralize _ hRemove ihBound ihBody =>
      exact .letIn ihBound hSkim hGeneralize ihBody hRemove
  | float hLiteral => exact .float hLiteral

/-- Synthesis has one result at most, as the form of the term says which rule
applies and every part of it has one result. -/
theorem Synthesizes.unique {solve : State L → Except TypeError (State L)} {e : Term} {s : State L}
    {r r' : Synthesis L} (h : Synthesizes solve e s r) (h' : Synthesizes solve e s r') :
    r = r' := by
  have hRun : ∀ {r : Synthesis L}, Synthesizes solve e s r →
      (synthesize (fun s => ⟨[], solve s⟩) e 0 s).result = .ok r := fun h => by
    rw [synthesize_eq_ok]
    exact h
  exact Except.ok.inj ((hRun h).symm.trans (hRun h'))

/-- What synthesis finds within some number of steps for each run of the
solver is what it finds. -/
theorem synthesizes_of_synthesizeWithin [Terminating L] {n : Nat} {s : State L} {e : Term}
    {r : Synthesis L} (h : synthesizeWithin n s e = .ok r) : Synthesizes State.unify e s r := by
  refine (synthesize_eq_ok.mp h).mono fun s t hSolved => ?_
  cases hEnds : s.unifyWithin? n with
  | none =>
      simp only [hEnds] at hSolved
      cases hSolved
  | some outcome =>
      simp only [hEnds] at hSolved
      rw [State.unify_of_unifyWithin? hEnds]
      exact hSolved

/-- What is to be seen of the one result of synthesis. -/
theorem Synthesizes.eq_of_synthesizeWithin [Terminating L] {β : Type} {n : Nat} {s : State L}
    {e : Term} {r : Synthesis L} {f : Synthesis L → β} {b : β}
    (hRun : Synthesizes State.unify e s r) (h : (synthesizeWithin n s e).map f = .ok b) :
    f r = b := by
  obtain ⟨r', hRun', rfl⟩ := map_eq_ok.mp h
  rw [hRun.unique (synthesizes_of_synthesizeWithin hRun')]

/-- A type that is inferred within some number of steps is the type that is
inferred. -/
theorem infer_of_inferWithin [Terminating L] {n : Nat} {s : State L} {e : Term} {q : L.Qualified}
    (h : inferWithin n s e = .ok q) : infer s e = .ok q := by
  obtain ⟨r, hRun, hResolve⟩ := bind_eq_ok.mp h
  exact infer_eq_ok.mpr ⟨r, synthesizes_of_synthesizeWithin hRun, hResolve⟩

theorem inferType_of_inferWithin [Terminating L] {n : Nat} {s : State L} {e : Term} {t : L.Ty}
    (h : (inferWithin n s e).map (fun q => q.head) = .ok t) : inferType s e = .ok t := by
  obtain ⟨q, hRun, rfl⟩ := map_eq_ok.mp h
  exact inferType_eq_ok.mpr ⟨q, infer_of_inferWithin hRun, rfl⟩

/-- How inference ends when synthesis takes that many steps, be it with a
failure. -/
theorem inferType_of_synthesizeWithin [Terminating L] {n : Nat} {s : State L} {e : Term}
    {result : Except TypeError L.Ty} (h : (synthesizeWithin n s e).map (fun r =>
      (resolveType r.state.context.normalize r.type).map fun q => q.head) = .ok result) :
    inferType s e = result := by
  obtain ⟨r, hRun, rfl⟩ := map_eq_ok.mp h
  have hSynthesizes := synthesizes_of_synthesizeWithin hRun
  have hResult : (synthesize (Logged.unifyWith false) e 0 s).result = .ok r := by
    rw [synthesize_eq_ok]
    simpa only [Logged.result_unifyWith] using hSynthesizes
  rw [inferType, result_infer, hResult]
  rfl

end HindleyMilner
