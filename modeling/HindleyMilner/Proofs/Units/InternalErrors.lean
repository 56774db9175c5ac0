import HindleyMilner.Proofs.Units.Failure
import HindleyMilner.Proofs.Units.Scoping

/-! Types with units never make the engine blame a context. A unit equation carries a
variable only if another variable of it, which it has still to meet, has a smaller
exponent; so there is always an entry below it. -/
namespace HindleyMilner.Units

open Context

/-- A type of the wrong kind is no fault of the engine. -/
theorem kindedOr_internal (t : Ty) (k : Kind) : KindedOr (fun e => e.isInternal = false) t k :=
  .inl fun _ _ => rfl

/-- The rules of the language fail with errors about types and units only. -/
theorem ownErrors : OwnErrors language where
  decompose l r := decompose_failsOnly (fun _ => trivial) (fun _ _ => trivial)
    (.inl fun _ _ => trivial) (.inl fun _ _ => trivial)
  flexRigid supply deps eq := by
    have hMade : FailsOnly TypeError.IsOfRules (equateHull supply deps eq) :=
      equateHull_failsOnly (fun _ => trivial) supply deps (.inl fun _ _ => trivial)
    exact hMade.bind fun made _ => .ok _
  literal _ := .ok _
  reduce _ _ := .ok _
  finish t := Ty.canonical_failsOnly (fun _ => trivial) (.inl fun _ _ => trivial)

theorem faultlessRules : FaultlessRules language := ownErrors.faultlessRules

/-- A constraint that still has to meet one of its variables. -/
def Poised : Constraint language → Prop
  | ⟨deps, .eq _ _⟩ => deps = []
  | ⟨deps, .special (.hull x _)⟩ => ∀ p ∈ deps, p.1 ≠ x
  | ⟨deps, .special (.identity unit)⟩ =>
      ∀ p ∈ deps, unit.hasRival p.1 = false ∧ 1 < unit.varCount

def AllPoised (es : List (Entry language)) : Prop := ∀ c, .constraint c ∈ es → Poised c

/-- A constraint that carries nothing has to meet all of its variables. -/
theorem poised_ofGoal (g : Goal language) : Poised (.ofGoal g) := by
  cases g with
  | eq l r => rfl
  | special g => cases g <;> exact List.forall_mem_nil _

theorem allPoised_append {es fs : List (Entry language)} :
    AllPoised (es ++ fs) ↔ AllPoised es ∧ AllPoised fs := by
  simp only [AllPoised, List.mem_append, or_imp, forall_and]

theorem allPoised_cons {e : Entry language} {es : List (Entry language)} :
    AllPoised (e :: es) ↔ AllPoised [e] ∧ AllPoised es := by
  rw [← List.singleton_append, allPoised_append]

theorem allPoised_of_settled {es : List (Entry language)} (h : Settled es) : AllPoised es := by
  intro c hc
  cases h _ hc

theorem allPoised_constraint {c : Constraint language} (h : Poised c) :
    AllPoised [.constraint c] := by
  intro c' hc'
  cases List.mem_singleton.mp hc'
  exact h

theorem allPoised_ofGoals (goals : List (Goal language)) : AllPoised (goals.map .ofGoal) := by
  intro c hc
  obtain ⟨g, -, hg⟩ := List.mem_map.mp hc
  cases hg
  exact poised_ofGoal g

/-- After a step, the constraints are those it has left and those above it. -/
theorem allPoised_resume {f : Focus language} {emitted : List (Entry language)}
    (hBelow : Settled f.below.reverse) (hEmitted : AllPoised emitted) (hAbove : AllPoised f.above) :
    AllPoised (f.resume emitted).context.entries :=
  allPoised_append.mpr ⟨allPoised_of_settled hBelow, allPoised_append.mpr ⟨hEmitted, hAbove⟩⟩

/-- A constraint that puts down what it carries is poised. -/
theorem allPoised_lowered (deps : language.Telescope) (g : Goal language) {e : Entry language}
    (he : Settled [e]) : AllPoised (deps.intros ++ [.ofGoal g, e]) := by
  rw [allPoised_append, allPoised_cons]
  exact ⟨allPoised_of_settled (settled_intros deps), allPoised_constraint (poised_ofGoal g),
    allPoised_of_settled he⟩

theorem allPoised_passed {c : Constraint language} (hc : Poised c) {e : Entry language}
    (he : Settled [e]) : AllPoised [.constraint c, e] :=
  allPoised_cons.mpr ⟨allPoised_constraint hc, allPoised_of_settled he⟩

/-- An equation with a hull goes down to its variable, which it does not carry,
and becomes a definition there. So no step makes it lose what it has to meet. -/
theorem hull_poised {f : Focus language} {x : Name} {shape : Ty} {deps : language.Telescope}
    {t : State language} (hBelow : Settled f.below.reverse) (hAbove : AllPoised f.above)
    (hPoised : Poised ⟨deps, .special (.hull x shape)⟩)
    (h : solveSpecial f deps (.hull x shape) = .ok t) :
    AllPoised t.context.entries := by
  cases Focus.walk_meets h with
  | mk hWalked =>
      obtain ⟨hRest, hTop⟩ := Focus.settled_of_cons hBelow
      refine allPoised_resume hRest ?_ hAbove
      cases hWalked with
      | solve hFree =>
          refine allPoised_of_settled (settled_append.mpr ⟨settled_intros deps, ?_⟩)
          simp [Settled, Entry.isConstraint]
      | lift hName hMentions =>
          exact allPoised_constraint (List.forall_mem_cons.mpr ⟨hName, hPoised⟩)
      | unfold => exact allPoised_lowered deps _ hTop
      | skip hName hFree => exact allPoised_lowered deps _ hTop
      | pass => exact allPoised_passed hPoised hTop

/-- Equations between variables carry nothing, before and after. -/
theorem meetVars_poised {f : Focus language} {a b : Name} {l r : Ty} {t : State language}
    (hBelow : Settled f.below.reverse) (hAbove : AllPoised f.above)
    (h : f.meetVars a b l r = .ok t) : AllPoised t.context.entries := by
  cases Focus.meetVars_meets h with
  | mk hMet =>
      obtain ⟨hRest, hTop⟩ := Focus.settled_of_cons hBelow
      refine allPoised_resume hRest ?_ hAbove
      cases hMet with
      | left => exact allPoised_of_settled (by simp [Settled, Entry.isConstraint])
      | right => exact allPoised_of_settled (by simp [Settled, Entry.isConstraint])
      | unfold => exact allPoised_passed (poised_ofGoal _) hTop
      | skip => exact allPoised_passed (poised_ofGoal _) hTop
      | pass => exact allPoised_passed (poised_ofGoal _) hTop

/-- The new variables of a hull are none that are in use, so the equation that
carries them is about another variable, which it still has to meet. -/
theorem flexRigid_poised {f : Focus language} {eq : FlexRigid language} {t : State language}
    (hBelow : Settled f.below.reverse) (hAbove : AllPoised f.above)
    (hName : ¬f.supply.Pending eq.name) (h : f.flexRigid [] eq = .ok t) :
    AllPoised t.context.entries := by
  obtain ⟨made, hMade, h⟩ := bind_eq_ok.mp h
  obtain ⟨equated, hEquated, hMade⟩ := bind_eq_ok.mp hMade
  cases hMade
  cases h
  obtain ⟨hull, goals, hHull, hGoals, rfl⟩ := equateHull_eq_ok hEquated
  refine allPoised_resume (f := ⟨hull.supply, f.below, f.above⟩) hBelow ?_ hAbove
  rw [List.map_cons, List.map_map, allPoised_cons]
  refine ⟨allPoised_constraint fun p hp hEq => ?_, allPoised_ofGoals goals⟩
  rw [List.nil_append] at hp
  obtain ⟨hole, hHole, rfl⟩ := List.mem_map.mp hp
  exact hName (hEq ▸ ((hull_fresh hHull).2.2 hole hHole).1)

/-- An equation that carries nothing leaves poised constraints, whichever of its
sides are variables. -/
theorem solveEq_poised {f : Focus language} {l r : Ty} {t : State language}
    (hBelow : Settled f.below.reverse) (hAbove : AllPoised f.above)
    (hDrawn : ∀ x ∈ l.freeVars ++ r.freeVars, ¬f.supply.Pending x)
    (h : f.solveEq [] l r = .ok t) : AllPoised t.context.entries := by
  have hName : ∀ x, language.asVar? l = some x ∨ language.asVar? r = some x →
      ¬f.supply.Pending x := fun x hx =>
    hDrawn x (List.mem_append.mpr (hx.imp (Lexical.mem_freeVars (L := language))
      (Lexical.mem_freeVars (L := language))))
  cases Focus.equated_of_solveEq h with
  | left hl hr hFlex => exact flexRigid_poised hBelow hAbove (hName _ (.inl hl)) hFlex
  | right hl hr hFlex => exact flexRigid_poised hBelow hAbove (hName _ (.inr hr)) hFlex
  | same => exact allPoised_resume hBelow (allPoised_ofGoals []) hAbove
  | meet hNe hl hr hMeet => exact meetVars_poised hBelow hAbove hMeet
  | split hl hr hGoals => exact allPoised_resume hBelow (allPoised_ofGoals _) hAbove

/-- An elimination leaves an equation that carries nothing, or one that has
picked up a variable with the largest power beside others. -/
theorem eliminated_poised {f : Focus language} {deps : language.Telescope} {unit : Measure}
    {x : Name} {kind : Kind} {t : State language} (hBelow : Settled f.below.reverse)
    (hAbove : AllPoised f.above) (hPoised : Poised ⟨deps, isOne unit⟩)
    (h : Eliminated f deps unit x kind t) : AllPoised t.context.entries := by
  have hDefine : ∀ type, Settled [(Entry.define x type kind : Entry language)] :=
    fun type => by simp [Settled, Entry.isConstraint]
  cases h with
  | solve hDivides hSolution =>
      apply allPoised_resume hBelow (allPoised_of_settled ?_) hAbove
      exact settled_append.mpr ⟨settled_intros deps, hDefine _⟩
  | @reduce _ solution reduced =>
      refine allPoised_resume (f := ⟨_, f.below, f.above⟩) hBelow ?_ hAbove
      exact allPoised_lowered (((f.supply.draw "b").1, Kind.unit) :: deps) (isOne reduced)
        (hDefine solution.toType)
  | lift hRival hCount =>
      apply allPoised_resume hBelow (allPoised_constraint ?_) hAbove
      exact List.forall_mem_cons.mpr ⟨⟨hRival, hCount⟩, hPoised⟩

/-- So every step of a unit equation leaves poised constraints. -/
theorem solveUnit_poised {f : Focus language} {deps : language.Telescope} {unit : Measure}
    {t : State language} (hBelow : Settled f.below.reverse) (hAbove : AllPoised f.above)
    (hPoised : Poised ⟨deps, isOne unit⟩) (h : solveUnit f deps unit = .ok t) :
    AllPoised t.context.entries := by
  cases unitSolved_of_solveUnit h with
  | settle =>
      exact allPoised_resume hBelow (allPoised_of_settled (settled_intros deps)) hAbove
  | unfold =>
      obtain ⟨hRest, hTop⟩ := Focus.settled_of_cons hBelow
      exact allPoised_resume hRest (allPoised_lowered deps _ hTop) hAbove
  | @eliminate supply below above _ _ _ hx h =>
      obtain ⟨hRest, -⟩ := Focus.settled_of_cons hBelow
      exact eliminated_poised (f := ⟨supply, below, above⟩) hRest hAbove hPoised h
  | pass =>
      obtain ⟨hRest, hTop⟩ := Focus.settled_of_cons hBelow
      exact allPoised_resume hRest (allPoised_passed hPoised hTop) hAbove

/-- A variable with another of at least its power has a rival. -/
theorem Measure.hasRival_of_le {u : Measure} {x y : Name} (hy : y ∈ u.vars.names) (hNe : y ≠ x)
    (hLe : (u.exponent x).toInt.natAbs ≤ (u.exponent y).toInt.natAbs) :
    u.hasRival x = true := by
  rw [← Exponents.map_fst_toList] at hy
  obtain ⟨p, hp, rfl⟩ := List.mem_map.mp hy
  rw [exponent, exponent, Exponents.get_of_mem_toList hp] at hLe
  apply List.any_eq_true.mpr
  exact ⟨p, hp, by simp [hNe, exponent, hLe]⟩

/-- Of two variables one is the rival of the other. -/
theorem Measure.eq_of_no_rival {u : Measure} {x y : Name} (hx : x ∈ u.vars.names)
    (hy : y ∈ u.vars.names) (hRivalX : u.hasRival x = false) (hRivalY : u.hasRival y = false) :
    x = y := by
  refine Decidable.byContradiction fun hNe => ?_
  rcases Nat.le_total (u.exponent x).toInt.natAbs (u.exponent y).toInt.natAbs with hLe | hLe
  · rw [hasRival_of_le hy (Ne.symm hNe) hLe] at hRivalX
    cases hRivalX
  · rw [hasRival_of_le hx hNe hLe] at hRivalY
    cases hRivalY

/-- A unit equation does not carry all of its variables. It picks up a variable
only if there is another one and none of the others has as large a power, and
that can be said of one variable at most. -/
theorem exists_not_carried {deps : language.Telescope} {unit : Measure}
    (hPoised : Poised ⟨deps, isOne unit⟩) (hVar : unit.isConstant = false) :
    ∃ x ∈ unit.vars.names, x ∉ deps.map Prod.fst := by
  by_contra hAll
  simp only [not_exists, not_and, not_not] at hAll
  have hSize : unit.vars.names.length = unit.varCount := Std.ExtTreeMap.length_keys
  have hNodup := unit.vars.nodup_names
  have hRival : ∀ x ∈ unit.vars.names, unit.hasRival x = false ∧ 1 < unit.varCount := by
    intro x hx
    obtain ⟨p, hp, rfl⟩ := List.mem_map.mp (hAll x hx)
    exact hPoised p hp
  cases hNames : unit.vars.names with
  | nil =>
      have hEmpty : unit.isConstant = true := Std.ExtTreeMap.isEmpty_keys.symm.trans (by
        rw [show unit.vars.map.keys = [] from hNames]; rfl)
      rw [hVar] at hEmpty
      cases hEmpty
  | cons x rest =>
      rw [hNames] at hRival hSize hNodup
      obtain ⟨hNone, hCount⟩ := hRival x List.mem_cons_self
      cases rest with
      | nil =>
          rw [List.length_singleton] at hSize
          omega
      | cons y rest =>
          have hy := hRival y (List.mem_cons_of_mem _ List.mem_cons_self)
          have hEq : x = y :=
            Measure.eq_of_no_rival (by simp [hNames]) (by simp [hNames]) hNone hy.1
          exact (List.nodup_cons.mp hNodup).1 (hEq ▸ List.mem_cons_self)

/-- A unit equation whose variables are declared does not blame the
context: it does not carry all of its variables, so there is an entry
below it that declares one. -/
theorem solveUnit_faultless {f : Focus language} {deps : language.Telescope} {unit : Measure}
    (hBelow : Settled f.below.reverse) (hPoised : Poised ⟨deps, isOne unit⟩)
    (hScope : ∀ x ∈ unit.vars.names, x ∈ (declared f.below.reverse ++ deps).map Prod.fst) :
    Faultless (solveUnit f deps unit) := by
  refine solveUnit_failsOnly (fun _ => rfl) (fun hEmpty hVar => ?_) (fun c below hTop => ?_)
    fun _ type _ _ _ _ => kindedOr_internal type _
  · obtain ⟨x, hx, hNot⟩ := exists_not_carried hPoised hVar
    have hDeclared := hScope x hx
    rw [hEmpty] at hDeclared
    exact absurd hDeclared hNot
  · exact absurd hTop (Focus.below_not_constraint hBelow)

/-- A step keeps all constraints poised, be it at an equation of types
or at one of units. -/
theorem step_poised {s t : State language} (hs : (Discipline.scoping language).Good s)
    (hPoised : AllPoised s.context.entries) (h : s.step = .ok t) :
    AllPoised t.context.entries := by
  rcases State.step_eq_ok h with rfl | ⟨⟨deps, goal⟩, f, rfl, hBelow, hSolve⟩
  · exact hPoised
  · obtain ⟨-, hPoised⟩ := allPoised_append.mp hPoised
    obtain ⟨hHead, hAbove⟩ := allPoised_cons.mp hPoised
    have hConstraint := hHead _ List.mem_cons_self
    cases goal with
    | eq l r =>
        obtain rfl : deps = [] := hConstraint
        exact solveEq_poised hBelow hAbove hs.goal_drawn hSolve
    | special g =>
        cases g with
        | hull x shape => exact hull_poised hBelow hAbove hConstraint hSolve
        | identity unit => exact solveUnit_poised hBelow hAbove hConstraint hSolve

/-- A step from such a state does not blame the context: the first constraint
has a variable left to meet, and that is declared below it. -/
theorem step_faultless {s : State language} (hs : (Discipline.scoping language).Good s)
    (hPoised : AllPoised s.context.entries) : Faultless s.step := by
  intro e h
  obtain ⟨⟨deps, goal⟩, f, rfl, hBelow, hSolve⟩ := State.step_eq_error h
  have hConstraint := hPoised _ (List.mem_append_right _ List.mem_cons_self)
  have hScope := hs.goal_scope
  cases goal with
  | eq l r =>
      obtain rfl : deps = [] := hConstraint
      exact Focus.solveEq_faultless hBelow hScope (List.forall_mem_nil _) faultlessRules e hSolve
  | special g =>
      cases g with
      | identity unit => exact solveUnit_faultless hBelow hConstraint hScope e hSolve
      | hull x shape =>
          refine Focus.walk_faultless hBelow ?_ _ deps e hSolve
          -- The variable is not one of those that the constraint carries.
          have hx := hScope x List.mem_cons_self
          rw [List.map_append, List.mem_append] at hx
          refine hx.resolve_right fun hMem => ?_
          obtain ⟨p, hp, hEq⟩ := List.mem_map.mp hMem
          exact hConstraint p hp hEq

/-- So solving from such a state blames nobody but the program. -/
theorem faultlessSolver : FaultlessSolver language := by
  intro s function argument hSettled hs
  refine State.unify_failsOnly
    (fun s => (Discipline.scoping language).Good s ∧ AllPoised s.context.entries) ?_ ?_ ⟨hs, ?_⟩
  · rintro s t ⟨hGood, hPoised⟩ hStep
    exact ⟨(stepsRefine_scoping hGood hStep).good, step_poised hGood hPoised hStep⟩
  · rintro s ⟨hGood, hPoised⟩
    exact step_faultless hGood hPoised
  · rw [State.entries_equate, ← List.singleton_append, allPoised_append, allPoised_append]
    refine ⟨allPoised_of_settled hSettled, allPoised_of_settled ?_,
      allPoised_constraint (poised_ofGoal _)⟩
    simp [Settled, Entry.isConstraint]

end HindleyMilner.Units
