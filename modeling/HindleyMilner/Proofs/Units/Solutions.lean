import HindleyMilner.Proofs.Units.Equations

/-! Solutions are kept while types with units are solved. What a definition says of its
variable is asked here at the kind of that variable only. Then a solution of a context
is a solution of the next one, once the variables that were introduced have values. -/
namespace HindleyMilner.Units

open Context

/-- What an entry asks for, where a defined variable has a value at its kind
only. -/
def HoldsAtKind (θ : model.Valuation) : Entry language → Prop
  | .define x type kind => θ x kind = model.eval θ kind type
  | .constraint c => model.Solves θ c.goal
  | _ => True

def Fulfils (θ : model.Valuation) (es : List (Entry language)) : Prop := ∀ e ∈ es, HoldsAtKind θ e

section

variable {θ θ' : model.Valuation} {e : Entry language} {es fs : List (Entry language)}

theorem fulfils_nil : Fulfils θ [] := List.forall_mem_nil _

theorem fulfils_cons : Fulfils θ (e :: es) ↔ HoldsAtKind θ e ∧ Fulfils θ es := List.forall_mem_cons

theorem fulfils_append : Fulfils θ (es ++ fs) ↔ Fulfils θ es ∧ Fulfils θ fs :=
  List.forall_mem_append

/-- A constraint is fulfilled if its goal is solved. -/
theorem fulfils_constraint {deps : language.Telescope} {g : Goal language} :
    Fulfils θ [.constraint ⟨deps, g⟩] ↔ model.Solves θ g :=
  fulfils_cons.trans (and_iff_left fulfils_nil)

theorem fulfils_intros (deps : language.Telescope) : Fulfils θ deps.intros := by
  intro e he
  obtain ⟨d, -, rfl⟩ := List.mem_map.mp he
  trivial

theorem fulfils_of_satisfies (h : model.Satisfies θ es) : Fulfils θ es := by
  intro e he
  have hHolds := h e he
  cases e with
  | define x type kind => exact hHolds kind
  | constraint c => exact hHolds
  | _ => trivial

/-- Whether a well-kinded goal is solved depends on its variables at the kinds
they are declared with. -/
theorem solves_agree {K : language.Telescope} {g : Goal language}
    (hGoal : kinding.Goal K.Declares g) (h : model.Agree K θ θ') (hθ : model.Solves θ g) :
    model.Solves θ' g := by
  have hEquation : ∀ {l r : Ty}, kinding.Equation K.Declares l r →
      model.eval θ .value l = model.eval θ .value r →
      model.eval θ' .value l = model.eval θ' .value r := by
    rintro l r ⟨_, rfl, hl, hr⟩ hSame
    rw [← Model.eval_agree compatible hl h, ← Model.eval_agree compatible hr h]
    exact hSame
  cases g with
  | eq l r => exact hEquation hGoal hθ
  | special g =>
      cases g with
      | hull x shape => exact hEquation hGoal hθ
      | identity unit => exact (unitValue_agree hGoal h).symm.trans (solves_isOne.mp hθ)

/-- Whether a well-kinded context is fulfilled depends on the variables it
knows, each at its kind. -/
theorem Fulfils.agree {K : language.Telescope} (hScoped : kinding.Scoped K es)
    (h : model.Agree (K ++ declared es) θ θ') (hθ : Fulfils θ es) : Fulfils θ' es := by
  induction es generalizing K with
  | nil => exact fulfils_nil
  | cons e es ih =>
      obtain ⟨hHead, hRest⟩ := fulfils_cons.mp hθ
      rw [declared_cons, ← List.append_assoc] at h
      have hKnown := (Reading.agree_append.mp h).1
      refine fulfils_cons.mpr ⟨?_, ih hScoped.2 h hRest⟩
      cases e with
      | define x type kind =>
          have hType := Model.eval_agree compatible hScoped.1 (Reading.agree_append.mp hKnown).1
          have hx := hKnown (x, kind) (List.mem_append_right _ List.mem_cons_self)
          exact hx.symm.trans (Eq.trans hHead hType)
      | constraint c => exact solves_agree hScoped.1 hKnown hHead
      | _ => trivial

end

/-- Giving defined variables their values changes none of them at its kind. A
definition that holds at that kind gives back the value that was there, and a
variable has one kind. -/
theorem agree_extend {K : language.Telescope} {es : List (Entry language)} {θ : model.Valuation}
    (hScoped : kinding.Scoped K es) (hNodup : ((K ++ declared es).map Prod.fst).Nodup)
    (hθ : Fulfils θ es) :
    model.Agree (K ++ declared es) (model.extend θ (definitions es)) θ := by
  induction es generalizing K θ with
  | nil => exact fun _ _ => rfl
  | cons e es ih =>
      obtain ⟨hHead, hRest⟩ := fulfils_cons.mp hθ
      rw [declared_cons, ← List.append_assoc] at hNodup ⊢
      cases e with
      | define x type kind =>
          have hOne : model.Agree ((K ++ [(x, kind)]) ++ declared es)
              (model.assign θ (.single x type)) θ := by
            rintro ⟨y, j⟩ hy
            by_cases hEq : y = x
            · subst hEq
              have hDeclared : (y, kind) ∈ (K ++ [(y, kind)]) ++ declared es := by simp
              cases Name.eq_of_nodup hNodup hy hDeclared
              exact (model.assign_single_self θ y type kind).trans (Eq.symm hHead)
            · rw [model.assign_of_not_mem θ type hEq]
          exact (ih hScoped.2 hNodup (hRest.agree hScoped.2 hOne.symm)).trans hOne
      | _ => exact ih hScoped.2 hNodup hRest

/-- A solution in which definitions hold at the kinds of their variables only
can be made one in which they hold at every kind. -/
theorem Fulfils.exists_satisfies {es : List (Entry language)} (hes : kinding.WellFormed es)
    (hSettled : Settled es) {θ : model.Valuation} (hθ : Fulfils θ es) :
    ∃ θ', model.Satisfies θ' es ∧ model.Agree (declared es) θ' θ :=
  ⟨_, model.satisfies_extend kinding (K := []) θ hSettled hes.inScope hes.nodup,
    agree_extend hes.inScope hes.nodup hθ⟩

/-- A definition may be substituted where its variable is used at its kind. -/
theorem eval_subst1 {K : language.Scope} {t u : Ty} {x : Name} {j k : Kind}
    (hKind : HasKind K t k) (hx : ∀ i, K x i → i = j) {θ : model.Valuation}
    (h : θ x j = model.eval θ j u) : model.eval θ k (subst1 x u t) = model.eval θ k t := by
  rw [subst1, model.eval_subst]
  apply model.algebra.subst_congr
  rintro ⟨y, i⟩ hy
  by_cases hEq : y = x
  · subst hEq
    cases hx i (compatible hKind _ hy)
    exact (model.assign_single_self θ y u _).trans h.symm
  · rw [model.assign_of_not_mem θ u hEq]

/-- A solution of an equation solves the equations that it is taken apart into.
This is where an arrow can only be equal to an arrow with equal sides. -/
theorem solves_decompose {θ : model.Valuation} {l r : Ty} {goals : List (Goal language)}
    (h : decompose l r = .ok goals) (hθ : model.Solves θ (.eq l r)) :
    ∀ g ∈ goals, model.Solves θ g := by
  rcases decompose_eq_ok h with
    ⟨a, b, c, d, rfl, rfl, rfl⟩ | ⟨u, v, m, n, unit, rfl, rfl, hm, hn, hUnit, rfl⟩
  · obtain ⟨hDomain, hCodomain⟩ := ValueTy.arrow.inj hθ
    exact List.forall_mem_cons.mpr ⟨hDomain, List.forall_mem_singleton.mpr hCodomain⟩
  · have hUnits : unitValue θ u.toUnit = unitValue θ v.toUnit := ValueTy.float.inj hθ
    intro g hg
    rw [List.mem_singleton.mp hg, solves_isOne, Measure.toUnit_subtract hUnit,
      Ty.toUnit_of_toMeasure hm, Ty.toUnit_of_toMeasure hn, map_sub, hUnits, sub_self]

/-- A variable declared just below a goal is used in it at the kind
it is declared with. -/
theorem kind_of_declared {K : language.Telescope} {e : Entry language} {g : Goal language}
    {x : Name} {i kind : Kind} (he : e.declared = [(x, kind)])
    (hNodup : ((K ++ declared [e, .ofGoal g]).map Prod.fst).Nodup)
    (hi : (x, i) ∈ (K ++ e.declared) ++ []) : i = kind := by
  have hDeclared : declared [e, .ofGoal g] = [(x, kind)] := by
    rw [declared_cons, he]
    rfl
  rw [hDeclared] at hNodup
  rw [he, List.append_nil] at hi
  exact Name.eq_of_nodup hNodup hi (List.mem_append_right _ List.mem_cons_self)

/-- No move loses a solution of well-kinded entries. A definition that is
substituted holds at the kind at which its variable is used. -/
theorem fulfils_move {K : language.Telescope} {old new : List (Entry language)} (h : Move old new)
    (hScoped : kinding.Scoped K old) (hNodup : ((K ++ declared old).map Prod.fst).Nodup)
    {θ : model.Valuation} (hθ : Fulfils θ old) : Fulfils θ new := by
  cases h with
  | recast => exact fulfils_constraint.mpr (Eq.symm (fulfils_constraint.mp hθ))
  | lower deps g =>
      have hGoal := fulfils_constraint.mp hθ
      exact fulfils_append.mpr ⟨fulfils_intros deps, fulfils_constraint.mpr hGoal⟩
  | sink => exact fun e he => hθ e ((List.Perm.swap _ _ _).subset he)
  | pass => exact fun e he => hθ e ((List.Perm.swap _ _ _).subset he)
  | lift => exact fulfils_constraint.mpr (fulfils_constraint.mp (fulfils_cons.mp hθ).2)
  | @unfold x type l r kind g hSides =>
      obtain ⟨hDefine, hGoal⟩ := fulfils_cons.mp hθ
      obtain ⟨_, rfl, hl, hr⟩ := (kinding.goal_of_sides hSides).mp hScoped.2.1
      have hKinds := fun i => kind_of_declared (g := g) (i := i) rfl hNodup
      refine fulfils_cons.mpr ⟨?_, fulfils_cons.mpr ⟨hDefine, fulfils_nil⟩⟩
      have hSides' := (model.solves_of_sides hSides).mp (fulfils_constraint.mp hGoal)
      change model.eval θ _ (subst1 x type l) = model.eval θ _ (subst1 x type r)
      rw [eval_subst1 hl hKinds hDefine, eval_subst1 hr hKinds hDefine]
      exact hSides'
  | @solve x kind l r g hSides hVar hFree =>
      obtain ⟨_, rfl, hl, hr⟩ := (kinding.goal_of_sides hSides).mp hScoped.2.1
      have hGoal := fulfils_constraint.mp (fulfils_cons.mp hθ).2
      have hSides' := (model.solves_of_sides hSides).mp hGoal
      obtain rfl : l = .var x := by
        cases l with
        | var y => exact congrArg Ty.var (Option.some.inj hVar)
        | _ => cases hVar
      cases hl with
      | var hx =>
          cases kind_of_declared (g := g) rfl hNodup hx
          exact fulfils_cons.mpr ⟨hSides', fulfils_nil⟩
  | drop => exact fulfils_nil
  | split hGoals =>
      intro e he
      obtain ⟨g, hg, rfl⟩ := List.mem_map.mp he
      exact solves_decompose hGoals (fulfils_cons.mp hθ).1 g hg

theorem fulfils_moves {es fs : List (Entry language)} (h : Moves es fs)
    (hes : kinding.WellFormed es) {θ : model.Valuation} (hθ : Fulfils θ es) : Fulfils θ fs := by
  induction h with
  | refl => exact hθ
  | tail hMoves hLast ih =>
      have hWellFormed := Moves.wellFormed kinding hMoves hes
      obtain ⟨pre, post, hMove⟩ := hLast
      obtain ⟨hScoped, hNodup⟩ := hWellFormed.segment
      simp only [fulfils_append] at ih ⊢
      exact ⟨ih.1, fulfils_move hMove hScoped hNodup ih.2.1, ih.2.2⟩

/-- What is left of a variable that has been solved is its definition and the
equations for the others. -/
theorem fulfils_define {θ : model.Valuation} (deps : language.Telescope)
    (goals : List (Goal language)) {x : Name} {type : Ty} {kind : Kind} :
    Fulfils θ (deps.intros ++ (goals.map .ofGoal ++ [.define x type kind])) ↔
      (∀ g ∈ goals, model.Solves θ g) ∧ θ x kind = model.eval θ kind type := by
  rw [fulfils_append, fulfils_append, fulfils_cons, and_iff_right (fulfils_intros deps),
    and_iff_left fulfils_nil]
  exact and_congr_left' List.forall_mem_map

/-- Where each new variable has the value of the unit it was put for, the
equations for the holes are solved. This is the converse of
`unitPart_of_holeGoals`. -/
theorem solves_holeGoals {holes : List (Name × Ty)} {goals : List (Goal language)}
    (h : holeGoals holes = .ok goals) {θ : model.Valuation}
    (hHoles : ∀ p ∈ holes, unitPart θ p.1 = unitValue θ p.2.toUnit) :
    ∀ g ∈ goals, model.Solves θ g := by
  have hPairs := holeGoals_eq_ok h
  clear h
  induction hPairs with
  | nil => exact List.forall_mem_nil _
  | @cons p g holes goals hHead _ ih =>
      obtain ⟨hHole, hRest⟩ := List.forall_mem_cons.mp hHoles
      obtain ⟨m, quotient, hm, hQuotient, rfl⟩ := hHead
      refine List.forall_mem_cons.mpr ⟨?_, ih hRest⟩
      rw [solves_isOne, Measure.toUnit_subtract hQuotient, Measure.toUnit_var,
        Ty.toUnit_of_toMeasure hm, map_sub, unitValue_var, hHole, sub_self]

/-- A solution of a unit equation is one of its reduction, where the new
variable gets what the quotient leaves of the variable that is defined. -/
theorem fulfils_reduce {θ : model.Valuation} {deps : language.Telescope}
    {unit quotient solution result : Measure} {x b : Name} (hx : unit.exponent x ≠ 0)
    (hQuotient : unit.pivot x = .ok quotient) (hSolution : quotient.add (.var b) = .ok solution)
    (hResult : unit.substitute x solution = .ok result)
    (hUnused : Unused b [.intro x .unit, .constraint ⟨deps, isOne unit⟩])
    (hθ : unitValue θ unit.toUnit = 0) :
    ∃ θ' : model.Valuation, (∀ y, y ≠ b → θ' y = θ y) ∧ Fulfils θ' (.intro b .unit ::
      (deps.intros ++ [.ofGoal (isOne result), .define x solution.toType .unit])) := by
  have hSolves := solvesUnits_reduce hx hQuotient hSolution hResult hUnused hθ
  let rest : Ty := .mul (.var x) (.pow quotient.toType (-1))
  let θ' := model.assign θ (.single b rest)
  have hSame : ∀ y, y ≠ b → θ' y = θ y := fun y hy => model.assign_of_not_mem θ rest hy
  have hUnits : unitPart θ' = Function.update (unitPart θ) b
      (unitPart θ x - UnitGroup.subst (unitPart θ) quotient.toUnit) := by
    funext y
    by_cases hy : y = b
    · rw [hy, Function.update_self]
      refine (model.assign_single_self θ b rest .unit).trans ?_
      change unitValue θ (.var x + (-1 : Int) • quotient.toUnit) = _
      rw [neg_one_zsmul, ← sub_eq_add_neg, map_sub, unitValue_var]
      rfl
    · rw [Function.update_of_ne hy]
      exact congrFun (hSame y hy) .unit
  rw [← hUnits] at hSolves
  obtain ⟨hReduced, hVar⟩ : UnitGroup.subst (unitPart θ') result.toUnit = 0 ∧
      unitPart θ' x = UnitGroup.subst (unitPart θ') solution.toUnit := by simpa using hSolves
  refine ⟨θ', hSame, ?_⟩
  exact (fulfils_define ((b, Kind.unit) :: deps) [isOne result]).mpr
    ⟨List.forall_mem_singleton.mpr hReduced, hVar⟩

/-- A solution gives each new variable of a hull the value of the unit it is put
for, so that the equation with the hull and those for its holes are solved. -/
theorem fulfils_hull {K deps : language.Telescope} {supply : Supply} {x : Name} {type : Ty}
    {hull : Hull} {goals : List (Goal language)} (hHull : type.hull supply = .ok hull)
    (hGoals : holeGoals hull.holes = .ok goals)
    (hKinds : kinding.Equation (Language.Telescope.Declares (K ++ deps)) (.var x) type)
    (hFresh : ∀ p ∈ hull.vars, ∀ k, (p.1, k) ∉ K ++ deps) {θ : model.Valuation}
    (hθ : θ x .value = model.eval θ .value type) :
    ∃ θ' : model.Valuation, (∀ y, y ∉ hull.vars.map Prod.fst → θ' y = θ y) ∧ Fulfils θ'
      (.constraint ⟨deps ++ hull.vars, .special (.hull x hull.shape)⟩ :: goals.map .ofGoal) := by
  let θ' := model.assign θ fun y => hull.holes.lookup y
  have hSame : ∀ y, y ∉ hull.vars.map Prod.fst → θ' y = θ y := by
    intro y hy
    rw [Hull.map_fst_vars] at hy
    funext k
    simp only [θ', Reading.assign, Name.lookup_of_not_mem hy]
  have hAgree : model.Agree (K ++ deps) θ' θ := by
    intro p hp
    rw [hSame p.1 fun hMem => ?_]
    obtain ⟨q, hq, hEq⟩ := List.mem_map.mp hMem
    exact hFresh q hq p.2 (hEq ▸ hp)
  obtain ⟨_, rfl, hVar, hType⟩ := hKinds
  have hUnits := (hull_kinds hHull hType).1
  have hHoles : ∀ p ∈ hull.holes, unitPart θ' p.1 = unitValue θ' p.2.toUnit := by
    intro p hp
    have hLookup := Name.lookup_of_nodup (hull_fresh hHull).2.1 hp
    rw [unitValue_agree (fun y hy => (hUnits p hp).of_mem_toUnit hy) hAgree]
    simp only [unitPart, θ', Reading.assign, hLookup]
    rfl
  have hSolved : Fulfils θ' (goals.map .ofGoal) :=
    List.forall_mem_map.mpr (solves_holeGoals hGoals hHoles)
  refine ⟨θ', hSame, fulfils_cons.mpr ⟨?_, hSolved⟩⟩
  change model.eval θ' .value (.var x) = model.eval θ' .value hull.shape
  rw [eval_hull hHull hHoles, Model.eval_agree compatible hVar hAgree,
    Model.eval_agree compatible hType hAgree]
  exact hθ

/-- No replacement loses a solution, once the new variables have values. All but
two leave the solution as it is; a reduction and a hull introduce variables
whose values can be read off the old entries. -/
theorem fulfils_unitMove {supply supply' : Supply} {fresh K : language.Telescope}
    {old new : List (Entry language)} (h : UnitMove supply supply' fresh old new)
    (hScoped : kinding.Scoped K old) (hNodup : ((K ++ declared old).map Prod.fst).Nodup)
    (hFresh : ∀ p ∈ fresh, ∀ k, (p.1, k) ∉ K ++ declared old) {θ : model.Valuation}
    (hθ : Fulfils θ old) :
    ∃ θ' : model.Valuation, (∀ y, y ∉ fresh.map Prod.fst → θ' y = θ y) ∧ Fulfils θ' new := by
  cases h with
  | settle => exact ⟨θ, fun _ _ => rfl, fulfils_intros _⟩
  | @unfold deps unit value result x type kind hx hValue hResult =>
      obtain ⟨rfl, -⟩ := kinds_of_exponent rfl hx hNodup hScoped.2.1
      obtain ⟨hDefine, hEquation⟩ := fulfils_cons.mp hθ
      have hVar : unitPart θ x = unitValue θ value.toUnit := by
        rw [Ty.toUnit_of_toMeasure hValue]
        exact hDefine
      have hReduced := (subst_substitute hResult hVar).trans (fulfils_constraint.mp hEquation)
      refine ⟨θ, fun _ _ => rfl, (fulfils_define deps [isOne result]).mpr ⟨?_, hDefine⟩⟩
      exact List.forall_mem_singleton.mpr hReduced
  | @solve deps unit solution x kind hx hDivides hSolution =>
      obtain ⟨rfl, -⟩ := kinds_of_exponent rfl hx hNodup hScoped.2.1
      have hEquation := fulfils_constraint.mp (fulfils_cons.mp hθ).2
      refine ⟨θ, fun _ _ => rfl, (fulfils_define deps []).mpr ⟨List.forall_mem_nil _, ?_⟩⟩
      exact (subst_pivot hx hDivides hSolution).mp hEquation
  | @reduce deps unit quotient solution result x kind hx hRival hQuotient hSolution hResult =>
      obtain ⟨rfl, hRest⟩ := kinds_of_exponent rfl hx hNodup hScoped.2.1
      have hEquation := fulfils_constraint.mp (fulfils_cons.mp hθ).2
      have hNew := hFresh _ List.mem_cons_self
      have hUnused : Unused (supply.draw "b").1
          [.intro x .unit, .constraint ⟨deps, isOne unit⟩] := by
        refine ⟨fun hMem => ?_, fun e he hMem => ?_⟩
        · obtain ⟨p, hp, hEq⟩ := List.mem_map.mp hMem
          exact hNew p.2 (List.mem_append_right _ (hEq ▸ hp))
        · rcases List.mem_cons.mp he with rfl | he
          · cases hMem
          · cases List.mem_singleton.mp he
            have hDeclared : (_, Kind.unit) ∈ (K ++ [(x, .unit)]) ++ deps :=
              hScoped.2.1 _ (Measure.mem_names.mp hMem)
            exact hNew .unit (by simpa [declared, Entry.declared] using hDeclared)
      obtain ⟨θ', hSame, hθ'⟩ := fulfils_reduce hx hQuotient hSolution hResult hUnused hEquation
      exact ⟨θ', fun y hy => hSame y (List.ne_of_not_mem_cons hy), hθ'⟩
  | @hull deps x type hull goals hHull hGoals hRigid =>
      have hDeclared : declared [.constraint ⟨deps, .eq (.var x) type⟩] = deps :=
        List.append_nil deps
      rw [hDeclared] at hFresh
      exact fulfils_hull hHull hGoals hScoped.1 hFresh (fulfils_constraint.mp hθ)

/-- Nor does one somewhere in a state, as its new variables are not in use there. -/
theorem fulfils_replaces {s t : State language} (hs : kinding.Good s) (h : Replaces s t)
    {θ : model.Valuation} (hθ : Fulfils θ s.context.entries) :
    ∃ θ', model.Agree (declared s.context.entries) θ' θ ∧ Fulfils θ' t.context.entries := by
  obtain @⟨pre, post, supply, supply', fresh, old, new, hMove⟩ := h
  have hFresh : ∀ p ∈ fresh, ∀ k, (p.1, k) ∉ declared (pre ++ (old ++ post)) :=
    fun p hp k hMem => hs.drawn _ hMem (hMove.pending_fresh p hp).1
  have hFreshHere : ∀ p ∈ fresh, ∀ k, (p.1, k) ∉ declared pre ++ declared old := by
    intro p hp k hMem
    apply hFresh p hp k
    rw [declared_append, declared_append, ← List.append_assoc]
    exact List.mem_append_left _ hMem
  obtain ⟨hScoped, hNodup⟩ := hs.wellFormed.segment
  have hOld := (fulfils_append.mp (fulfils_append.mp hθ).2).1
  obtain ⟨θ', hSame, hNew⟩ := fulfils_unitMove hMove hScoped hNodup hFreshHere hOld
  have hAgree : model.Agree (declared (pre ++ (old ++ post))) θ' θ := by
    intro p hp
    rw [hSame p.1 fun hMem => ?_]
    obtain ⟨q, hq, hEq⟩ := List.mem_map.mp hMem
    exact hFresh q hq p.2 (hEq ▸ hp)
  have hθ' := Fulfils.agree (K := []) hs.wellFormed.inScope hAgree.symm hθ
  simp only [fulfils_append] at hθ' ⊢
  exact ⟨θ', hAgree, hθ'.1, hNew, hθ'.2.2⟩

/-- A solution of a state is one of the next state, once the variables that the
step introduced have values. -/
theorem fulfils_step {s t : State language} (hs : kinding.Good s) (h : s.step = .ok t)
    {θ : model.Valuation} (hθ : Fulfils θ s.context.entries) :
    ∃ θ', model.Agree (declared s.context.entries) θ' θ ∧ Fulfils θ' t.context.entries := by
  obtain ⟨u, hSupply, hMoves, hLast⟩ := step_stepsTo h
  have hSolves := fulfils_moves hMoves hs.wellFormed hθ
  rcases hLast with rfl | hReplaces
  · exact ⟨θ, fun _ _ => rfl, hSolves⟩
  · have hRefines : Refines kinding model s u := .of_moves hs hSupply hMoves
    obtain ⟨θ', hAgree, hθ'⟩ := fulfils_replaces hRefines.good hReplaces hSolves
    exact ⟨θ', hAgree.mono hMoves.declared_perm.symm.subset, hθ'⟩

end HindleyMilner.Units
