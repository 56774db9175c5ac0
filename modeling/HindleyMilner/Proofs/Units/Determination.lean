import HindleyMilner.Proofs.Determination
import HindleyMilner.Proofs.Units.InternalErrors

/-! Which variables are determined by others while units are solved. A hull carries parts
of a type whose value is known below it, and a unit equation carries a variable only if
it has met none with so large an exponent. So neither takes a variable below a marker
that could have been quantified there, and new variables are determined where they are
introduced. -/
namespace HindleyMilner.Units

open Context

/-- Values that agree on a unit and on all of its variables but one
agree on that one, because a multiple other than zero determines an
element of the group. -/
theorem UnitGroup.eq_of_subst_eq {ρ ρ' : Name → UnitGroup} {u : UnitGroup} {x : Name}
    (hx : x ∈ u.freeVars) (hOthers : ∀ y ∈ u.freeVars, y ≠ x → ρ y = ρ' y)
    (h : subst ρ u = subst ρ' u) : ρ x = ρ' x := by
  let n := u (.var x)
  let rest := u - n • var x
  have hRest : subst ρ rest = subst ρ' rest := by
    apply subst_congr
    intro y hy
    have hApply : rest (.var y) = u (.var y) - n * (if Factor.var x = .var y then 1 else 0) := by
      rw [Finsupp.sub_apply, Finsupp.smul_apply, var, Finsupp.single_apply, smul_eq_mul]
    rw [mem_freeVars, hApply] at hy
    have hNe : y ≠ x := by
      rintro rfl
      simp [n] at hy
    rw [if_neg fun hEq => hNe (Factor.var.inj hEq).symm, mul_zero, sub_zero] at hy
    exact hOthers y (mem_freeVars.mpr hy) hNe
  have hSum : u = rest + n • var x := (sub_add_cancel _ _).symm
  rw [hSum, map_add, map_add, hRest, map_smul, map_smul, subst_var, subst_var] at h
  exact smul_right_injective _ (mem_freeVars.mp hx) (add_left_cancel h)

/-- Whether all units in a type are variables. -/
def Ty.isHollow : Ty → Bool
  | var _ => true
  | arrow a b => a.isHollow && b.isHollow
  | float (var _) => true
  | _ => false

/-- The units of a hull are variables, and a hull of what is no variable is none. -/
theorem isHollow_hull {supply : Supply} {t : Ty} {hull : Hull} (h : t.hull supply = .ok hull) :
    hull.shape.isHollow = true ∧ (t.asVar? = none → hull.shape.asVar? = none) := by
  induction t generalizing supply hull with
  | var x =>
      cases h
      exact ⟨rfl, fun hVar => hVar⟩
  | arrow a b iha ihb =>
      obtain ⟨left, hLeft, h⟩ := bind_eq_ok.mp h
      obtain ⟨right, hRight, h⟩ := bind_eq_ok.mp h
      cases h
      exact ⟨Bool.and_eq_true_iff.mpr ⟨(iha hLeft).1, (ihb hRight).1⟩, fun _ => rfl⟩
  | float u =>
      cases h
      exact ⟨rfl, fun _ => rfl⟩
  | _ => cases h

/-- The new variables of a hull occur in its shape, each in the place of the unit it stands for.
-/
theorem mem_shape_of_hole {supply : Supply} {t : Ty} {hull : Hull} (h : t.hull supply = .ok hull) :
    ∀ p ∈ hull.holes, p.1 ∈ hull.shape.freeVars := by
  induction t generalizing supply hull with
  | var x =>
      cases h
      exact List.forall_mem_nil _
  | arrow a b iha ihb =>
      obtain ⟨left, hLeft, h⟩ := bind_eq_ok.mp h
      obtain ⟨right, hRight, h⟩ := bind_eq_ok.mp h
      cases h
      intro p hp
      rcases List.mem_append.mp hp with hp | hp
      · exact List.mem_append_left _ (iha hLeft p hp)
      · exact List.mem_append_right _ (ihb hRight p hp)
  | float u =>
      cases h
      intro p hp
      rw [List.mem_singleton.mp hp]
      exact List.mem_cons_self
  | _ => cases h

/-- Where a type with variables for units has one value under two valuations,
these agree on all of its variables, each at its kind. -/
theorem Ty.agree_of_isHollow {t : Ty} (hHollow : t.isHollow = true) {K : language.Scope}
    (hKind : HasKind K t .value) {θ θ' : model.Valuation}
    (h : model.eval θ .value t = model.eval θ' .value t) :
    ∀ x ∈ t.freeVars, ∃ k, K x k ∧ θ x k = θ' x k := by
  induction t with
  | var x =>
      intro y hy
      rw [List.mem_singleton.mp hy]
      cases hKind with
      | var hx => exact ⟨.value, hx, h⟩
  | arrow a b iha ihb =>
      cases hKind with
      | arrow ha hb =>
          obtain ⟨hHollowA, hHollowB⟩ := Bool.and_eq_true_iff.mp hHollow
          obtain ⟨hDomain, hCodomain⟩ := ValueTy.arrow.inj h
          intro x hx
          rcases List.mem_append.mp hx with hx | hx
          · exact iha hHollowA ha hDomain x hx
          · exact ihb hHollowB hb hCodomain x hx
  | float u =>
      cases u with
      | var x =>
          intro y hy
          rw [List.mem_singleton.mp hy]
          cases hKind with
          | float hu =>
              cases hu with
              | var hx =>
                  have hUnit : unitValue θ (.var x) = unitValue θ' (.var x) := ValueTy.float.inj h
                  rw [unitValue_var, unitValue_var] at hUnit
                  exact ⟨.unit, hx, hUnit⟩
      | _ => cases hHollow
  | _ => cases hHollow

/-- A hull goal is about a hull, which is no variable. -/
def Hollow : Goal language → Prop
  | .special (.hull _ shape) => shape.isHollow = true ∧ shape.asVar? = none
  | _ => True

def AllHollow (es : List (Entry language)) : Prop :=
  ∀ c, .constraint c ∈ es → Hollow c.goal

theorem allHollow_append {es fs : List (Entry language)} :
    AllHollow (es ++ fs) ↔ AllHollow es ∧ AllHollow fs := by
  simp only [AllHollow, List.mem_append, or_imp, forall_and]

theorem allHollow_of_settled {es : List (Entry language)} (h : Settled es) : AllHollow es := by
  intro c hc
  cases h _ hc

theorem allHollow_constraint {deps : language.Telescope} {g : Goal language} (h : Hollow g) :
    AllHollow [.constraint ⟨deps, g⟩] := by
  intro c hc
  cases List.mem_singleton.mp hc
  exact h

/-- An equation with a hull determines the variables that it carries by the one
that it defines, since they occur in the shape. -/
theorem hull_determined {K deps : language.Telescope} {x : Name} {shape : Ty}
    (hNodup : ((K ++ deps).map Prod.fst).Nodup)
    (hGoal : kinding.Equation (Language.Telescope.Declares (K ++ deps)) (.var x) shape)
    (hHollow : shape.isHollow = true) (hPoised : ∀ p ∈ deps, p.1 ≠ x)
    (hOccurs : ∀ p ∈ deps, p.1 ∈ shape.freeVars) {θ θ' : model.Valuation}
    (hθ : θ x .value = model.eval θ .value shape) (hθ' : θ' x .value = model.eval θ' .value shape)
    (hAgree : model.Agree K θ θ') : model.Agree deps θ θ' := by
  obtain ⟨_, rfl, hVar, hShape⟩ := hGoal
  have hBelow : (x, Kind.value) ∈ K := by
    cases hVar with
    | var hx => exact (List.mem_append.mp hx).resolve_right fun hx => hPoised _ hx rfl
  have hValues : model.eval θ .value shape = model.eval θ' .value shape := by
    rw [← hθ, ← hθ']
    exact hAgree _ hBelow
  intro p hp
  obtain ⟨k, hk, hSame⟩ := Ty.agree_of_isHollow hHollow hShape hValues p.1 (hOccurs p hp)
  cases Name.eq_of_nodup hNodup hk (List.mem_append_right K hp)
  exact hSame

/-- A unit equation carries at most one variable, and determines it by the
others: its power is not zero, and the group has no torsion. -/
theorem identity_determined {K deps : language.Telescope} {unit : Measure}
    (hNodup : ((K ++ deps).map Prod.fst).Nodup)
    (hGoal : ∀ x ∈ unit.toUnit.freeVars, (x, Kind.unit) ∈ K ++ deps)
    (hPoised : ∀ p ∈ deps, unit.hasRival p.1 = false)
    (hOccurs : ∀ p ∈ deps, p.1 ∈ unit.vars.names) {θ θ' : model.Valuation}
    (hθ : unitValue θ unit.toUnit = 0) (hθ' : unitValue θ' unit.toUnit = 0)
    (hAgree : model.Agree K θ θ') : model.Agree deps θ θ' := by
  intro p hp
  have hFree := Measure.mem_names.mp (hOccurs p hp)
  have hKind := Name.eq_of_nodup hNodup (hGoal p.1 hFree) (List.mem_append_right K hp)
  -- The equation carries no other variable, so the others are below it.
  have hOthers : ∀ y ∈ unit.toUnit.freeVars, y ≠ p.1 → unitPart θ y = unitPart θ' y := by
    intro y hy hNe
    rcases List.mem_append.mp (hGoal y hy) with hMem | hMem
    · exact hAgree _ hMem
    · exact absurd (Measure.eq_of_no_rival (hOccurs _ hMem) (hOccurs p hp) (hPoised _ hMem)
        (hPoised p hp)) hNe
  have hSame := UnitGroup.eq_of_subst_eq hFree hOthers (Eq.trans hθ hθ'.symm)
  rw [← hKind]
  exact hSame

/-- A constraint that passes a fixed entry determines what it carries by
what is declared below. -/
theorem carried_determined {K : language.Telescope} {c : Constraint language}
    (hNodup : ((K ++ c.deps).map Prod.fst).Nodup)
    (hGoal : kinding.Entry K (.constraint c)) (hPoised : Poised c) (hHollow : Hollow c.goal)
    (hAnchors : ∀ p ∈ c.deps, c.goal.Anchors p.1) {θ θ' : model.Valuation}
    (hθ : model.Solves θ c.goal) (hθ' : model.Solves θ' c.goal) (hAgree : model.Agree K θ θ') :
    model.Agree c.deps θ θ' := by
  obtain ⟨deps, goal⟩ := c
  cases goal with
  | eq l r =>
      obtain rfl : deps = [] := hPoised
      exact List.forall_mem_nil _
  | special g =>
      cases g with
      | hull x shape =>
          exact hull_determined hNodup hGoal hHollow.1 hPoised (fun p hp => (hAnchors p hp).2)
            hθ hθ' hAgree
      | identity unit =>
          exact identity_determined hNodup hGoal (fun p hp => (hPoised p hp).1) hAnchors
            (solves_isOne.mp hθ) (solves_isOne.mp hθ') hAgree

/-- The new variables of a replacement are determined by the old ones: what a
reduction leaves by the variable it defines, and the holes of a hull by the
units they were put for. -/
theorem UnitMove.fresh_determined {supply supply' : Supply} {fresh K : language.Telescope}
    {old new : List (Entry language)} (h : UnitMove supply supply' fresh old new)
    (hNodup : ((K ++ declared old).map Prod.fst).Nodup) (hOld : kinding.Scoped K old)
    {θ θ' : model.Valuation} (hθ : model.Satisfies θ new) (hθ' : model.Satisfies θ' new)
    (hAgree : model.Agree (K ++ declared old) θ θ') : model.Agree fresh θ θ' := by
  cases h with
  | @reduce deps unit quotient solution result x kind hx hRival hQuotient hSolution hResult =>
      obtain ⟨rfl, hRest⟩ := kinds_of_exponent rfl hx hNodup hOld.2.1
      -- The new variable is what the quotient leaves of the old one.
      have hNew : ∀ η : model.Valuation, model.Satisfies η (.intro (supply.draw "b").1 .unit ::
          (deps.intros ++ [.ofGoal (isOne result), .define x solution.toType .unit])) →
          unitPart η (supply.draw "b").1 = unitPart η x - unitValue η quotient.toUnit := by
        intro η hη
        obtain ⟨-, hTail⟩ := model.satisfies_cons.mp (model.satisfies_append.mp
          (model.satisfies_cons.mp hη).2).2
        have hDefine := unitPart_of_define (model.satisfies_cons.mp hTail).1
        rw [hDefine, show solution.toType.toUnit = solution.toUnit from rfl,
          Measure.toUnit_add hSolution, Measure.toUnit_var, map_add, unitValue_var,
          add_sub_cancel_left]
      have hx' : unitPart θ x = unitPart θ' x :=
        hAgree (x, .unit) (List.mem_append_right _ List.mem_cons_self)
      have hQuotientValue : unitValue θ quotient.toUnit = unitValue θ' quotient.toUnit := by
        refine unitValue_agree (fun y hy => ?_) hAgree
        obtain ⟨hFree, hNe⟩ := Measure.mem_freeVars_pivot hx hQuotient hy
        have hMem := hRest y hFree hNe
        rw [declared_cons, declared_cons]
        rw [List.mem_append] at hMem ⊢
        exact hMem.imp_right fun hDeps => List.mem_append_right _ (List.mem_append_left _ hDeps)
      intro p hp
      cases List.mem_singleton.mp hp
      exact (hNew θ hθ).trans ((congrArg₂ _ hx' hQuotientValue).trans (hNew θ' hθ').symm)
  | @hull deps x type hull goals hHull hGoals =>
      obtain ⟨⟨_, rfl, -, hType⟩, -⟩ := hOld
      have hHoles := (hull_kinds hHull hType).1
      have hNew : ∀ η : model.Valuation, model.Satisfies η
          (.constraint ⟨deps ++ hull.vars, .special (.hull x hull.shape)⟩ :: goals.map .ofGoal) →
          ∀ p ∈ hull.holes, unitPart η p.1 = unitValue η p.2.toUnit := by
        intro η hη
        apply unitPart_of_holeGoals hGoals
        exact fun g hg => (model.satisfies_cons.mp hη).2 _ (List.mem_map_of_mem hg)
      intro p hp
      obtain ⟨hole, hHole, rfl⟩ := List.mem_map.mp hp
      have hUnit : unitValue θ hole.2.toUnit = unitValue θ' hole.2.toUnit := by
        refine unitValue_agree (fun y hy => ?_) hAgree
        have hMem : (y, Kind.unit) ∈ K ++ deps := (hHoles hole hHole).of_mem_toUnit hy
        rw [List.mem_append] at hMem ⊢
        exact hMem.imp_right fun hDeps => List.mem_append_left _ hDeps
      exact (hNew θ hθ hole hHole).trans (hUnit.trans (hNew θ' hθ' hole hHole).symm)
  | _ => exact List.forall_mem_nil _

/-- Well-kinded states are well-scoped, since a type that has a kind uses
declared variables. -/
theorem good_scoping {s : State language} (h : kinding.Good s) :
    (Discipline.scoping language).Good s := by
  refine ⟨⟨(Sorting.scoped_iff _).mpr fun below e above hEntries => ?_, h.wellFormed.nodup⟩,
    h.drawn⟩
  have hEntry := kinding.scoped_iff.mp h.wellFormed.inScope below e above hEntries
  cases e with
  | define x type kind => exact HasKind.declared hEntry
  | bind x scheme => exact HasKind.declared hEntry
  | constraint c =>
      obtain ⟨deps, goal⟩ := c
      cases goal with
      | eq l r =>
          obtain ⟨k, -, hl, hr⟩ := hEntry
          exact ⟨k, trivial, hl.declared, hr.declared⟩
      | special g =>
          cases g with
          | hull x shape =>
              obtain ⟨k, -, hl, hr⟩ := hEntry
              exact ⟨k, trivial, hl.declared, hr.declared⟩
          | identity unit => exact fun x hx => ⟨.unit, hEntry x (Measure.mem_names.mp hx)⟩
  | _ => trivial

theorem hollow_of_sides {g : Goal language} (h : g.sides = none) : Hollow g := by
  cases g with
  | eq l r => trivial
  | special g =>
      cases g with
      | hull x shape => cases h
      | identity unit => trivial

theorem allHollow_ofGoals {goals : List (Goal language)} (h : ∀ g ∈ goals, Hollow g) :
    AllHollow (goals.map .ofGoal) := by
  intro c hc
  obtain ⟨g, hg, hc⟩ := List.mem_map.mp hc
  cases hc
  exact h g hg

/-- A constraint that puts down what it carries. -/
theorem allHollow_lowered (deps : language.Telescope) {g : Goal language} (hg : Hollow g)
    {es : List (Entry language)} (hSettled : Settled es) :
    AllHollow (deps.intros ++ (.ofGoal g :: es)) := by
  rw [← List.singleton_append, allHollow_append, allHollow_append]
  exact ⟨allHollow_of_settled (settled_intros deps), allHollow_constraint hg,
    allHollow_of_settled hSettled⟩

/-- No move makes a hull out of another type: the goals about hulls that it
leaves are those that were there. -/
theorem allHollow_move {old new : List (Entry language)} (h : Move old new)
    (hOld : AllHollow old) : AllHollow new := by
  cases h with
  | recast => exact allHollow_constraint trivial
  | lower deps g =>
      exact allHollow_lowered deps (hOld _ List.mem_cons_self) (List.forall_mem_nil _)
  | sink => exact fun c hc => hOld c ((List.Perm.swap _ _ _).subset hc)
  | pass => exact fun c hc => hOld c ((List.Perm.swap _ _ _).subset hc)
  | lift => exact allHollow_constraint (hOld _ (List.mem_cons_of_mem _ List.mem_cons_self))
  | unfold =>
      exact allHollow_lowered [] (g := .eq _ _) trivial (by simp [Settled, Entry.isConstraint])
  | solve => exact allHollow_of_settled (by simp [Settled, Entry.isConstraint])
  | drop => exact allHollow_of_settled (List.forall_mem_nil _)
  | split hGoals =>
      apply allHollow_ofGoals
      rcases decompose_eq_ok hGoals with
        ⟨a, b, c, d, rfl, rfl, rfl⟩ | ⟨u, v, m, n, unit, rfl, rfl, hm, hn, hUnit, rfl⟩
      · simp [Hollow]
      · simp [Hollow]

theorem allHollow_moves {es fs : List (Entry language)} (h : Moves es fs) (hOld : AllHollow es) :
    AllHollow fs := by
  induction h with
  | refl => exact hOld
  | tail _ hLast ih =>
      obtain ⟨pre, post, hMove⟩ := hLast
      simp only [allHollow_append] at ih ⊢
      exact ⟨ih.1, allHollow_move hMove ih.2.1, ih.2.2⟩

/-- The one equation with a shape that a replacement adds is one with a hull. -/
theorem UnitMove.allHollow {supply supply' : Supply} {fresh : language.Telescope}
    {old new : List (Entry language)} (h : UnitMove supply supply' fresh old new) :
    AllHollow new := by
  have hDefine : ∀ x type kind, Settled [(Entry.define x type kind : Entry language)] :=
    fun _ _ _ => by simp [Settled, Entry.isConstraint]
  cases h with
  | settle => exact allHollow_of_settled (settled_intros _)
  | unfold => exact allHollow_lowered _ (g := isOne _) trivial (hDefine _ _ _)
  | solve => exact allHollow_of_settled (settled_append.mpr ⟨settled_intros _, hDefine _ _ _⟩)
  | @reduce deps =>
      exact allHollow_lowered (((supply.draw "b").1, Kind.unit) :: deps) (g := isOne _) trivial
        (hDefine _ _ _)
  | hull hHull hGoals hRigid =>
      obtain ⟨hHollow, hShape⟩ := isHollow_hull hHull
      rw [← List.singleton_append, allHollow_append]
      refine ⟨allHollow_constraint ⟨hHollow, hShape hRigid⟩, allHollow_ofGoals fun g hg => ?_⟩
      exact hollow_of_sides (sides_of_holeGoals hGoals g hg)

/-- What is kept on the way from the equation of an application. -/
structure Ready (s : State language) : Prop where
  good : kinding.Good s
  poised : AllPoised s.context.entries
  anchored : Anchored s.context.entries
  hollow : AllHollow s.context.entries

namespace Ready

/-- The equation of an application is ready: it carries nothing and is no hull
yet. -/
theorem equate {s : State language} (hSettled : Settled s.context.entries) {function argument : Ty}
    (hs : kinding.Good (s.equate function argument)) : Ready (s.equate function argument) where
  good := hs
  poised := by
    rw [State.entries_equate, ← List.singleton_append, allPoised_append, allPoised_append]
    refine ⟨allPoised_of_settled hSettled, allPoised_of_settled ?_,
      allPoised_constraint (poised_ofGoal _)⟩
    simp [Settled, Entry.isConstraint]
  anchored := State.anchored_equate hSettled function argument
  hollow := by
    rw [State.entries_equate, ← List.singleton_append, allHollow_append, allHollow_append]
    refine ⟨allHollow_of_settled hSettled, allHollow_of_settled ?_, allHollow_constraint trivial⟩
    simp [Settled, Entry.isConstraint]

variable {supply supply' : Supply} {pre old middle new post : List (Entry language)}

/-- A state stays ready when an equation is turned round, as that changes no variable and no kind.
-/
theorem turned (hs : Ready ⟨supply, ⟨pre ++ (old ++ post)⟩⟩) (h : Turned old middle) :
    Ready ⟨supply, ⟨pre ++ (middle ++ post)⟩⟩ := by
  have hMoves := h.moves.middle pre post
  have hRefines : Refines kinding model ⟨supply, ⟨pre ++ (old ++ post)⟩⟩
      ⟨supply, ⟨pre ++ (middle ++ post)⟩⟩ := .of_moves hs.good rfl hMoves
  refine ⟨hRefines.good, ?_, hMoves.anchored hs.anchored, allHollow_moves hMoves hs.hollow⟩
  cases h with
  | refl => exact hs.poised
  | @turn deps l r hRigid =>
      obtain ⟨hPre, hRest⟩ := allPoised_append.mp hs.poised
      obtain ⟨hOld, hPost⟩ := allPoised_append.mp hRest
      have hNil : deps = [] := hOld ⟨deps, .eq l r⟩ List.mem_cons_self
      exact allPoised_append.mpr ⟨hPre, allPoised_append.mpr ⟨allPoised_constraint hNil, hPost⟩⟩

/-- The constraints that a replacement adds are anchored. The new variables that
an equation carries occur in the hull it is for. -/
theorem anchored_unitMove {fresh : language.Telescope}
    (hs : Ready ⟨supply, ⟨pre ++ (old ++ post)⟩⟩) (h : UnitMove supply supply' fresh old new) :
    Anchored new := by
  have hLowered : ∀ (deps : language.Telescope) (g : Goal language) (es : List (Entry language)),
      Settled es → Anchored (deps.intros ++ (.ofGoal g :: es)) := by
    intro deps g es hes
    rw [← List.singleton_append, anchored_append (L := language), anchored_append (L := language)]
    exact ⟨anchored_of_settled (L := language) (settled_intros deps), anchored_ofGoal g,
      anchored_of_settled hes⟩
  have hDefine : ∀ x type kind, Settled [(Entry.define x type kind : Entry language)] :=
    fun _ _ _ => by simp [Settled, Entry.isConstraint]
  cases h with
  | settle => exact anchored_of_settled (settled_intros _)
  | unfold => exact hLowered _ _ _ (hDefine _ _ _)
  | solve => exact anchored_of_settled (settled_append.mpr ⟨settled_intros _, hDefine _ _ _⟩)
  | @reduce deps => exact hLowered (((supply.draw "b").1, Kind.unit) :: deps) _ _ (hDefine _ _ _)
  | @hull deps x type hull goals hHull hGoals hRigid =>
      have hMem : Entry.constraint ⟨deps, .eq (.var x) type⟩ ∈
          pre ++ ([.constraint ⟨deps, .eq (.var x) type⟩] ++ post) :=
        List.mem_append_right _ List.mem_cons_self
      obtain rfl : deps = [] := hs.poised _ hMem
      obtain ⟨⟨_, -, hVar, -⟩, -⟩ := hs.good.wellFormed.segment.1
      rw [← List.singleton_append, anchored_append (L := language)]
      constructor
      · intro c hc p hp
        cases List.mem_singleton.mp hc
        rw [List.nil_append] at hp
        obtain ⟨hole, hHole, rfl⟩ := List.mem_map.mp hp
        refine ⟨⟨x, rfl, fun hEq => ?_⟩, mem_shape_of_hole hHull hole hHole⟩
        -- The variable is declared, and those of the hull have yet to be drawn.
        cases hVar with
        | var hx =>
            rw [List.append_nil] at hx
            have hDeclared := List.mem_append_left
              (declared ([.constraint ⟨[], .eq (.var x) type⟩] ++ post)) hx
            rw [← declared_append] at hDeclared
            exact hs.good.drawn _ hDeclared (hEq ▸ ((hull_fresh hHull).2.2 hole hHole).1)
      · intro c hc p hp
        obtain ⟨g, -, hc⟩ := List.mem_map.mp hc
        cases hc
        cases hp

/-- A step keeps a state ready. It is made of moves and replacements, each of
which keeps all four conditions. -/
theorem step {s t : State language} (hs : Ready s) (h : s.step = .ok t) : Ready t := by
  refine ⟨(stepsRefine hs.good h).good, step_poised (good_scoping hs.good) hs.poised h, ?_, ?_⟩
  · cases step_local h with
    | rearrange pre post hFixed hMoves => exact (hMoves.middle pre post).anchored hs.anchored
    | pass pre post he c => exact ((Moves.pass_fixed he c).middle pre post).anchored hs.anchored
    | replace pre post hTurned hMove =>
        have hMiddle := hs.turned hTurned
        have hAnchored := hMiddle.anchored
        simp only [anchored_append] at hAnchored ⊢
        exact ⟨hAnchored.1, hMiddle.anchored_unitMove hMove, hAnchored.2.2⟩
  · cases step_local h with
    | rearrange pre post hFixed hMoves => exact allHollow_moves (hMoves.middle pre post) hs.hollow
    | pass pre post he c =>
        exact allHollow_moves ((Moves.pass_fixed he c).middle pre post) hs.hollow
    | replace pre post hTurned hMove =>
        have hHollow := hs.hollow
        simp only [allHollow_append] at hHollow ⊢
        exact ⟨hHollow.1, hMove.allHollow, hHollow.2.2⟩

end Ready

/-- Steps from ready states determine what they declare. Most are moves;
replacements have to be looked at one by one. -/
theorem stepsDetermine : StepsDetermine kinding model Ready := by
  intro s t hGood hs h
  refine ⟨?_, hs.step h⟩
  cases step_local h with
  | rearrange pre post hFixed hMoves =>
      refine .of_replaced hFixed (hMoves.toExtends.fixed_eq.trans hFixed) fun θ θ' _ _ hAgree => ?_
      exact (Reading.agree_append.mp hAgree).2.mono hMoves.declared_perm.subset
  | @pass pre post supply e he c =>
      obtain ⟨⟨-, hGoal, -⟩, hNodup⟩ := hs.good.wellFormed.segment
      have hDeclared : declared [e, .constraint c] = c.deps := by
        rw [declared_cons, declared_of_isFixed he]
        exact List.append_nil c.deps
      rw [hDeclared] at hNodup
      rw [declared_of_isFixed he, List.append_nil] at hGoal
      have hMem : Entry.constraint c ∈ pre ++ ([e, .constraint c] ++ post) :=
        List.mem_append_right _ (List.mem_cons_of_mem _ List.mem_cons_self)
      apply Determines.of_passed he
      intro θ θ'
      exact carried_determined hNodup hGoal (hs.poised c hMem) (hs.hollow c hMem)
        (hs.anchored c hMem)
  | @replace pre post supply supply' fresh old middle new hTurned hMove =>
      have hMoves := hTurned.moves
      have hOld : fixed old = [] := hMoves.toExtends.fixed_eq.symm.trans hMove.fixed_old
      obtain ⟨hScoped, hNodup⟩ := (hs.turned hTurned).good.wellFormed.segment
      refine .of_replaced hOld hMove.fixed_new fun θ θ' hθ hθ' hAgree => ?_
      have hMiddle : model.Agree (declared pre ++ declared middle) θ θ' :=
        hAgree.mono (hMoves.declared_perm.append_left _).subset
      have hFresh := hMove.fresh_determined hNodup hScoped hθ hθ' hMiddle
      refine (Reading.agree_append.mpr ⟨?_, hFresh⟩).mono hMove.declared_perm.subset
      exact (Reading.agree_append.mp hMiddle).2

end HindleyMilner.Units
