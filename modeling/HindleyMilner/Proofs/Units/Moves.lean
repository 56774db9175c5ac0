import HindleyMilner.Proofs.Refinement
import HindleyMilner.Proofs.Units.Kinding

/-! What the solver does to a context with units beside its moves. It replaces a type
by its hull, and solves a unit equation for one of its variables at a time. -/
namespace HindleyMilner.Units

open Context

def Hull.vars (hull : Hull) : language.Telescope := hull.holes.map fun hole => (hole.1, .unit)

theorem Hull.map_fst_vars (hull : Hull) : hull.vars.map Prod.fst = hull.holes.map Prod.fst := by
  rw [vars, List.map_map]
  rfl

/-- The new variables of a hull are fresh: they are different, waited to be
drawn, and no longer do. -/
theorem hull_fresh {supply : Supply} {t : Ty} {hull : Hull} (h : t.hull supply = .ok hull) :
    supply.Advances hull.supply ∧ (hull.holes.map Prod.fst).Nodup ∧
      ∀ p ∈ hull.holes, supply.Pending p.1 ∧ ¬hull.supply.Pending p.1 := by
  induction t generalizing supply hull with
  | var x =>
      cases h
      exact ⟨.refl _, List.nodup_nil, fun _ hp => nomatch hp⟩
  | arrow a b iha ihb =>
      obtain ⟨left, hLeft, h⟩ := bind_eq_ok.mp h
      obtain ⟨right, hRight, h⟩ := bind_eq_ok.mp h
      cases h
      obtain ⟨hAdvancesLeft, hNodupLeft, hFreshLeft⟩ := iha hLeft
      obtain ⟨hAdvancesRight, hNodupRight, hFreshRight⟩ := ihb hRight
      refine ⟨hAdvancesLeft.trans hAdvancesRight, ?_, fun p hp => ?_⟩
      · rw [List.map_append, List.nodup_append]
        refine ⟨hNodupLeft, hNodupRight, ?_⟩
        rintro x hx y hy rfl
        obtain ⟨p, hp, rfl⟩ := List.mem_map.mp hx
        obtain ⟨q, hq, hEq⟩ := List.mem_map.mp hy
        exact (hFreshLeft p hp).2 (hEq ▸ (hFreshRight q hq).1)
      · rcases List.mem_append.mp hp with hp | hp
        · exact ⟨(hFreshLeft p hp).1,
            fun hPending => (hFreshLeft p hp).2 (hAdvancesRight _ hPending)⟩
        · exact ⟨hAdvancesLeft _ (hFreshRight p hp).1, (hFreshRight p hp).2⟩
  | float u =>
      cases h
      have hStem : "h" ∈ Supply.stems := by simp [Supply.stems]
      refine ⟨supply.advances_draw "h", by simp, fun p hp => ?_⟩
      rw [List.mem_singleton.mp hp]
      exact ⟨Supply.pending_draw hStem supply, Supply.not_pending_draw hStem supply⟩
  | _ => cases h

/-- One replacement of neighbouring entries, which may draw names for new
variables. -/
inductive UnitMove : Supply → Supply → language.Telescope →
    List (Entry language) → List (Entry language) → Prop where
  /-- A dimensionless unit is dimensionless. -/
  | settle {supply : Supply} {deps : language.Telescope} {unit : Measure}
      (h : unit.isIdentity = true) :
      UnitMove supply supply [] [.constraint ⟨deps, isOne unit⟩] deps.intros
  /-- A definition is substituted in a unit equation that passes it. -/
  | unfold {supply : Supply} {deps : language.Telescope} {unit value result : Measure} {x : Name}
      {type : Ty} {kind : Kind} (hx : unit.exponent x ≠ 0) (hValue : type.toMeasure = .ok value)
      (hResult : unit.substitute x value = .ok result) :
      UnitMove supply supply [] [.define x type kind, .constraint ⟨deps, isOne unit⟩]
        (deps.intros ++ [.ofGoal (isOne result), .define x type kind])
  /-- A variable is defined if its exponent divides all others. -/
  | solve {supply : Supply} {deps : language.Telescope} {unit solution : Measure} {x : Name}
      {kind : Kind} (hx : unit.exponent x ≠ 0)
      (hDivides : unit.divisibleBy (unit.exponent x) = true)
      (hSolution : unit.pivot x = .ok solution) :
      UnitMove supply supply [] [.intro x kind, .constraint ⟨deps, isOne unit⟩]
        (deps.intros ++ [.define x solution.toType kind])
  /-- A variable is defined up to a new one, which makes the exponents smaller. -/
  | reduce {supply : Supply} {deps : language.Telescope} {unit quotient solution result : Measure}
      {x : Name} {kind : Kind} (hx : unit.exponent x ≠ 0) (hRival : unit.hasRival x = true)
      (hQuotient : unit.pivot x = .ok quotient)
      (hSolution : quotient.add (.var (supply.draw "b").1) = .ok solution)
      (hResult : unit.substitute x solution = .ok result) :
      UnitMove supply (supply.draw "b").2 [((supply.draw "b").1, .unit)]
        [.intro x kind, .constraint ⟨deps, isOne unit⟩]
        (.intro (supply.draw "b").1 .unit ::
          (deps.intros ++ [.ofGoal (isOne result), .define x solution.toType kind]))
  /-- A variable is equated with the hull of a type, and the new variables of the hull
  with the units they are put for. -/
  | hull {supply : Supply} {deps : language.Telescope} {x : Name} {type : Ty} {hull : Hull}
      {goals : List (Goal language)} (hHull : type.hull supply = .ok hull)
      (hGoals : holeGoals hull.holes = .ok goals) (hRigid : type.asVar? = none) :
      UnitMove supply hull.supply hull.vars [.constraint ⟨deps, .eq (.var x) type⟩]
        (.constraint ⟨deps ++ hull.vars, .special (.hull x hull.shape)⟩ :: goals.map .ofGoal)

inductive Replaces : State language → State language → Prop where
  | mk (pre post : List (Entry language)) {supply supply' : Supply} {fresh : language.Telescope}
      {old new : List (Entry language)} (h : UnitMove supply supply' fresh old new) :
      Replaces ⟨supply, ⟨pre ++ (old ++ post)⟩⟩ ⟨supply', ⟨pre ++ (new ++ post)⟩⟩

namespace UnitMove

variable {supply supply' : Supply} {fresh : language.Telescope} {old new : List (Entry language)}

/-- A replacement concerns no fixed entry. -/
theorem fixed_old (h : UnitMove supply supply' fresh old new) : fixed old = [] := by
  cases h with
  | _ => rfl

theorem fixed_new (h : UnitMove supply supply' fresh old new) : fixed new = [] := by
  cases h with
  | settle => exact fixed_intros _
  | hull => exact fixed_ofGoals _
  | reduce =>
      rw [fixed_cons_of_not rfl, fixed_append, fixed_intros]
      rfl
  | _ =>
      rw [fixed_append, fixed_intros]
      rfl

/-- It declares the same variables, and the new ones. Those that a constraint
has carried are put back before its variable, which changes their order. -/
theorem declared_perm (h : UnitMove supply supply' fresh old new) :
    (declared new).Perm (declared old ++ fresh) := by
  cases h with
  | @settle deps =>
      rw [declared_intros]
      change deps.Perm ((deps ++ []) ++ [])
      simp
  | @unfold deps _ _ _ x _ kind =>
      rw [declared_append, declared_intros]
      change (deps ++ [(x, kind)]).Perm (([(x, kind)] ++ (deps ++ [])) ++ [])
      simp
  | @solve deps _ _ x kind =>
      rw [declared_append, declared_intros]
      change (deps ++ [(x, kind)]).Perm (([(x, kind)] ++ (deps ++ [])) ++ [])
      simp
  | @reduce deps _ _ _ _ x kind =>
      rw [declared_cons, declared_append, declared_intros]
      apply List.perm_append_comm.trans
      apply List.Perm.append_right
      change (deps ++ [(x, kind)]).Perm ([(x, kind)] ++ (deps ++ []))
      simp
  | @hull deps x type hull goals =>
      rw [declared_cons, declared_ofGoals]
      change ((deps ++ hull.vars) ++ []).Perm ((deps ++ []) ++ hull.vars)
      simp

theorem advances (h : UnitMove supply supply' fresh old new) : supply.Advances supply' := by
  cases h with
  | reduce => exact supply.advances_draw "b"
  | hull hHull => exact (hull_fresh hHull).1
  | _ => exact .refl _

theorem nodup_fresh (h : UnitMove supply supply' fresh old new) :
    (fresh.map Prod.fst).Nodup := by
  cases h with
  | reduce => exact List.nodup_singleton _
  | hull hHull =>
      rw [Hull.map_fst_vars]
      exact (hull_fresh hHull).2.1
  | _ => exact List.nodup_nil

/-- They waited to be drawn, and no longer do. -/
theorem pending_fresh (h : UnitMove supply supply' fresh old new) :
    ∀ p ∈ fresh, supply.Pending p.1 ∧ ¬supply'.Pending p.1 := by
  cases h with
  | reduce =>
      have hStem : "b" ∈ Supply.stems := by simp [Supply.stems]
      intro p hp
      rw [List.mem_singleton.mp hp]
      exact ⟨Supply.pending_draw hStem supply, Supply.not_pending_draw hStem supply⟩
  | hull hHull =>
      intro p hp
      obtain ⟨hole, hHole, rfl⟩ := List.mem_map.mp hp
      exact (hull_fresh hHull).2.2 hole hHole
  | _ => exact List.forall_mem_nil _

end UnitMove

/-- The same entries, or one equation with its sides the other way round. -/
inductive Turned : List (Entry language) → List (Entry language) → Prop where
  | refl (es : List (Entry language)) : Turned es es
  | turn {deps : language.Telescope} {l r : Ty} (hRigid : l.asVar? = none) :
      Turned [.constraint ⟨deps, .eq l r⟩] [.constraint ⟨deps, .eq r l⟩]

/-- Turning an equation round is a move. -/
theorem Turned.moves {es fs : List (Entry language)} (h : Turned es fs) : Moves es fs := by
  cases h with
  | refl => exact .refl
  | turn hRigid => exact .of_move (.recast (.inl hRigid))

/-- What a step does: it rearranges or replaces entries none of which is fixed,
or takes a constraint past a fixed entry. -/
inductive LocalStep : State language → State language → Prop where
  | rearrange (pre post : List (Entry language)) {supply : Supply} {old new : List (Entry language)}
      (hFixed : fixed old = []) (h : Moves old new) :
      LocalStep ⟨supply, ⟨pre ++ (old ++ post)⟩⟩ ⟨supply, ⟨pre ++ (new ++ post)⟩⟩
  | pass (pre post : List (Entry language)) {supply : Supply} {e : Entry language}
      (he : e.isFixed = true) (c : Constraint language) :
      LocalStep ⟨supply, ⟨pre ++ ([e, .constraint c] ++ post)⟩⟩
        ⟨supply, ⟨pre ++ ([.constraint c, e] ++ post)⟩⟩
  | replace (pre post : List (Entry language)) {supply supply' : Supply}
      {fresh : language.Telescope} {old middle new : List (Entry language)}
      (hTurned : Turned old middle) (h : UnitMove supply supply' fresh middle new) :
      LocalStep ⟨supply, ⟨pre ++ (old ++ post)⟩⟩ ⟨supply', ⟨pre ++ (new ++ post)⟩⟩

namespace LocalStep

theorem of_move {supply : Supply} {old new : List (Entry language)} (hFixed : fixed old = [])
    (h : Move old new) (pre post : List (Entry language)) :
    LocalStep ⟨supply, ⟨pre ++ (old ++ post)⟩⟩ ⟨supply, ⟨pre ++ (new ++ post)⟩⟩ :=
  .rearrange pre post hFixed (.of_move h)

theorem of_unitMove {supply supply' : Supply} {fresh : language.Telescope}
    {old new : List (Entry language)} (h : UnitMove supply supply' fresh old new)
    (pre post : List (Entry language)) :
    LocalStep ⟨supply, ⟨pre ++ (old ++ post)⟩⟩ ⟨supply', ⟨pre ++ (new ++ post)⟩⟩ :=
  .replace pre post (.refl old) h

/-- So is a descent, in which the last constraint may pass a fixed entry. -/
theorem of_descends {f : Focus language} {c : Constraint language} {t : State language}
    (h : f.Descends c t) : LocalStep (f.resume [.constraint c]) t := by
  cases h with
  | meet hTop h =>
      rw [Focus.resume_cons]
      refine .rearrange _ _ ?_ h
      rw [fixed_cons_of_not hTop]
      rfl
  | pass hTop =>
      rw [Focus.resume_cons]
      exact .pass _ _ hTop c

/-- A constraint that puts down what it carries meets the last of these
variables, if there is one. -/
theorem of_lowered {f : Focus language} {deps : language.Telescope} {g : Goal language}
    {t : State language} (h : (f.lower deps).Descends (.ofGoal g) t) :
    LocalStep (f.resume [.constraint ⟨deps, g⟩]) t := by
  rcases List.eq_nil_or_concat' deps with rfl | ⟨deps, last, rfl⟩
  · exact of_descends h
  · have hLower : f.lower (deps ++ [last]) = ⟨f.supply, .intro last.1 last.2 ::
        ((Language.Telescope.intros deps).reverse ++ f.below), f.above⟩ := by
      simp [Focus.lower, Language.Telescope.intros]
    rw [hLower] at h
    cases h with
    | @meet _ _ _ _ emitted _ hTop h =>
        have hPutDown : Language.Telescope.intros (deps ++ [last]) ++ [.ofGoal g] =
            Language.Telescope.intros deps ++ [.intro last.1 last.2, .ofGoal g] := by
          simp [Language.Telescope.intros]
        have hMoves := Moves.of_move (.lower (deps ++ [last]) g)
        rw [hPutDown] at hMoves
        have hStep : LocalStep ⟨f.supply, _⟩ ⟨f.supply, _⟩ :=
          rearrange f.below.reverse f.above rfl (hMoves.trans (h.append_left _))
        simpa [Focus.resume] using hStep
    | pass hTop => cases hTop

/-- A unit equation passes what declares none of its variables. If that is a
fixed entry, it takes what it carries along. -/
theorem pass_unused {supply : Supply} {deps : language.Telescope} {unit : Measure}
    {e : Entry language} {x : Name} {kind : Kind} (he : e.isVariable = true)
    (hDeclared : e.declared = [(x, kind)]) (hx : unit.exponent x = 0)
    (pre post : List (Entry language)) :
    LocalStep ⟨supply, ⟨pre ++ ([e, .constraint ⟨deps, isOne unit⟩] ++ post)⟩⟩
      ⟨supply, ⟨pre ++ ([.constraint ⟨deps, isOne unit⟩, e] ++ post)⟩⟩ := by
  have hFixed : fixed [e, .constraint ⟨deps, isOne unit⟩] = [] := by
    rw [fixed_cons_of_not (Entry.isFixed_of_isVariable he)]
    rfl
  have hNot : e.isConstraint = false := by
    cases e with
    | constraint c => cases he
    | _ => rfl
  refine of_move hFixed (.pass hNot fun p hp hMem => ?_) pre post
  rw [hDeclared] at hp
  cases List.mem_singleton.mp hp
  exact Exponents.mem_names.mp hMem hx

/-- It picks up a variable of its own. -/
theorem lift {supply : Supply} {deps : language.Telescope} {unit : Measure} {x : Name} {kind : Kind}
    (hx : unit.exponent x ≠ 0) (pre post : List (Entry language)) :
    LocalStep ⟨supply, ⟨pre ++ ([.intro x kind, .constraint ⟨deps, isOne unit⟩] ++ post)⟩⟩
      ⟨supply, ⟨pre ++ ([.constraint ⟨(x, kind) :: deps, isOne unit⟩] ++ post)⟩⟩ := by
  have hAnchors : (isOne unit).Anchors x := Exponents.mem_names.mpr hx
  exact of_move rfl (.lift hAnchors) pre post

end LocalStep

/-- An elimination solves for its variable, reduces the others by it, or picks
it up to go past it. -/
theorem eliminated_local {supply : Supply} {below above : List (Entry language)}
    {deps : language.Telescope} {unit : Measure} {x : Name} {kind : Kind} {t : State language}
    (hx : unit.exponent x ≠ 0) (h : Eliminated ⟨supply, below, above⟩ deps unit x kind t) :
    LocalStep
      ⟨supply, ⟨below.reverse ++ ([.intro x kind, .constraint ⟨deps, isOne unit⟩] ++ above)⟩⟩
      t := by
  cases h with
  | solve hDivides hSolution => exact .of_unitMove (.solve hx hDivides hSolution) _ _
  | reduce hRival hQuotient hSolution hReduced =>
      exact .of_unitMove (.reduce hx hRival hQuotient hSolution hReduced) _ _
  | lift => exact .lift hx _ _

/-- By the cases in which a unit equation may end, each step of it is local: it
is settled, substituted, eliminated, or has passed one entry. -/
theorem solveUnit_local {f : Focus language} {deps : language.Telescope} {unit : Measure}
    {t : State language} (h : solveUnit f deps unit = .ok t) :
    LocalStep (f.resume [.constraint ⟨deps, isOne unit⟩]) t := by
  cases unitSolved_of_solveUnit h with
  | settle hIdentity => exact .of_unitMove (.settle hIdentity) _ _
  | unfold hx hValue hResult =>
      rw [Focus.resume_cons]
      exact .of_unitMove (.unfold hx hValue hResult) _ _
  | eliminate hx h =>
      rw [Focus.resume_cons]
      exact eliminated_local hx h
  | @pass _ top _ _ hTop hIntro hDefine =>
      rw [Focus.resume_cons]
      cases top with
      | intro x kind => exact .pass_unused rfl rfl (hIntro x kind rfl) _ _
      | define x type kind => exact .pass_unused rfl rfl (hDefine x type kind rfl) _ _
      | constraint c => cases hTop
      | _ => exact .pass _ _ rfl _

/-- An equation between a variable and another type descends, or is replaced by
one with the hull of that type. -/
theorem flexRigid_local {f : Focus language} {deps : language.Telescope} {x : Name}
    {l r flex rigid : Ty} {t : State language} (hFlex : flex.asVar? = some x)
    (hRigid : rigid.asVar? = none)
    (hTurned : Turned [.constraint ⟨deps, .eq l r⟩] [.constraint ⟨deps, .eq flex rigid⟩])
    (h : f.flexRigid deps ⟨x, flex, rigid⟩ = .ok t) :
    LocalStep (f.resume [.constraint ⟨deps, .eq l r⟩]) t := by
  have hVar : flex = .var x := by
    cases flex with
    | var y => exact congrArg Ty.var (Option.some.inj hFlex)
    | _ => cases hFlex
  subst hVar
  obtain ⟨made, hMade, h⟩ := bind_eq_ok.mp h
  obtain ⟨equated, hEquated, hMade⟩ := bind_eq_ok.mp hMade
  cases hMade
  cases h
  obtain ⟨hull, goals, hHull, hGoals, rfl⟩ := equateHull_eq_ok hEquated
  rw [Focus.resume, Focus.resume, List.map_cons, List.map_map]
  exact .replace f.below.reverse f.above hTurned (.hull hHull hGoals hRigid)

/-- By the cases in which an equation may end, each step of it is local. -/
theorem solveEq_local {f : Focus language} {deps : language.Telescope} {l r : Ty}
    {t : State language} (h : f.solveEq deps l r = .ok t) :
    LocalStep (f.resume [.constraint ⟨deps, .eq l r⟩]) t := by
  have hPutDown : ∀ {emitted : List (Entry language)}, Moves [.ofGoal (.eq l r)] emitted →
      LocalStep (f.resume [.constraint ⟨deps, .eq l r⟩]) (f.resume (deps.intros ++ emitted)) :=
    fun hMoves => .rearrange _ _ rfl ((Moves.of_move (.lower deps _)).trans (hMoves.append_left _))
  cases Focus.equated_of_solveEq h with
  | left hl hr hFlex => exact flexRigid_local hl hr (.refl _) hFlex
  | right hl hr hFlex => exact flexRigid_local hr hl (.turn hl) hFlex
  | same hl hr => simpa using hPutDown (.of_move (.drop hl hr))
  | meet hNe hl hr hMeet => exact .of_lowered (Focus.meetVars_descends hNe hl hr hMeet)
  | split hl hr hGoals => exact hPutDown (.of_move (.split hGoals))

/-- Every step is local: it concerns one constraint and the entry below it. -/
theorem step_local {s t : State language} (h : s.step = .ok t) : LocalStep s t := by
  rcases State.step_eq_ok h with rfl | ⟨⟨deps, goal⟩, f, rfl, -, hSolve⟩
  · have hStay : LocalStep ⟨t.supply, ⟨t.context.entries ++ ([] ++ [])⟩⟩ _ :=
      .rearrange t.context.entries [] rfl .refl
    simpa using hStay
  · cases goal with
    | eq l r => exact solveEq_local hSolve
    | special g =>
        cases g with
        | identity unit => exact solveUnit_local hSolve
        | hull x shape => exact .of_descends (Focus.walk_descends rfl rfl hSolve)

/-- Some moves, and then at most one replacement. -/
def StepsTo (s t : State language) : Prop :=
  ∃ u : State language, u.supply = s.supply ∧ Moves s.context.entries u.context.entries ∧
    (u = t ∨ Replaces u t)

theorem StepsTo.of_moves {s t : State language} (hSupply : t.supply = s.supply)
    (h : Moves s.context.entries t.context.entries) : StepsTo s t :=
  ⟨t, hSupply, h, .inl rfl⟩

/-- A local step is made of moves, or is a replacement somewhere. -/
theorem LocalStep.stepsTo {s t : State language} (h : LocalStep s t) : StepsTo s t := by
  cases h with
  | rearrange pre post hFixed h => exact .of_moves rfl (h.middle pre post)
  | pass pre post he c => exact .of_moves rfl ((Moves.pass_fixed he c).middle pre post)
  | @replace pre post supply supply' fresh old middle new hTurned h =>
      exact ⟨⟨supply, ⟨pre ++ (middle ++ post)⟩⟩, rfl, hTurned.moves.middle pre post,
        .inr (.mk pre post h)⟩

theorem step_stepsTo {s t : State language} (h : s.step = .ok t) : StepsTo s t :=
  (step_local h).stepsTo

end HindleyMilner.Units
