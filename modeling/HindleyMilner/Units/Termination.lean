import HindleyMilner.Solver.Descent
import HindleyMilner.Units.Magnitude
import HindleyMilner.Units.Outcomes

/-! The solver comes to an end on types with units. The size of a type is that of
its arrows: a number type and a unit are leaves whatever they hold, so no
definition of a unit makes a type larger. -/
namespace HindleyMilner.Units

open Context

namespace Ty

/-- The number of nodes of a type above its units. -/
def shapeSize : Ty → Nat
  | arrow a b => a.shapeSize + b.shapeSize + 1
  | _ => 1

/-- The variables of a type outside its units. -/
def shapeVars : Ty → List Name
  | var x => [x]
  | arrow a b => a.shapeVars ++ b.shapeVars
  | _ => []

/-- Whether a type is a number type or a unit, and not a variable. -/
def isLeaf : Ty → Bool
  | var _ => false
  | arrow .. => false
  | _ => true

/-- A type with some of its parts replaced by leaves. -/
inductive Pruned : Ty → Ty → Prop where
  | var (x : Name) : Pruned (var x) (var x)
  | arrow {a b c d : Ty} : Pruned a c → Pruned b d → Pruned (arrow a b) (arrow c d)
  | leaf {t u : Ty} : u.isLeaf = true → Pruned t u

theorem Pruned.refl (t : Ty) : Pruned t t := by
  induction t with
  | var x => exact .var x
  | arrow a b iha ihb => exact .arrow iha ihb
  | _ => exact .leaf rfl

theorem shapeSize_pos (t : Ty) : 0 < t.shapeSize := by
  cases t <;> simp [shapeSize]

theorem shapeSize_of_isLeaf {t : Ty} (h : t.isLeaf = true) : t.shapeSize = 1 := by
  cases t <;> first | rfl | cases h

theorem shapeVars_of_isLeaf {t : Ty} (h : t.isLeaf = true) : t.shapeVars = [] := by
  cases t <;> first | rfl | cases h

theorem isLeaf_subst {t : Ty} (σ : Assignment Ty) (h : t.isLeaf = true) :
    (t.subst σ).isLeaf = true := by
  cases t <;> first | rfl | cases h

/-- Pruning makes no type larger. -/
theorem Pruned.shapeSize_le {t u : Ty} (h : Pruned t u) : u.shapeSize ≤ t.shapeSize := by
  induction h with
  | var x => exact Nat.le_refl _
  | arrow _ _ iha ihb => simp only [shapeSize]; omega
  | leaf hLeaf => rw [shapeSize_of_isLeaf hLeaf]; exact shapeSize_pos _

/-- Pruning and substituting commute, as leaves stay leaves. -/
theorem Pruned.subst {t u : Ty} (h : Pruned t u) (σ : Assignment Ty) :
    Pruned (t.subst σ) (u.subst σ) := by
  induction h with
  | var x => exact .refl _
  | arrow _ _ iha ihb => exact .arrow iha ihb
  | leaf hLeaf => exact .leaf (isLeaf_subst σ hLeaf)

/-- Expanding definitions in a type and in a pruned copy of it
leaves a pruned copy. -/
theorem Pruned.unwind {t u : Ty} (h : Pruned t u) (defs : List (Name × Ty)) :
    Pruned (Context.unwind (L := language) defs t) (Context.unwind (L := language) defs u) := by
  induction defs with
  | nil => exact h
  | cons d defs ih => exact ih.subst _

/-- Putting a type for a variable that does not occur can only change units, so
the type is a pruned copy of the result. -/
theorem pruned_of_not_mem {x : Name} {u t : Ty} (h : x ∉ t.freeVars) :
    Pruned (subst1 x u t) t := by
  induction t with
  | var y =>
      have hNe : ¬y = x := fun hEq => h (List.mem_singleton.mpr hEq.symm)
      have hSame : subst1 x u (var y) = var y := by
        simp [subst1, HindleyMilner.subst, Ty.subst, Assignment.single, hNe]
      rw [hSame]
      exact .var y
  | arrow a b iha ihb =>
      rw [freeVars, List.mem_append, not_or] at h
      exact .arrow (iha h.1) (ihb h.2)
  | _ => exact .leaf rfl

/-- Putting a leaf for a variable prunes a type. -/
theorem pruned_subst1 {x : Name} {u : Ty} (hLeaf : u.isLeaf = true) (t : Ty) :
    Pruned t (subst1 x u t) := by
  induction t with
  | var y =>
      simp only [subst1, HindleyMilner.subst, Ty.subst, Assignment.single]
      split
      · exact .leaf hLeaf
      · exact .var y
  | arrow a b iha ihb => exact .arrow iha ihb
  | _ => exact .leaf rfl

/-- A variable outside units after a replacement was outside units before it, in
the type or in what was put into it. -/
theorem mem_shapeVars_subst1 {x y : Name} {u t : Ty} (h : y ∈ (subst1 x u t).shapeVars) :
    y ∈ t.shapeVars ∨ y ∈ u.shapeVars := by
  induction t with
  | var z =>
      simp only [subst1, HindleyMilner.subst, Ty.subst, Assignment.single] at h
      split at h
      · exact .inr h
      · exact .inl h
  | arrow a b iha ihb =>
      have hAppend : y ∈ (subst1 x u a).shapeVars ++ (subst1 x u b).shapeVars := h
      rw [List.mem_append] at hAppend
      rw [shapeVars, List.mem_append]
      rcases hAppend with h | h
      · exact (iha h).imp_left .inl
      · exact (ihb h).imp_left .inr
  | _ => cases h

end Ty

/-- A unit is a leaf whatever its factors are, as products are not opened. -/
theorem Measure.isLeaf_toType (u : Measure) : u.toType.isLeaf = true := by
  have hFold : ∀ (ts : List Ty) (t : Ty), t.isLeaf = true → (ts.foldl Ty.mul t).isLeaf = true := by
    intro ts
    induction ts with
    | nil => exact fun _ h => h
    | cons s ts ih => exact fun t _ => ih _ rfl
  rw [toType]
  cases hFactors : u.factors with
  | nil => rfl
  | cons first rest =>
      refine hFold rest first ?_
      have hMem : first ∈ u.factors := hFactors ▸ List.mem_cons_self
      simp only [factors, List.mem_append, List.mem_map] at hMem
      rcases hMem with ⟨p, -, rfl⟩ | ⟨p, -, rfl⟩ <;> rfl

instance : Sized language where
  weight := Ty.shapeSize
  shapeVars := Ty.shapeVars
  specialSides
    | .hull x shape => some (.var x, shape)
    | .identity _ => none
  specialRank
    | .hull .. => 0
    | .identity unit => unit.magnitude
  weight_pos := Ty.shapeSize_pos
  mem_shapeVars {t x} h := by
    cases t with
    | var y => cases h; exact List.mem_singleton.mpr rfl
    | _ => cases h
  eq_of_mem_freeVars {t x y} h hy := by
    cases t with
    | var z => cases h; exact List.mem_singleton.mp hy
    | _ => cases h
  mem_shapeVars_subst1 := Ty.mem_shapeVars_subst1
  weight_unwind_le u defs h := ((Ty.pruned_of_not_mem h).unwind defs).shapeSize_le

/-- A definition by a leaf makes no equated type larger. Wherever the defined
variable occurs in a type, a leaf takes the place of what may be larger, so
the result is pruned. -/
theorem weight_insert_le {x : Name} {u : Ty} (hLeaf : u.isLeaf = true)
    (defs later : List (Name × Ty))
    (es : List (Entry language)) :
    Context.weight (defs ++ (x, u) :: later) es ≤ Context.weight (defs ++ later) es := by
  have hType : ∀ (later : List (Name × Ty)) (t : Ty),
      (unwind (L := language) (defs ++ (x, u) :: later) t).shapeSize ≤
        (unwind (L := language) (defs ++ later) t).shapeSize := by
    intro later t
    have hSplit : ∀ ds, unwind (L := language) (defs ++ ds) t =
        unwind (L := language) defs (unwind (L := language) ds t) := fun ds => by
      simp [unwind]
    rw [hSplit, hSplit]
    exact ((Ty.pruned_subst1 hLeaf _).unwind defs).shapeSize_le
  induction es generalizing later with
  | nil => exact Nat.le_refl _
  | cons e es ih =>
      have hRest := ih (later ++ e.definition?.toList)
      have hHead : e.weight (defs ++ (x, u) :: later) ≤ e.weight (defs ++ later) := by
        cases e with
        | constraint c =>
            simp only [Entry.weight, Goal.weight]
            split
            · exact Nat.add_le_add (hType later _) (hType later _)
            · exact Nat.le_refl _
        | _ => exact Nat.le_refl _
      simp only [Context.weight, List.append_assoc, List.cons_append] at hRest ⊢
      omega

/-- What the hull of a type keeps of its shape: it is the type with leaves in
place of some parts, and it has the same variables outside units. -/
theorem hull_shape {supply : Supply} {t : Ty} {hull : Hull} (h : t.hull supply = .ok hull) :
    Ty.Pruned t hull.shape ∧ hull.shape.shapeVars = t.shapeVars := by
  induction t generalizing supply hull with
  | var x => cases h; exact ⟨.var x, rfl⟩
  | arrow a b iha ihb =>
      obtain ⟨left, hLeft, h⟩ := bind_eq_ok.mp h
      obtain ⟨right, hRight, h⟩ := bind_eq_ok.mp h
      cases h
      have ha := iha hLeft
      have hb := ihb hRight
      exact ⟨.arrow ha.1 hb.1, by simp only [Ty.shapeVars, ha.2, hb.2]⟩
  | float u => cases h; exact ⟨.leaf rfl, rfl⟩
  | _ => cases h

/-- The variables of a hull no longer wait to be drawn. -/
theorem pendingCount_hull {supply : Supply} {t : Ty} {hull : Hull} (h : t.hull supply = .ok hull)
    (xs : List Name) :
    (hull.holes.map Prod.fst).countP (· ∈ xs) + hull.supply.pendingCount xs ≤
      supply.pendingCount xs := by
  induction t generalizing supply hull with
  | var x => cases h; simp
  | arrow a b iha ihb =>
      obtain ⟨left, hLeft, h⟩ := bind_eq_ok.mp h
      obtain ⟨right, hRight, h⟩ := bind_eq_ok.mp h
      cases h
      have ha := iha hLeft
      have hb := ihb hRight
      simp only [List.map_append, List.countP_append]
      omega
  | float u => cases h; exact supply.pendingCount_draw "h" (by simp) xs
  | _ => cases h

/-- The goals of a hull equate units and no types. -/
theorem sides_of_holeGoals {holes : List (Name × Ty)} {goals : List (Goal language)}
    (h : holeGoals holes = .ok goals) : ∀ g ∈ goals, g.sides = none := by
  induction holes generalizing goals with
  | nil => cases h; exact fun _ hg => absurd hg List.not_mem_nil
  | cons hole holes ih =>
      obtain ⟨unit, -, h⟩ := bind_eq_ok.mp h
      obtain ⟨quotient, -, h⟩ := bind_eq_ok.mp h
      obtain ⟨rest, hRest, h⟩ := bind_eq_ok.mp h
      cases h
      exact List.forall_mem_cons.mpr ⟨rfl, ih hRest⟩

/-- Two types are taken apart if both are arrows, into the equations of their
sides, or if both are number types, into the equation of their units. -/
theorem decompose_eq_ok {l r : Ty} {goals : List (Goal language)} (h : decompose l r = .ok goals) :
    (∃ a b c d, l = .arrow a b ∧ r = .arrow c d ∧ goals = [.eq a c, .eq b d]) ∨
      ∃ u v m n unit, l = .float u ∧ r = .float v ∧ u.toMeasure = .ok m ∧ v.toMeasure = .ok n ∧
        m.subtract n = .ok unit ∧ goals = [isOne unit] := by
  unfold decompose at h
  split at h
  · cases h
    exact .inl ⟨_, _, _, _, rfl, rfl, rfl⟩
  · obtain ⟨m, hm, h⟩ := bind_eq_ok.mp h
    obtain ⟨n, hn, h⟩ := bind_eq_ok.mp h
    obtain ⟨unit, hUnit, h⟩ := bind_eq_ok.mp h
    cases h
    exact .inr ⟨_, _, m, n, unit, rfl, rfl, hm, hn, hUnit, rfl⟩
  · cases h

section

variable {supply : Supply} {pre post : List (Entry language)} {deps : language.Telescope}

/-- The variables of a hull wait to be drawn before the type is replaced
by it, and for a definition after that. The hull mentions no other
variable that counts. -/
theorem openCount_equateHull_le (pre post : List (Entry language)) {eq : FlexRigid language}
    {g : Goal language} {made : Supply × List (Constraint language)}
    (hShape : ∀ y, y = eq.name ∨ y ∈ Ty.shapeVars eq.rigid → y ∈ g.shapeVars)
    (hMade : equateHull supply deps eq = .ok made) :
    State.openCount ⟨made.1, ⟨pre ++ (made.2.map .constraint ++ post)⟩⟩ ≤
      State.openCount ⟨supply, ⟨pre ++ ([.constraint ⟨deps, g⟩] ++ post)⟩⟩ := by
  obtain ⟨hull, goals, hHull, hGoals, rfl⟩ := equateHull_eq_ok hMade
  obtain ⟨-, hShapeVars⟩ := hull_shape hHull
  obtain ⟨hGoalVars, -⟩ := ofGoals_of_sides_none (sides_of_holeGoals hGoals)
  have hEntries : (goals.map Constraint.ofGoal).map Entry.constraint = goals.map Entry.ofGoal :=
    List.map_map
  have hNames : hull.holes.map (Prod.fst ∘ fun hole => (hole.1, Kind.unit)) =
      hull.holes.map Prod.fst := rfl
  rw [List.map_cons, hEntries]
  refine State.openCount_le (fun y hy => ?_) fun xs => ?_
  · rw [← List.singleton_append, shapeVars_append, hGoalVars, List.append_nil] at hy
    have hMem : y ∈ g.shapeVars := by
      refine hShape y ?_
      simpa [Context.shapeVars, Entry.shapeVars, Goal.shapeVars, Goal.sides,
        Sized.specialSides, Sized.shapeVars, Ty.shapeVars, hShapeVars] using hy
    simp only [Context.shapeVars, Entry.shapeVars, List.flatMap_append, List.flatMap_cons,
      List.mem_append]
    grind
  · have hPending := pendingCount_hull hHull xs
    rw [introCount_cons, introCount_ofGoals]
    simp only [introCount_cons, introCount_nil, Entry.introNames, List.map_append,
      List.countP_append, List.map_map]
    rw [hNames]
    omega

/-- The hull of a type is no heavier than the type, and equations of
units weigh nothing. So an equation that is replaced by one with a hull
makes no type larger. -/
theorem weight_equateHull_le (post : List (Entry language)) {eq : FlexRigid language}
    {g : Goal language} {made : Supply × List (Constraint language)} (hPre : Settled pre)
    (hFlex : eq.flex = .var eq.name) (hGoal : (Goal.eq eq.flex eq.rigid).Below g)
    (hMade : equateHull supply deps eq = .ok made) :
    Context.weight [] (pre ++ (made.2.map .constraint ++ post)) ≤
      Context.weight [] (pre ++ ([.constraint ⟨deps, g⟩] ++ post)) := by
  obtain ⟨hull, goals, hHull, hGoals, rfl⟩ := equateHull_eq_ok hMade
  obtain ⟨hPruned, -⟩ := hull_shape hHull
  obtain ⟨-, hGoalsWeight⟩ := ofGoals_of_sides_none (sides_of_holeGoals hGoals)
  have hEntries : (goals.map Constraint.ofGoal).map Entry.constraint = goals.map Entry.ofGoal :=
    List.map_map
  have hWeight := hGoal.weight (definitions pre)
  have hHullWeight := (hPruned.unwind (definitions pre)).shapeSize_le
  rw [weight_append_of_settled _ hPre, weight_append_of_settled _ hPre, List.map_cons, hEntries,
    List.cons_append, Context.weight, weight_append, hGoalsWeight, definitions_ofGoals]
  rw [Goal.weight_of_sides rfl, hFlex] at hWeight
  simp only [List.nil_append, List.append_nil, List.singleton_append, Context.weight,
    Entry.weight, Entry.definition?, Option.toList_none, Goal.weight, Goal.sides,
    Sized.specialSides, Sized.weight] at hWeight ⊢
  omega

/-- Replacing an equation by one with a hull keeps every part of the measure
from growing, and the new equation ranks below the old one. -/
theorem flexRigid_lt {f : Focus language} {eq : FlexRigid language} {g : Goal language}
    {made : Supply × List (Constraint language)} (hBelow : Settled f.below.reverse)
    (hVar : eq.flex.asVar? = some eq.name) (hGoal : (Goal.eq eq.flex eq.rigid).Below g)
    (hMade : equateHull f.supply deps eq = .ok made) :
    MeasureLT (State.measure ⟨made.1, ⟨f.below.reverse ++ (made.2.map .constraint ++ f.above)⟩⟩)
      (f.resume [.constraint ⟨deps, g⟩]).measure := by
  have hFlex : eq.flex = .var eq.name := by
    cases hEq : eq.flex with
    | var y =>
        rw [hEq] at hVar
        exact congrArg Ty.var (Option.some.inj hVar)
    | _ =>
        rw [hEq] at hVar
        cases hVar
  have hShape : ∀ y, y = eq.name ∨ y ∈ Ty.shapeVars eq.rigid → y ∈ g.shapeVars := fun y hy =>
    hGoal.shapeVars y (by
      rw [Goal.shapeVars_of_sides rfl, hFlex, List.mem_append]
      exact hy.imp_left List.mem_singleton.mpr)
  have hOpen := openCount_equateHull_le f.below.reverse f.above hShape hMade
  have hWeight := weight_equateHull_le f.above hBelow hFlex hGoal hMade
  obtain ⟨hull, goals, -, -, rfl⟩ := equateHull_eq_ok hMade
  refine lex_of_le hOpen (lex_of_le hWeight (lex_of_le ?_ ?_))
  · -- An equation with a hull leads, as the equation that it replaces did.
    rw [leading_append_of_settled hBelow]
    exact Nat.zero_le _
  · simp only [Focus.resume, List.map_cons, List.cons_append, List.nil_append]
    rw [State.place_of_settled _ hBelow, State.place_of_settled _ hBelow]
    exact .right _ (.left _ _ hGoal.rank)

/-- The definition of a variable as a unit makes nothing after it heavier. -/
theorem weight_define_le (x : Name) (kind : Kind) (u : Measure) (pre post : List (Entry language)) :
    Context.weight (definitions (pre ++ [.define x u.toType kind])) post ≤
      Context.weight (definitions (pre ++ [(.intro x kind : Entry language)])) post := by
  have hInsert := weight_insert_le (x := x) u.isLeaf_toType (definitions pre) [] post
  rw [definitions_append, definitions_append]
  exact hInsert

/-- A definition as a unit mentions no variable outside units. -/
theorem shapeVars_define (x : Name) (kind : Kind) (u : Measure) (es : List (Entry language)) :
    Context.shapeVars (es ++ [.define x u.toType kind]) = Context.shapeVars es := by
  have hLeaf := Ty.shapeVars_of_isLeaf u.isLeaf_toType
  rw [shapeVars_append]
  simp [Context.shapeVars, Entry.shapeVars, Sized.shapeVars, hLeaf]

/-- A unit equation may become the definition of one of its variables. One goal
fewer stands before the first equation of types then, and a definition by a unit
makes no type larger. -/
theorem measure_solve_lt (hPre : Settled pre) (x : Name) (kind : Kind) (unit solution : Measure) :
    MeasureLT
      (State.measure
        ⟨supply, ⟨pre ++ ((deps.intros ++ [.define x solution.toType kind]) ++ post)⟩⟩)
      (State.measure
        ⟨supply, ⟨pre ++ ([.intro x kind, .constraint ⟨deps, isOne unit⟩] ++ post)⟩⟩) := by
  have hOpen : State.openCount
      ⟨supply, ⟨pre ++ ((deps.intros ++ [.define x solution.toType kind]) ++ post)⟩⟩ ≤
        State.openCount (L := language) ⟨supply,
          ⟨pre ++ (([.intro x kind] ++ [.constraint ⟨deps, isOne unit⟩]) ++ post)⟩⟩ := by
    refine State.openCount_le (fun y hy => ?_) fun xs => ?_
    · rw [shapeVars_define, shapeVars_intros] at hy
      cases hy
    · rw [introCount_append, introCount_intros]
      simp [introCount_cons, introCount_nil, Entry.introNames]
  have hPost : Context.weight
      (definitions (pre ++ (deps.intros ++ [.define x solution.toType kind]))) post ≤
        Context.weight (definitions (pre ++ [(.intro x kind : Entry language)])) post := by
    have hDefine := weight_define_le x kind solution pre post
    rw [definitions_append, definitions_append deps.intros, definitions_intros, List.nil_append,
      ← definitions_append]
    exact hDefine
  have hLess := State.measure_lt_of_leading _ _ hPre (by simp [Settled, Entry.isConstraint])
    (settled_append.mpr ⟨settled_intros deps, by simp [Settled, Entry.isConstraint]⟩) rfl
    hOpen hPost
  exact hLess

/-- It may define one of them up to a new variable that leaves smaller
exponents. The new variable is a unit variable, so that no type gets
larger by its definition. -/
theorem measure_reduce_lt (hPre : Settled pre) (x : Name) (kind : Kind) {unit reduced : Measure}
    (solution : Measure) (hMagnitude : reduced.magnitude < unit.magnitude) :
    MeasureLT
      (State.measure ⟨(supply.draw "b").2, ⟨pre ++
        ((.intro (supply.draw "b").1 .unit :: deps.intros ++
          [.ofGoal (isOne reduced), .define x solution.toType kind]) ++ post)⟩⟩)
      (State.measure
        ⟨supply, ⟨pre ++ ([.intro x kind, .constraint ⟨deps, isOne unit⟩] ++ post)⟩⟩) := by
  have hDefs : definitions (pre ++ [(.intro x kind : Entry language)]) = definitions pre := by
    rw [definitions_append]
    exact List.append_nil _
  have hOpen : State.openCount ⟨(supply.draw "b").2, ⟨pre ++
      ((([.intro (supply.draw "b").1 .unit] ++ deps.intros) ++
        .constraint (.ofGoal (isOne reduced)) :: [.define x solution.toType kind]) ++ post)⟩⟩ ≤
      State.openCount (L := language) ⟨supply,
        ⟨pre ++ ([.intro x kind, .constraint ⟨deps, isOne unit⟩] ++ post)⟩⟩ := by
    refine State.openCount_le (fun y hy => ?_) fun xs => ?_
    · rw [List.append_cons, shapeVars_define, shapeVars_append, shapeVars_append,
        shapeVars_intros] at hy
      cases hy
    · have hIntros := supply.pendingCount_draw "b" (by simp) xs
      rw [introCount_append, introCount_append, introCount_intros]
      simp only [introCount_cons, introCount_nil, Entry.introNames, Constraint.ofGoal,
        List.map_nil, List.countP_nil] at hIntros ⊢
      omega
  have hLess := State.measure_lt_of_place _ _ hPre (by simp [Settled, Entry.isConstraint])
    (settled_append.mpr ⟨by simp [Settled, Entry.isConstraint], settled_intros deps⟩)
    (by simp [Settled, Entry.isConstraint])
    (by rw [definitions_append, definitions_intros]; rfl) hOpen (Nat.zero_le _)
    (weight_define_le x kind solution pre post) rfl
    (by rw [hDefs]; exact .right _ (.left _ _ hMagnitude))
  exact hLess

/-- Whichever way a variable is eliminated, the measure gets smaller: the goal
is gone, its exponents are smaller, or one entry fewer is below it. -/
theorem eliminated_lt {x : Name} {kind : Kind} {unit : Measure} {t : State language}
    (hPre : Settled pre) (hx : unit.exponent x ≠ 0)
    (h : Eliminated ⟨supply, pre.reverse, post⟩ deps unit x kind t) :
    MeasureLT t.measure
      (State.measure
        ⟨supply, ⟨pre ++ ([.intro x kind, .constraint ⟨deps, isOne unit⟩] ++ post)⟩⟩) := by
  cases h with
  | solve hDivides hSolution =>
      rw [Focus.resume_reverse]
      exact measure_solve_lt hPre x kind unit _
  | reduce hRival hQuotient hSolution hReduced =>
      rw [Focus.resume_reverse]
      exact measure_reduce_lt hPre x kind _
        (Measure.magnitude_eliminate_lt hx hRival hQuotient hSolution hReduced)
  | lift hRival hCount =>
      rw [Focus.resume_reverse]
      exact State.measure_lift_lt hPre rfl (Goal.Below.refl _)

/-- Every step of a unit equation makes the measure smaller: the goal is gone,
it has passed an entry or a definition, or its exponents are smaller. -/
theorem solveUnit_lt {f : Focus language} {unit : Measure} {t : State language}
    (hBelow : Settled f.below.reverse) (hStep : solveUnit f deps unit = .ok t) :
    MeasureLT t.measure (f.resume [.constraint ⟨deps, isOne unit⟩]).measure := by
  cases unitSolved_of_solveUnit hStep with
  | settle hIdentity =>
      refine State.measure_lt_of_leading [] deps.intros hBelow (by simp [Settled])
        (settled_intros deps) rfl (State.openCount_le (fun y hy => ?_) fun xs => ?_) ?_
      · rw [shapeVars_intros] at hy
        cases hy
      · rw [introCount_intros]
        simp [introCount_cons, introCount_nil, Entry.introNames]
      · exact Nat.le_of_eq
          (by rw [definitions_append, definitions_intros, List.append_nil, List.append_nil])
  | unfold hx hValue hResult =>
      obtain ⟨hPre, -⟩ := Focus.settled_of_cons hBelow
      rw [Focus.resume_cons]
      exact State.measure_unfold_lt deps hPre (List.forall_mem_nil _) (fun defs => Nat.le_refl _)
        rfl
  | @eliminate _ below _ _ _ _ hx h =>
      obtain ⟨hPre, -⟩ := Focus.settled_of_cons hBelow
      rw [← below.reverse_reverse] at h
      rw [Focus.resume_cons]
      exact eliminated_lt hPre hx h
  | @pass _ top _ _ hTop hIntro hDefine =>
      obtain ⟨hPre, hSettled⟩ := Focus.settled_of_cons hBelow
      rw [Focus.resume_cons]
      cases top with
      | define x type kind => exact State.measure_pass_define_lt hPre rfl
      | _ => exact State.measure_pass_lt hPre hSettled rfl (Goal.Below.refl _)

end

instance : Descending language where
  decompose_shapeVars {l r goals} h g hg x hx := by
    rcases decompose_eq_ok h with
      ⟨a, b, c, d, rfl, rfl, rfl⟩ | ⟨_, _, _, _, unit, rfl, rfl, -, -, -, rfl⟩
    · simp only [List.mem_cons, List.not_mem_nil, or_false] at hg
      simp only [Goal.shapeVars, Goal.sides, Sized.shapeVars, Ty.shapeVars, List.mem_append]
      rcases hg with rfl | rfl <;>
        simp only [Goal.shapeVars, Goal.sides, Sized.shapeVars, List.mem_append] at hx <;> grind
    · rw [List.mem_singleton.mp hg] at hx
      cases hx
  decompose_weight {l r goals} h defs := by
    rcases decompose_eq_ok h with
      ⟨a, b, c, d, rfl, rfl, rfl⟩ | ⟨_, _, _, _, unit, rfl, rfl, -, -, -, rfl⟩
    · have hUnwind := Context.unwind_binary (L := language) Ty.arrow fun _ _ _ _ => rfl
      simp only [List.map_cons, List.map_nil, Context.weight, Entry.ofGoal, Constraint.ofGoal,
        Entry.weight, Entry.definition?, Option.toList_none, List.append_nil, Goal.weight,
        Goal.sides, hUnwind, Sized.weight, Ty.shapeSize]
      omega
    · exact Nat.add_pos_left (Sized.weight_pos (L := language) _) _
  flexRigid {f deps eq g made} hBelow hVar hGoal h := by
    obtain ⟨equated, hMade, h⟩ := bind_eq_ok.mp h
    cases h
    exact flexRigid_lt hBelow hVar hGoal hMade
  special {f deps g t} hBelow h := by
    cases g with
    | hull x shape => exact Focus.walk_lt hBelow rfl rfl rfl (Goal.Below.refl _) h
    | identity unit => exact solveUnit_lt hBelow h

end HindleyMilner.Units
