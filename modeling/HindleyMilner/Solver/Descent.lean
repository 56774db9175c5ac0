import HindleyMilner.Solver.Measure
import HindleyMilner.Solver.Outcomes

/-! Steps of the solver make the measure smaller. The rules that all languages
share are settled here; what is left to show for a language is collected in
`Descending`. -/
namespace HindleyMilner

open Context

variable {L : Language} [Sized L]

/-- A goal that counts no more than another wherever both may stand. -/
structure Goal.Below (g g' : Goal L) : Prop where
  shapeVars : ∀ x ∈ g.shapeVars, x ∈ g'.shapeVars
  weight : ∀ defs, g.weight defs ≤ g'.weight defs
  rank : g.rank ≤ g'.rank
  depFactor : g.depFactor ≤ g'.depFactor
  sides : g.sides.isSome = g'.sides.isSome

namespace Goal

theorem Below.refl (g : Goal L) : g.Below g :=
  ⟨fun _ h => h, fun _ => Nat.le_refl _, Nat.le_refl _, Nat.le_refl _, rfl⟩

/-- The sides of an equation may change places. -/
theorem Below.swap (l r : L.Ty) : (eq r l).Below (eq l r) where
  shapeVars x h := by
    rw [shapeVars_of_sides rfl, List.mem_append] at h ⊢
    exact h.symm
  weight defs := Nat.le_of_eq (Nat.add_comm _ _)
  rank := Nat.le_refl _
  depFactor := by simp [Goal.depFactor, Bool.and_comm]
  sides := rfl

omit [Sized L] in
/-- A variable that a goal carries counts for something, so that taking one
up can be paid for. -/
theorem one_le_depFactor (g : Goal L) : 1 ≤ g.depFactor := by
  unfold depFactor
  split
  · split <;> omega
  · omega

end Goal

namespace State

/-- A constraint that takes the place of another and of the entry below it comes
before it if it is no heavier there and has come closer to its end. -/
theorem measure_lt_of_place (mid rest : List (Entry L)) {supply supply' : Supply}
    {pre post : List (Entry L)} {top : Entry L} {c c' : Constraint L}
    (hPre : Settled pre) (hTop : Settled [top]) (hMid : Settled mid) (hRest : Settled rest)
    (hDefs : definitions mid = [])
    (hOpen : openCount ⟨supply', ⟨pre ++ ((mid ++ .constraint c' :: rest) ++ post)⟩⟩ ≤
      openCount ⟨supply, ⟨pre ++ ([top, .constraint c] ++ post)⟩⟩)
    (hWeight : c'.goal.weight (definitions pre) ≤ c.goal.weight (definitions (pre ++ [top])))
    (hPost : Context.weight (definitions (pre ++ rest)) post ≤
      Context.weight (definitions (pre ++ [top])) post)
    (hSides : c'.goal.sides.isSome = c.goal.sides.isSome)
    (hPlace : Prod.Lex (· < ·) (Prod.Lex (· < ·) (· < ·))
      ((definitions pre).length, c'.goal.rank,
        2 * (pre ++ mid).length + c'.goal.depFactor * c'.deps.length)
      ((definitions (pre ++ [top])).length, c.goal.rank,
        2 * (pre ++ [top]).length + c.goal.depFactor * c.deps.length)) :
    MeasureLT (measure ⟨supply', ⟨pre ++ ((mid ++ .constraint c' :: rest) ++ post)⟩⟩)
      (measure ⟨supply, ⟨pre ++ ([top, .constraint c] ++ post)⟩⟩) := by
  have hNew : pre ++ ((mid ++ .constraint c' :: rest) ++ post) =
      (pre ++ mid) ++ .constraint c' :: (rest ++ post) := by simp
  have hOld : pre ++ ([top, .constraint c] ++ post) = (pre ++ [top]) ++ .constraint c :: post := by
    simp
  have hPreMid := settled_append.mpr ⟨hPre, hMid⟩
  have hPreTop := settled_append.mpr ⟨hPre, hTop⟩
  have hPreMidDefs : definitions (pre ++ mid) = definitions pre := by
    rw [definitions_append, hDefs, List.append_nil]
  rw [measure, measure]
  refine lex_of_le hOpen ?_
  simp only [hNew, hOld]
  refine lex_of_le ?_ (lex_of_le ?_ ?_)
  · rw [weight_append_of_settled _ hPreMid, weight_append_of_settled _ hPreTop, hPreMidDefs]
    simp only [List.nil_append, Context.weight, Entry.weight, Entry.definition?,
      Option.toList_none, List.append_nil, weight_append_of_settled _ hRest,
      ← definitions_append]
    omega
  · rw [leading_append_of_settled hPreMid, leading_append_of_settled hPreTop]
    simp only [leading, hSides, leading_append_of_settled hRest]
    exact Nat.le_refl _
  · rw [place_of_settled _ hPreMid, place_of_settled _ hPreTop, hPreMidDefs]
    exact hPlace

/-- A goal that equates no types may be dropped. Fewer goals stand before
the first equation of types then, if no more variables are open and no
equated type has grown. -/
theorem measure_lt_of_leading (old new : List (Entry L)) {supply : Supply}
    {pre post : List (Entry L)} {c : Constraint L}
    (hPre : Settled pre) (hOld : Settled old) (hNew : Settled new)
    (hSides : c.goal.sides = none)
    (hOpen : openCount ⟨supply, ⟨pre ++ (new ++ post)⟩⟩ ≤
      openCount ⟨supply, ⟨pre ++ ((old ++ [.constraint c]) ++ post)⟩⟩)
    (hPost : Context.weight (definitions (pre ++ new)) post ≤
      Context.weight (definitions (pre ++ old)) post) :
    MeasureLT (measure ⟨supply, ⟨pre ++ (new ++ post)⟩⟩)
      (measure ⟨supply, ⟨pre ++ ((old ++ [.constraint c]) ++ post)⟩⟩) := by
  have hAfter : pre ++ (new ++ post) = (pre ++ new) ++ post := by simp
  have hBefore : pre ++ ((old ++ [.constraint c]) ++ post) =
      (pre ++ old) ++ .constraint c :: post := by simp
  have hPreNew := settled_append.mpr ⟨hPre, hNew⟩
  have hPreOld := settled_append.mpr ⟨hPre, hOld⟩
  rw [measure, measure]
  refine lex_of_le hOpen ?_
  simp only [hAfter, hBefore]
  refine lex_of_le ?_ (.left _ _ ?_)
  · rw [weight_append_of_settled _ hPreNew, weight_append_of_settled _ hPreOld]
    simp only [List.nil_append, Context.weight, Entry.definition?, Option.toList_none,
      List.append_nil]
    omega
  · rw [leading_append_of_settled hPreNew, leading_append_of_settled hPreOld]
    simp [leading, hSides]

/-- A constraint may pass an entry that defines nothing. Everything else stays
as it is, and there is one entry fewer that it has to pass. -/
theorem measure_pass_lt {supply : Supply} {pre post : List (Entry L)} {top : Entry L}
    {deps : L.Telescope} {g g' : Goal L} (hPre : Settled pre) (hTop : Settled [top])
    (hDefs : definitions [top] = []) (hGoal : g'.Below g) :
    MeasureLT (measure ⟨supply, ⟨pre ++ ([.constraint ⟨deps, g'⟩, top] ++ post)⟩⟩)
      (measure ⟨supply, ⟨pre ++ ([top, .constraint ⟨deps, g⟩] ++ post)⟩⟩) := by
  have hPreDefs : definitions (pre ++ [top]) = definitions pre := by
    rw [definitions_append, hDefs, List.append_nil]
  refine measure_lt_of_place [] [_] hPre hTop (by simp [Settled]) hTop rfl ?_ ?_
    (Nat.le_refl _) hGoal.sides ?_
  · refine openCount_le (fun x hx => ?_) fun xs => ?_
    · have := hGoal.shapeVars x
      simp only [Context.shapeVars, Entry.shapeVars, List.flatMap_append, List.flatMap_cons,
        List.mem_append] at hx ⊢
      grind
    · simp only [introCount_cons, Entry.introNames, List.nil_append]
      omega
  · rw [hPreDefs]
    exact hGoal.weight _
  · rw [hPreDefs]
    refine .right _ (lex_of_le hGoal.rank ?_)
    have := Nat.mul_le_mul_right deps.length hGoal.depFactor
    simp only [List.append_nil, List.length_append, List.length_singleton]
    omega

/-- A goal that equates no types may pass a definition. It has no size that the
definition could change, and one definition fewer is below it. -/
theorem measure_pass_define_lt {supply : Supply} {pre post : List (Entry L)} {x : Name}
    {type : L.Ty} {kind : L.Kind} {c : Constraint L} (hPre : Settled pre)
    (hSides : c.goal.sides = none) :
    MeasureLT (measure ⟨supply, ⟨pre ++ ([.constraint c, .define x type kind] ++ post)⟩⟩)
      (measure ⟨supply, ⟨pre ++ ([.define x type kind, .constraint c] ++ post)⟩⟩) := by
  have hTop : Settled [(.define x type kind : Entry L)] := by simp [Settled, Entry.isConstraint]
  refine measure_lt_of_place [] [_] hPre hTop (by simp [Settled]) hTop rfl ?_ ?_
    (Nat.le_refl _) rfl (.left _ _ ?_)
  · refine openCount_le (fun y hy => ?_) fun xs => ?_
    · simp only [Context.shapeVars, List.nil_append, List.flatMap_append, List.flatMap_cons,
        List.mem_append] at hy ⊢
      grind
    · simp only [introCount_cons, List.nil_append]
      omega
  · simp [Goal.weight, hSides]
  · rw [definitions_append]
    show (definitions pre).length < (definitions pre ++ [(x, type)]).length
    simp

/-- A constraint may take up a variable, unless it is the equation of
two. The variable is no longer below it, and a carried one counts no
more than an entry. -/
theorem measure_lift_lt {supply : Supply} {pre post : List (Entry L)} {x : Name} {kind : L.Kind}
    {deps : L.Telescope} {g g' : Goal L} (hPre : Settled pre) (hFactor : g'.depFactor = 1)
    (hGoal : g'.Below g) :
    MeasureLT (measure ⟨supply, ⟨pre ++ ([.constraint ⟨(x, kind) :: deps, g'⟩] ++ post)⟩⟩)
      (measure ⟨supply, ⟨pre ++ ([.intro x kind, .constraint ⟨deps, g⟩] ++ post)⟩⟩) := by
  have hPreDefs : definitions (pre ++ [.intro x kind]) = definitions pre := by
    rw [definitions_append]
    exact List.append_nil _
  refine measure_lt_of_place [] [] hPre (by simp [Settled, Entry.isConstraint])
    (by simp [Settled]) (by simp [Settled]) rfl ?_ ?_ ?_ hGoal.sides ?_
  · refine openCount_le (fun x hx => ?_) fun xs => ?_
    · have := hGoal.shapeVars x
      simp only [Context.shapeVars, Entry.shapeVars, List.flatMap_append, List.flatMap_cons,
        List.mem_append] at hx ⊢
      grind
    · simp only [introCount_cons, Entry.introNames, List.nil_append, List.map_cons,
        List.countP_cons, List.countP_nil]
      omega
  · rw [hPreDefs]
    exact hGoal.weight _
  · exact Nat.le_of_eq (by rw [hPreDefs, List.append_nil])
  · rw [hPreDefs]
    refine .right _ (lex_of_le hGoal.rank ?_)
    have := Nat.mul_le_mul_right deps.length g.one_le_depFactor
    simp only [List.append_nil, List.length_append, List.length_cons, List.length_nil, hFactor]
    omega

/-- A constraint may pass a definition with the definition substituted. The
equated types keep their size, as the definition counted in it before, and there
is one definition fewer below. -/
theorem measure_unfold_lt (deps : L.Telescope) {supply : Supply} {pre post : List (Entry L)}
    {x : Name} {type : L.Ty} {kind : L.Kind} {g g' : Goal L} (hPre : Settled pre)
    (hShape : ∀ y ∈ g'.shapeVars, y ∈ g.shapeVars ∨ y ∈ Sized.shapeVars type)
    (hWeight : ∀ defs, g'.weight defs ≤ g.weight (defs ++ [(x, type)]))
    (hSides : g'.sides.isSome = g.sides.isSome) :
    MeasureLT
      (measure ⟨supply, ⟨pre ++ ((deps.intros ++ [.ofGoal g', .define x type kind]) ++ post)⟩⟩)
      (measure ⟨supply, ⟨pre ++ ([.define x type kind, .constraint ⟨deps, g⟩] ++ post)⟩⟩) := by
  have hTop : Settled [(.define x type kind : Entry L)] := by simp [Settled, Entry.isConstraint]
  have hPreDefs : definitions (pre ++ [.define x type kind]) = definitions pre ++ [(x, type)] :=
    definitions_append _ _
  refine measure_lt_of_place _ _ hPre hTop (settled_intros deps) hTop
    (definitions_intros deps) ?_ ?_
    (Nat.le_refl _) hSides ?_
  · refine openCount_le (fun y hy => ?_) fun xs => ?_
    · have := hShape y
      simp only [shapeVars_append, shapeVars_intros, List.nil_append] at hy ⊢
      simp only [Context.shapeVars, Entry.shapeVars, Constraint.ofGoal, List.flatMap_cons,
        List.mem_append] at hy ⊢
      grind
    · rw [introCount_append, introCount_intros]
      simp [introCount_cons, introCount_nil, Entry.introNames, Constraint.ofGoal]
  · rw [hPreDefs]
    exact hWeight _
  · rw [hPreDefs]
    exact .left _ _ (by simp)

/-- An equation may pass a definition with the definition put into both sides,
which are as large then as they were before with the definition counted in. -/
theorem measure_subst_lt (deps : L.Telescope) {supply : Supply} {pre post : List (Entry L)}
    {x : Name} {type l r : L.Ty} {kind : L.Kind} {goal g : Goal L} (hPre : Settled pre)
    (hSides : goal.sides = some (l, r)) (hGoal : goal.Below g) :
    MeasureLT
      (measure ⟨supply, ⟨pre ++ ((deps.intros ++
        [.ofGoal (.eq (subst1 x type l) (subst1 x type r)), .define x type kind]) ++ post)⟩⟩)
      (measure ⟨supply, ⟨pre ++ ([.define x type kind, .constraint ⟨deps, g⟩] ++ post)⟩⟩) := by
  have hShape : ∀ y, y ∈ Sized.shapeVars l ∨ y ∈ Sized.shapeVars r → y ∈ g.shapeVars :=
    fun y hy => hGoal.shapeVars y (by rwa [Goal.shapeVars_of_sides hSides, List.mem_append])
  refine measure_unfold_lt deps hPre (fun y hy => ?_) (fun defs => ?_) ?_
  · rw [Goal.shapeVars_of_sides rfl, List.mem_append] at hy
    rcases hy with hy | hy
    · exact (Sized.mem_shapeVars_subst1 hy).imp_left fun h => hShape y (.inl h)
    · exact (Sized.mem_shapeVars_subst1 hy).imp_left fun h => hShape y (.inr h)
  · refine Nat.le_trans (Nat.le_of_eq ?_) (hGoal.weight _)
    rw [Goal.weight_of_sides rfl, Goal.weight_of_sides hSides]
    simp [unwind]
  · rw [← hGoal.sides, hSides]
    rfl

/-- It may pass a definition as it is if it does not mention the defined
variable, because then putting the definition in would change nothing. -/
theorem measure_skip_lt (deps : L.Telescope) {supply : Supply} {pre post : List (Entry L)}
    {x : Name} {type l r : L.Ty} {kind : L.Kind} {goal g : Goal L} (hPre : Settled pre)
    (hSides : goal.sides = some (l, r)) (hGoal : goal.Below g) (hl : x ∉ freeVars l)
    (hr : x ∉ freeVars r) :
    MeasureLT
      (measure ⟨supply, ⟨pre ++ ((deps.intros ++ [.ofGoal goal, .define x type kind]) ++ post)⟩⟩)
      (measure ⟨supply, ⟨pre ++ ([.define x type kind, .constraint ⟨deps, g⟩] ++ post)⟩⟩) := by
  refine measure_unfold_lt deps hPre (fun y hy => .inl (hGoal.shapeVars y hy)) (fun defs => ?_)
    hGoal.sides
  refine Nat.le_trans ?_ (hGoal.weight _)
  rw [Goal.weight_of_sides hSides, Goal.weight_of_sides hSides]
  have hUnwind : ∀ t : L.Ty, unwind (defs ++ [(x, type)]) t = unwind defs (subst1 x type t) := by
    simp [unwind]
  rw [hUnwind, hUnwind]
  exact Nat.add_le_add (Sized.weight_unwind_le type defs hl) (Sized.weight_unwind_le type defs hr)

/-- A variable of the equated types may be defined where it was
introduced. This is the one case in which types may get larger, and it
leaves one open variable fewer. -/
theorem measure_define_lt (deps : L.Telescope) {supply : Supply} {pre post : List (Entry L)}
    {x : Name} {type : L.Ty} {kind : L.Kind} {g : Goal L} (hVar : x ∈ g.shapeVars)
    (hShape : ∀ y ∈ Sized.shapeVars type, y ∈ g.shapeVars) :
    MeasureLT (measure ⟨supply, ⟨pre ++ ((deps.intros ++ [.define x type kind]) ++ post)⟩⟩)
      (measure ⟨supply, ⟨pre ++ ([.intro x kind, .constraint ⟨deps, g⟩] ++ post)⟩⟩) := by
  have hMem : ∀ y ∈ g.shapeVars,
      y ∈ Context.shapeVars (pre ++ ([.intro x kind, .constraint ⟨deps, g⟩] ++ post)) := by
    intro y hy
    simp only [Context.shapeVars, Entry.shapeVars, List.flatMap_append, List.flatMap_cons,
      List.mem_append]
    grind
  refine .left _ _ (openCount_lt (hMem x hVar) (fun y hy => hMem y (hShape y ?_)) fun p hp => ?_)
  · rw [shapeVars_append, shapeVars_intros] at hy
    simpa [Context.shapeVars, Entry.shapeVars] using hy
  · rw [introCount_append, introCount_intros]
    simp [introCount_cons, introCount_nil, Entry.introNames, hp]

/-- A constraint may be replaced by goals that are lighter together, if they
bring in no variable whose definition can change the size of a type. -/
theorem measure_replace_lt (deps : L.Telescope) (goals : List (Goal L)) {supply : Supply}
    {pre post : List (Entry L)} {g : Goal L} (hPre : Settled pre)
    (hShape : ∀ g' ∈ goals, ∀ x ∈ g'.shapeVars, x ∈ g.shapeVars)
    (hWeight : ∀ defs, Context.weight defs (goals.map .ofGoal) < g.weight defs) :
    MeasureLT (measure ⟨supply, ⟨pre ++ ((deps.intros ++ goals.map .ofGoal) ++ post)⟩⟩)
      (measure ⟨supply, ⟨pre ++ ([.constraint ⟨deps, g⟩] ++ post)⟩⟩) := by
  rw [measure, measure]
  refine lex_of_le (openCount_le (fun x hx => ?_) fun xs => ?_) (.left _ _ ?_)
  · rw [shapeVars_append, shapeVars_intros, List.nil_append] at hx
    simp only [Context.shapeVars, List.mem_flatMap, List.mem_map] at hx
    obtain ⟨_, ⟨g', hg', rfl⟩, hx⟩ := hx
    have := hShape g' hg' x hx
    simp only [Context.shapeVars, Entry.shapeVars, List.flatMap_append, List.flatMap_cons,
      List.mem_append]
    grind
  · rw [introCount_append, introCount_intros, introCount_ofGoals]
    simp [introCount_cons, introCount_nil, Entry.introNames]
  · have := hWeight (definitions pre)
    rw [weight_append_of_settled _ hPre, weight_append_of_settled _ hPre, List.append_assoc,
      weight_append_of_settled _ (settled_intros deps), definitions_intros, weight_append,
      definitions_ofGoals]
    simp only [List.nil_append, List.append_nil, List.singleton_append, Context.weight,
      Entry.weight, Entry.definition?, Option.toList_none]
    omega

end State

namespace Focus

omit [Sized L] in
/-- The nearest entry below a first constraint is no constraint, and neither is
any entry below that one. -/
theorem settled_of_cons {top : Entry L} {below : List (Entry L)}
    (h : Settled (top :: below).reverse) : Settled below.reverse ∧ Settled [top] := by
  rw [List.reverse_cons] at h
  exact settled_append.mp h

omit [Sized L] in
/-- A constraint put back above the entry it was just about to meet stands
right after that entry. -/
theorem resume_cons (supply : Supply) (top : Entry L) (below above : List (Entry L))
    (c : Constraint L) :
    resume ⟨supply, top :: below, above⟩ [.constraint c] =
      ⟨supply, ⟨below.reverse ++ ([top, .constraint c] ++ above)⟩⟩ := by
  simp [resume]

omit [Sized L] in
theorem resume_reverse (supply : Supply) (pre above es : List (Entry L)) :
    resume ⟨supply, pre.reverse, above⟩ es = ⟨supply, ⟨pre ++ (es ++ above)⟩⟩ := by
  simp [resume]

/-- An equation between a variable and another type makes the measure smaller
wherever it gets to: it ends in a definition, takes up a variable that its other
side depends on, or comes past one more entry. -/
theorem walk_lt {f : Focus L} {deps : L.Telescope} {goal g : Goal L} {eq : FlexRigid L}
    {t : State L} (hBelow : Settled f.below.reverse) (hVar : L.asVar? eq.flex = some eq.name)
    (hSides : goal.sides = some (eq.flex, eq.rigid)) (hFactor : goal.depFactor = 1)
    (hGoal : goal.Below g) (hWalk : f.walk goal deps eq = .ok t) :
    MeasureLT t.measure (f.resume [.constraint ⟨deps, g⟩]).measure := by
  have hShape : ∀ y, y ∈ Sized.shapeVars eq.flex ∨ y ∈ Sized.shapeVars eq.rigid →
      y ∈ g.shapeVars := fun y hy =>
    hGoal.shapeVars y (by rwa [Goal.shapeVars_of_sides hSides, List.mem_append])
  cases walk_meets hWalk with
  | mk hWalked =>
      obtain ⟨hPre, hTop⟩ := settled_of_cons hBelow
      rw [resume_cons]
      cases hWalked with
      | solve hFree =>
          exact State.measure_define_lt deps (hShape _ (.inl (Sized.mem_shapeVars hVar)))
            fun y hy => hShape y (.inr hy)
      | lift hName hMentions => exact State.measure_lift_lt hPre hFactor hGoal
      | unfold => exact State.measure_subst_lt deps hPre hSides hGoal
      | skip hName hFree =>
          exact State.measure_skip_lt deps hPre hSides hGoal
            (fun h => hName (Sized.eq_of_mem_freeVars hVar h)) hFree
      | pass _ hDefinition =>
          exact State.measure_pass_lt hPre hTop (by simp [definitions, hDefinition]) hGoal

/-- An equation between two variables defines one of them, or comes past one
more entry. In the first case one variable fewer waits for a definition. -/
theorem meetVars_lt {f : Focus L} {a b : Name} {l r : L.Ty} {t : State L}
    (hBelow : Settled f.below.reverse) (hl : L.asVar? l = some a) (hr : L.asVar? r = some b)
    (hMeet : f.meetVars a b l r = .ok t) :
    MeasureLT t.measure (f.resume [.ofGoal (.eq l r)]).measure := by
  have hShape : ∀ x, x ∈ Sized.shapeVars l ∨ x ∈ Sized.shapeVars r →
      x ∈ (Goal.eq l r).shapeVars := fun x hx => by
    rwa [Goal.shapeVars_of_sides rfl, List.mem_append]
  have hRefl : (Goal.eq l r).Below (.eq l r) := .refl _
  cases meetVars_meets hMeet with
  | mk hMet =>
      obtain ⟨hPre, hTop⟩ := settled_of_cons hBelow
      rw [Entry.ofGoal, resume_cons]
      cases hMet with
      | left =>
          exact State.measure_define_lt [] (hShape a (.inl (Sized.mem_shapeVars hl)))
            fun y hy => hShape y (.inr hy)
      | right hNe =>
          exact State.measure_define_lt [] (hShape b (.inr (Sized.mem_shapeVars hr)))
            fun y hy => hShape y (.inl hy)
      | unfold => exact State.measure_subst_lt [] hPre rfl hRefl
      | skip hLeft hRight =>
          exact State.measure_skip_lt [] hPre rfl hRefl
            (fun h => hLeft (Sized.eq_of_mem_freeVars hl h))
            fun h => hRight (Sized.eq_of_mem_freeVars hr h)
      | pass _ hDefinition =>
          exact State.measure_pass_lt hPre hTop (by simp [definitions, hDefinition]) hRefl

/-- The variables that the equation of two variables carries count as much below
it. -/
theorem measure_lower {f : Focus L} {deps : L.Telescope} {l r : L.Ty} {a b : Name}
    (hBelow : Settled f.below.reverse) (hl : L.asVar? l = some a) (hr : L.asVar? r = some b) :
    ((f.lower deps).resume [.ofGoal (.eq l r)]).measure =
      (f.resume [.constraint ⟨deps, .eq l r⟩]).measure := by
  have hLowered : (f.lower deps).resume [.ofGoal (.eq l r)] =
      ⟨f.supply, ⟨(f.below.reverse ++ deps.intros) ++ .constraint ⟨[], .eq l r⟩ :: f.above⟩⟩ := by
    simp [resume, lower, Entry.ofGoal, Constraint.ofGoal]
  have hGiven : f.resume [.constraint ⟨deps, .eq l r⟩] =
      ⟨f.supply, ⟨f.below.reverse ++ .constraint ⟨deps, .eq l r⟩ :: f.above⟩⟩ := rfl
  have hSettled := settled_append.mpr ⟨hBelow, settled_intros deps⟩
  have hDefs : definitions (f.below.reverse ++ deps.intros) = definitions f.below.reverse := by
    rw [definitions_append, definitions_intros, List.append_nil]
  have hShape : Context.shapeVars
      ((f.below.reverse ++ deps.intros) ++ .constraint ⟨[], .eq l r⟩ :: f.above) =
        Context.shapeVars (f.below.reverse ++ .constraint ⟨deps, .eq l r⟩ :: f.above) := by
    rw [shapeVars_append, shapeVars_append, shapeVars_append, shapeVars_intros, List.append_nil]
    rfl
  rw [hLowered, hGiven, State.measure, State.measure, State.place_of_settled _ hSettled,
    State.place_of_settled _ hBelow, hDefs]
  simp only [State.openCount, hShape, introCount_append, introCount_intros,
    weight_append_of_settled _ hSettled, weight_append_of_settled _ hBelow, hDefs,
    leading_append_of_settled hSettled, leading_append_of_settled hBelow, Prod.mk.injEq]
  refine ⟨?_, rfl, rfl, trivial, trivial, ?_⟩
  · simp only [introCount_cons, Entry.introNames, List.map_nil,
      List.countP_nil]
    omega
  · simp only [Goal.depFactor, hl, hr, Option.isSome_some, Bool.and_self, if_true,
      List.length_append, List.length_nil, Language.Telescope.intros, List.length_map]
    omega

end Focus

/-- What is left to show of a language for the solver to make the measure
smaller. -/
class Descending (L : Language) [Sized L] [Rules L] : Prop where
  decompose_shapeVars : ∀ {l r : L.Ty} {goals : List (Goal L)}, Rules.decompose l r = .ok goals →
    ∀ g ∈ goals, ∀ x ∈ g.shapeVars, x ∈ (Goal.eq l r).shapeVars
  decompose_weight : ∀ {l r : L.Ty} {goals : List (Goal L)}, Rules.decompose l r = .ok goals →
    ∀ defs, Context.weight defs (goals.map .ofGoal) < (Goal.eq l r).weight defs
  flexRigid : ∀ {f : Focus L} {deps : L.Telescope} {eq : FlexRigid L} {g : Goal L}
    {made : Supply × List (Constraint L)}, Settled f.below.reverse →
    L.asVar? eq.flex = some eq.name → (Goal.eq eq.flex eq.rigid).Below g →
      Rules.flexRigid f.supply deps eq = .ok (some made) →
    MeasureLT (State.measure ⟨made.1, ⟨f.below.reverse ++ (made.2.map .constraint ++ f.above)⟩⟩)
      (f.resume [.constraint ⟨deps, g⟩]).measure
  special : ∀ {f : Focus L} {deps : L.Telescope} {g : L.Special} {t : State L},
    Settled f.below.reverse → Rules.special f deps g = .ok t →
    MeasureLT t.measure (f.resume [.constraint ⟨deps, .special g⟩]).measure

namespace Focus

variable [Rules L] [Descending L]

/-- An equation between a variable and another type either walks, or is replaced
by the constraints of the language, which answers for the measure itself. -/
theorem flexRigid_lt {f : Focus L} {deps : L.Telescope} {eq : FlexRigid L} {g : Goal L}
    {t : State L} (hBelow : Settled f.below.reverse) (hVar : L.asVar? eq.flex = some eq.name)
    (hRigid : L.asVar? eq.rigid = none) (hGoal : (Goal.eq eq.flex eq.rigid).Below g)
    (hStep : f.flexRigid deps eq = .ok t) :
    MeasureLT t.measure (f.resume [.constraint ⟨deps, g⟩]).measure := by
  obtain ⟨made, hRule, hStep⟩ := bind_eq_ok.mp hStep
  cases made with
  | none => exact walk_lt hBelow hVar rfl (by simp [Goal.depFactor, hRigid]) hGoal hStep
  | some made =>
      cases hStep
      exact Descending.flexRigid hBelow hVar hGoal hRule

/-- Every step of an equation makes the measure smaller, whichever of its
sides are variables. -/
theorem solveEq_lt {f : Focus L} {deps : L.Telescope} {l r : L.Ty} {t : State L}
    (hBelow : Settled f.below.reverse) (hStep : f.solveEq deps l r = .ok t) :
    MeasureLT t.measure (f.resume [.constraint ⟨deps, .eq l r⟩]).measure := by
  cases equated_of_solveEq hStep with
  | left hl hr h => exact flexRigid_lt hBelow hl hr (Goal.Below.refl _) h
  | right hl hr h => exact flexRigid_lt hBelow hr hl (Goal.Below.swap l r) h
  | same hl hr =>
      rw [← List.append_nil (Language.Telescope.intros deps)]
      exact State.measure_replace_lt deps [] hBelow (List.forall_mem_nil _) fun defs =>
        Nat.add_pos_left (Sized.weight_pos _) _
  | meet hNe hl hr h =>
      rw [← measure_lower hBelow hl hr]
      refine meetVars_lt ?_ hl hr h
      simp only [lower, List.reverse_append, List.reverse_reverse]
      exact settled_append.mpr ⟨hBelow, settled_intros deps⟩
  | split hl hr h =>
      exact State.measure_replace_lt deps _ hBelow (Descending.decompose_shapeVars h)
        (Descending.decompose_weight h)

end Focus

/-- A step of the solver makes the measure smaller. The step is taken at the
first constraint, which is an equation or a goal of the language's own. -/
theorem State.Steps.measure_lt [Rules L] [Descending L] {s t : State L} (h : s.Steps t) :
    MeasureLT t.measure s.measure := by
  obtain ⟨hCan, hStep⟩ := h
  cases hFocus : s.focus? with
  | some first =>
      obtain ⟨⟨deps, goal⟩, f⟩ := first
      rw [State.step, hFocus] at hStep
      obtain ⟨rfl, hBelow⟩ := State.eq_of_focus? hFocus
      cases goal with
      | eq l r => exact Focus.solveEq_lt hBelow hStep
      | special g => exact Descending.special hBelow hStep
  | none =>
      rw [State.isSome_focus?, hFocus] at hCan
      cases hCan

instance [Rules L] [Descending L] : Terminating L where
  wellFounded :=
    Subrelation.wf State.Steps.measure_lt
      (InvImage.wf State.measure (WellFoundedRelation.wf (α := Nat × Nat × Nat × Nat × Nat × Nat)))

end HindleyMilner
