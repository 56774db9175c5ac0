import HindleyMilner.Solver.Run
import HindleyMilner.Total

/-! A measure for steps of the solver. It has, from the most to the least
important part:

- the variables that still wait for a definition and can change the shape of a
  type that is equated, among those drawn and those to be drawn;
- the size of all equated types, with the definitions before them substituted;
- the goals before the first equation of types;
- the definitions, and then the entries, that the first constraint has yet to
  pass.

A language says in `Sized` what the size of a type is and which variables can
change it. -/
namespace HindleyMilner

open Context

variable {L : Language}

/-- Types with a size. The variables that count are those whose definition
can change the size. -/
class Sized (L : Language) where
  weight : L.Ty → Nat
  /-- The variables whose definition can change the size of a type. -/
  shapeVars : L.Ty → List Name
  /-- The types that a goal equates, if it equates types. -/
  specialSides : L.Special → Option (L.Ty × L.Ty)
  /-- What tells the goals at one place of a context apart. -/
  specialRank : L.Special → Nat
  weight_pos : ∀ t, 0 < weight t
  mem_shapeVars : ∀ {t x}, L.asVar? t = some x → x ∈ shapeVars t
  eq_of_mem_freeVars : ∀ {t x y}, L.asVar? t = some x → y ∈ freeVars t → y = x
  mem_shapeVars_subst1 : ∀ {x y u t},
    y ∈ shapeVars (subst1 x u t) → y ∈ shapeVars t ∨ y ∈ shapeVars u
  weight_unwind_le : ∀ {x t} (u : L.Ty) (defs : List (Name × L.Ty)), x ∉ freeVars t →
    weight (unwind defs t) ≤ weight (unwind defs (subst1 x u t))

namespace Goal

variable [Sized L]

/-- The types that a goal equates, if it equates types. -/
def sides : Goal L → Option (L.Ty × L.Ty)
  | eq l r => some (l, r)
  | special g => Sized.specialSides g

/-- The variables whose definition can change the size of the equated types. -/
def shapeVars (g : Goal L) : List Name :=
  match g.sides with
  | some (l, r) => Sized.shapeVars l ++ Sized.shapeVars r
  | none => []

/-- The size of the equated types under some definitions. -/
def weight (defs : List (Name × L.Ty)) (g : Goal L) : Nat :=
  match g.sides with
  | some (l, r) => Sized.weight (unwind defs l) + Sized.weight (unwind defs r)
  | none => 0

theorem shapeVars_of_sides {g : Goal L} {l r : L.Ty} (h : g.sides = some (l, r)) :
    g.shapeVars = Sized.shapeVars l ++ Sized.shapeVars r := by
  simp [shapeVars, h]

theorem weight_of_sides {g : Goal L} {l r : L.Ty} (h : g.sides = some (l, r))
    (defs : List (Name × L.Ty)) :
    g.weight defs = Sized.weight (unwind defs l) + Sized.weight (unwind defs r) := by
  simp [weight, h]

/-- What tells the goals at one place of a context apart. -/
def rank : Goal L → Nat
  | eq .. => 1
  | special g => Sized.specialRank g

/-- How much a carried variable counts. The equation of two variables puts those
it carries back into the context before anything else. -/
def depFactor : Goal L → Nat
  | eq l r => if (L.asVar? l).isSome && (L.asVar? r).isSome then 2 else 1
  | special _ => 1

end Goal

namespace Entry

/-- The type variables that an entry introduces or carries. -/
def introNames : Entry L → List Name
  | intro x _ => [x]
  | constraint c => c.deps.map Prod.fst
  | _ => []

variable [Sized L]

/-- The variables in an entry whose definition can change the size of a type. -/
def shapeVars : Entry L → List Name
  | define _ type _ => Sized.shapeVars type
  | constraint c => c.goal.shapeVars
  | _ => []

/-- The size of the types that an entry equates under some definitions. -/
def weight (defs : List (Name × L.Ty)) : Entry L → Nat
  | constraint c => c.goal.weight defs
  | _ => 0

end Entry

namespace Context

/-- The number of introduced and carried variables with a property. -/
def introCount (p : Name → Bool) (es : List (Entry L)) : Nat :=
  total (fun e => e.introNames.countP p) es

/-- No entry is a constraint. -/
def Settled (es : List (Entry L)) : Prop := ∀ e ∈ es, e.isConstraint = false

variable [Sized L]

/-- The variables in some entries whose definition can change the size of a type. -/
def shapeVars (es : List (Entry L)) : List Name := es.flatMap Entry.shapeVars

/-- The size of all equated types, with the definitions before them and
those given substituted. -/
def weight (defs : List (Name × L.Ty)) : List (Entry L) → Nat
  | [] => 0
  | e :: es => e.weight defs + weight (defs ++ e.definition?.toList) es

/-- The number of goals before the first equation of types. -/
def leading : List (Entry L) → Nat
  | [] => 0
  | .constraint c :: es => if c.goal.sides.isSome then 0 else leading es + 1
  | _ :: es => leading es

end Context

namespace Supply

/-- The names that the solver has drawn. -/
def solverNames (s : Supply) : List Name :=
  ["h", "b"].flatMap fun stem => (List.range (s.drawn stem)).map (numbered stem)

/-- The number of names in a list that the solver has yet to draw. -/
def pendingCount (s : Supply) (xs : List Name) : Nat :=
  (Name.distinct (xs.filter fun x => x ∉ s.solverNames)).length

end Supply

namespace State

variable [Sized L]

/-- The variables that can change the size of a type and wait for a definition,
or wait to be drawn. -/
def openCount (s : State L) : Nat :=
  introCount (· ∈ shapeVars s.context.entries) s.context.entries
    + s.supply.pendingCount (shapeVars s.context.entries)

/-- Where the first constraint is: the definitions below it, its rank, and what
else it has to pass. -/
def place (s : State L) : Nat × Nat × Nat :=
  match s.focus? with
  | some (c, f) =>
      ((definitions f.below).length, c.goal.rank,
        2 * f.below.length + c.goal.depFactor * c.deps.length)
  | none => (0, 0, 0)

def measure (s : State L) : Nat × Nat × Nat × Nat × Nat × Nat :=
  (s.openCount, weight [] s.context.entries, leading s.context.entries, s.place)

end State

namespace Context

theorem introCount_nil (p : Name → Bool) : introCount p ([] : List (Entry L)) = 0 := rfl

theorem introCount_cons (p : Name → Bool) (e : Entry L) (es : List (Entry L)) :
    introCount p (e :: es) = e.introNames.countP p + introCount p es := rfl

theorem introCount_append (p : Name → Bool) (es fs : List (Entry L)) :
    introCount p (es ++ fs) = introCount p es + introCount p fs := total_append _ es fs

theorem introCount_intros (p : Name → Bool) (deps : L.Telescope) :
    introCount p deps.intros = (deps.map Prod.fst).countP p := by
  induction deps with
  | nil => rfl
  | cons d deps ih =>
      show introCount p (.intro d.1 d.2 :: Language.Telescope.intros deps) = _
      rw [introCount_cons, ih, List.map_cons, List.countP_cons, Nat.add_comm, Entry.introNames,
        List.countP_singleton]

/-- Counting by a weaker condition counts at least as many introductions. -/
theorem introCount_mono {p q : Name → Bool} (h : ∀ x, p x = true → q x = true)
    (es : List (Entry L)) : introCount p es ≤ introCount q es := by
  induction es with
  | nil => exact Nat.le_refl _
  | cons e es ih =>
      have hHead : e.introNames.countP p ≤ e.introNames.countP q :=
        List.countP_mono_left fun x _ => h x
      rw [introCount_cons, introCount_cons]
      omega

theorem definitions_append (es fs : List (Entry L)) :
    definitions (es ++ fs) = definitions es ++ definitions fs := List.filterMap_append

theorem definitions_intros (deps : L.Telescope) : definitions deps.intros = [] := by
  induction deps with
  | nil => rfl
  | cons d deps ih => exact ih

/-- Goals introduce no variable. -/
theorem introCount_ofGoals (p : Name → Bool) (goals : List (Goal L)) :
    introCount p (goals.map .ofGoal) = 0 := by
  rw [introCount, total_map]
  exact total_eq_zero fun _ _ => rfl

theorem definitions_ofGoals (goals : List (Goal L)) : definitions (goals.map .ofGoal) = [] := by
  simp [definitions, Entry.ofGoal, Entry.definition?]

/-- What substitution passes into, definitions pass into too. -/
theorem unwind_binary (op : L.Ty → L.Ty → L.Ty)
    (hOp : ∀ x (u a b : L.Ty), subst1 x u (op a b) = op (subst1 x u a) (subst1 x u b))
    (defs : List (Name × L.Ty)) (a b : L.Ty) :
    unwind defs (op a b) = op (unwind defs a) (unwind defs b) := by
  induction defs with
  | nil => rfl
  | cons d defs ih =>
      change subst1 d.1 d.2 (unwind defs (op a b)) = _
      rw [ih, hOp]
      rfl

theorem settled_append {es fs : List (Entry L)} :
    Settled (es ++ fs) ↔ Settled es ∧ Settled fs := by
  simp [Settled, or_imp, forall_and]

theorem settled_intros (deps : L.Telescope) : Settled deps.intros := by
  intro e he
  obtain ⟨d, -, rfl⟩ := List.mem_map.mp he
  rfl

variable [Sized L]

theorem shapeVars_append (es fs : List (Entry L)) :
    shapeVars (es ++ fs) = shapeVars es ++ shapeVars fs := List.flatMap_append

theorem shapeVars_intros (deps : L.Telescope) : shapeVars deps.intros = [] := by
  induction deps with
  | nil => rfl
  | cons d deps ih => exact ih

/-- The weight of a context is that of its pieces, where the later piece is read
with the definitions of the earlier one. -/
theorem weight_append (defs : List (Name × L.Ty)) (es fs : List (Entry L)) :
    weight defs (es ++ fs) = weight defs es + weight (defs ++ definitions es) fs := by
  induction es generalizing defs with
  | nil => simp [weight, definitions]
  | cons e es ih =>
      have hDefs : definitions (e :: es) = e.definition?.toList ++ definitions es := by
        cases h : e.definition? <;> simp [definitions, h]
      simp only [List.cons_append, weight, ih, hDefs, List.append_assoc]
      omega

/-- Without constraints there is nothing to weigh: only equated
types have a weight. -/
theorem weight_settled (defs : List (Name × L.Ty)) {es : List (Entry L)} (h : Settled es) :
    weight defs es = 0 := by
  induction es generalizing defs with
  | nil => rfl
  | cons e es ih =>
      rw [weight, ih _ fun f hf => h f (List.mem_cons_of_mem _ hf)]
      have := h e List.mem_cons_self
      cases e <;> first | rfl | cases this

/-- Goals that equate no types weigh nothing and mention no variable that counts. -/
theorem ofGoals_of_sides_none {goals : List (Goal L)} (h : ∀ g ∈ goals, g.sides = none) :
    shapeVars (goals.map .ofGoal) = [] ∧ ∀ defs, weight defs (goals.map .ofGoal) = 0 := by
  induction goals with
  | nil => exact ⟨rfl, fun _ => rfl⟩
  | cons g goals ih =>
      obtain ⟨hShape, hWeight⟩ := ih fun g' hg' => h g' (List.mem_cons_of_mem _ hg')
      have hSides := h g List.mem_cons_self
      constructor
      · rw [List.map_cons, ← List.singleton_append, shapeVars_append, hShape, List.append_nil]
        simp [shapeVars, Entry.ofGoal, Entry.shapeVars, Constraint.ofGoal, Goal.shapeVars, hSides]
      · intro defs
        rw [List.map_cons, weight, hWeight, Entry.ofGoal, Entry.weight, Constraint.ofGoal,
          Goal.weight, hSides]

/-- Entries before the first constraint count through their definitions alone. -/
theorem weight_append_of_settled (defs : List (Name × L.Ty)) {es : List (Entry L)}
    (h : Settled es) (fs : List (Entry L)) :
    weight defs (es ++ fs) = weight (defs ++ definitions es) fs := by
  rw [weight_append, weight_settled _ h, Nat.zero_add]

/-- Entries that are no constraints do not lead. -/
theorem leading_append_of_settled {es : List (Entry L)} (h : Settled es) (fs : List (Entry L)) :
    leading (es ++ fs) = leading fs := by
  induction es with
  | nil => rfl
  | cons e es ih =>
      have hRest := ih fun f hf => h f (List.mem_cons_of_mem _ hf)
      have := h e List.mem_cons_self
      cases e <;> first | exact hRest | cases this

end Context

namespace State

/-- The first constraint is found behind any number of entries that are none.
Those are returned the nearest first. -/
theorem splitFirst_of_settled {pre : List (Entry L)} (h : Settled pre) (c : Constraint L)
    (below post : List (Entry L)) :
    splitFirst below (pre ++ .constraint c :: post) = some (pre.reverse ++ below, c, post) := by
  induction pre generalizing below with
  | nil => rfl
  | cons e pre ih =>
      have hRest := ih (fun f hf => h f (List.mem_cons_of_mem _ hf)) (e :: below)
      have := h e List.mem_cons_self
      rw [List.reverse_cons, List.append_assoc]
      cases e <;> first | exact hRest | cases this

/-- Splitting at the first constraint loses nothing: what was passed, the
constraint and the rest are the context again, and no constraint was passed. -/
theorem eq_of_splitFirst {es below below' above : List (Entry L)} {c : Constraint L}
    (h : splitFirst below es = some (below', c, above)) :
    ∃ pre, es = pre ++ .constraint c :: above ∧ below' = pre.reverse ++ below ∧ Settled pre := by
  induction es generalizing below with
  | nil => cases h
  | cons e es ih =>
      cases e with
      | constraint d =>
          simp only [splitFirst, Option.some.injEq, Prod.mk.injEq] at h
          obtain ⟨rfl, rfl, rfl⟩ := h
          exact ⟨[], rfl, rfl, by simp [Settled]⟩
      | _ =>
          obtain ⟨pre, rfl, rfl, hPre⟩ := ih h
          refine ⟨_ :: pre, rfl, by simp, fun f hf => ?_⟩
          rcases List.mem_cons.mp hf with rfl | hf
          · rfl
          · exact hPre f hf

/-- A state is its focus with the first constraint in place, and no other
constraint is below that. -/
theorem eq_of_focus? {s : State L} {c : Constraint L} {f : Focus L} (h : s.focus? = some (c, f)) :
    s = f.resume [.constraint c] ∧ Settled f.below.reverse := by
  simp only [focus?, Option.map_eq_some_iff] at h
  obtain ⟨⟨below, d, above⟩, hSplit, hEq⟩ := h
  obtain ⟨pre, hEntries, hBelow, hPre⟩ := eq_of_splitFirst hSplit
  simp only [Prod.mk.injEq] at hEq
  obtain ⟨rfl, rfl⟩ := hEq
  obtain ⟨supply, ⟨entries⟩⟩ := s
  simp_all [Focus.resume]

/-- A state can step if and only if it has a first constraint. -/
theorem isSome_splitFirst (below es : List (Entry L)) :
    (splitFirst below es).isSome = es.any Entry.isConstraint := by
  induction es generalizing below with
  | nil => rfl
  | cons e es ih => cases e <;> first | exact ih _ | rfl

/-- A step is due exactly where there is a first constraint to step at. -/
theorem isSome_focus? (s : State L) : s.canStep = s.focus?.isSome := by
  simp [canStep, hasConstraint, focus?, isSome_splitFirst]

/-- The view of a state from a constraint that has no other below it. -/
theorem focus?_of_settled (supply : Supply) {pre : List (Entry L)} (h : Settled pre)
    (c : Constraint L) (post : List (Entry L)) :
    focus? ⟨supply, ⟨pre ++ .constraint c :: post⟩⟩ = some (c, ⟨supply, pre.reverse, post⟩) := by
  simp [focus?, splitFirst_of_settled h]

variable [Sized L]

/-- How far the first constraint has yet to go, read off what stands below it. -/
theorem place_of_settled (supply : Supply) {pre : List (Entry L)} (h : Settled pre)
    (c : Constraint L) (post : List (Entry L)) :
    place ⟨supply, ⟨pre ++ .constraint c :: post⟩⟩ =
      ((definitions pre).length, c.goal.rank,
        2 * pre.length + c.goal.depFactor * c.deps.length) := by
  have hDefs : (definitions pre.reverse).length = (definitions pre).length := by
    simp [definitions, List.filterMap_reverse]
  simp [place, focus?_of_settled supply h, hDefs]

end State

namespace Supply

/-- Names of a longer list can only add to what is yet to be drawn. -/
theorem pendingCount_mono (s : Supply) {xs ys : List Name} (h : ∀ x ∈ xs, x ∈ ys) :
    s.pendingCount xs ≤ s.pendingCount ys :=
  Name.length_distinct_le fun x hx => by
    rw [List.mem_filter] at hx ⊢
    exact ⟨h x hx.1, hx.2⟩

/-- The names the solver draws differ from those it has drawn. -/
theorem not_mem_solverNames (s : Supply) {stem : String} (hStem : stem ∈ ["h", "b"]) :
    (s.draw stem).1 ∉ s.solverNames := by
  intro h
  simp only [solverNames, List.mem_flatMap, List.mem_map, List.mem_range] at h
  obtain ⟨other, hOther, n, hn, hEq⟩ := h
  rw [draw_fst] at hEq
  have hStems : ∀ stem ∈ ["h", "b"], endsInDigit stem = false := by decide
  obtain ⟨rfl, rfl⟩ := (numbered_eq_iff (hStems other hOther) (hStems stem hStem)).mp hEq
  omega

/-- A name the solver has drawn is one of those it has drawn from then on. -/
theorem mem_solverNames_draw (s : Supply) {stem : String} (hStem : stem ∈ ["h", "b"]) :
    (s.draw stem).1 ∈ (s.draw stem).2.solverNames := by
  simp only [solverNames, List.mem_flatMap, List.mem_map, List.mem_range]
  exact ⟨stem, hStem, s.drawn stem, by simp [drawn_draw], rfl⟩

/-- Further draws, from whatever stem, forget no name. -/
theorem solverNames_draw_of_mem (s : Supply) (stem : String) {x : Name} (h : x ∈ s.solverNames) :
    x ∈ (s.draw stem).2.solverNames := by
  simp only [solverNames, List.mem_flatMap, List.mem_map, List.mem_range] at h ⊢
  obtain ⟨other, hOther, n, hn, rfl⟩ := h
  refine ⟨other, hOther, n, ?_, rfl⟩
  rw [drawn_draw]
  by_cases hEq : stem = other
  · rw [if_pos hEq, hEq]
    exact Nat.lt_succ_of_lt hn
  · rw [if_neg hEq]
    exact hn

/-- A name that is drawn no longer waits to be drawn, so introducing it does not
make more variables open. -/
theorem pendingCount_draw (s : Supply) (stem : String) (hStem : stem ∈ ["h", "b"])
    (xs : List Name) :
    [(s.draw stem).1].countP (· ∈ xs) + (s.draw stem).2.pendingCount xs ≤ s.pendingCount xs := by
  have hSub : ∀ y, y ∉ (s.draw stem).2.solverNames → y ∉ s.solverNames := fun y hy h =>
    hy (s.solverNames_draw_of_mem stem h)
  by_cases hMem : (s.draw stem).1 ∈ xs
  · have hLt : (s.draw stem).2.pendingCount xs < s.pendingCount xs := by
      refine Name.length_distinct_lt (x := (s.draw stem).1) ?_ fun y hy => ?_
      · simpa [hMem] using s.not_mem_solverNames hStem
      · simp only [List.mem_filter, decide_not, Bool.not_eq_true', decide_eq_false_iff_not] at hy ⊢
        exact ⟨fun hEq => hy.2 (hEq ▸ s.mem_solverNames_draw hStem), hy.1, hSub y hy.2⟩
    simp only [List.countP_cons, List.countP_nil, hMem, decide_true, if_true]
    omega
  · have hLe : (s.draw stem).2.pendingCount xs ≤ s.pendingCount xs := by
      refine Name.length_distinct_le fun y hy => ?_
      simp only [List.mem_filter, decide_not, Bool.not_eq_true', decide_eq_false_iff_not] at hy ⊢
      exact ⟨hy.1, hSub y hy.2⟩
    simp only [List.countP_cons, List.countP_nil, hMem, decide_false]
    simpa using hLe

end Supply

abbrev MeasureLT : Nat × Nat × Nat × Nat × Nat × Nat → Nat × Nat × Nat × Nat × Nat × Nat → Prop :=
  Prod.Lex (· < ·)
    (Prod.Lex (· < ·) (Prod.Lex (· < ·) (Prod.Lex (· < ·) (Prod.Lex (· < ·) (· < ·)))))

/-- A pair comes before another if its first part is no larger and its
second part comes before. -/
theorem lex_of_le {β : Type} {r : β → β → Prop} {a a' : Nat} {b b' : β} (ha : a' ≤ a)
    (hb : r b' b) : Prod.Lex (· < ·) r (a', b') (a, b) := by
  rcases Nat.lt_or_eq_of_le ha with h | h
  · exact .left _ _ h
  · exact h ▸ .right _ hb

namespace State

variable [Sized L]

/-- Replacing entries by others opens no variable if it neither brings new
variables into equated types nor introduces more of them than it draws. -/
theorem openCount_le {supply supply' : Supply} {pre old new post : List (Entry L)}
    (hShape : ∀ x ∈ Context.shapeVars new, x ∈ Context.shapeVars (pre ++ (old ++ post)))
    (hIntro : ∀ xs : List Name, introCount (· ∈ xs) new + supply'.pendingCount xs
      ≤ introCount (· ∈ xs) old + supply.pendingCount xs) :
    openCount ⟨supply', ⟨pre ++ (new ++ post)⟩⟩ ≤ openCount ⟨supply, ⟨pre ++ (old ++ post)⟩⟩ := by
  have hSub : ∀ x ∈ Context.shapeVars (pre ++ (new ++ post)),
      x ∈ Context.shapeVars (pre ++ (old ++ post)) := by
    intro x hx
    simp only [shapeVars_append, List.mem_append] at hx hShape ⊢
    rcases hx with hx | hx | hx
    · exact .inl hx
    · exact hShape x hx
    · exact .inr (.inr hx)
  have hMono := introCount_mono (L := L) (p := (· ∈ Context.shapeVars (pre ++ (new ++ post))))
    (q := (· ∈ Context.shapeVars (pre ++ (old ++ post))))
    (fun x hx => decide_eq_true (hSub x (of_decide_eq_true hx))) (pre ++ (new ++ post))
  have hPending := supply'.pendingCount_mono hSub
  have := hIntro (Context.shapeVars (pre ++ (old ++ post)))
  simp only [openCount, introCount_append] at hMono ⊢
  omega

/-- Fewer variables are open if one that equated types mention is no longer
introduced. -/
theorem openCount_lt {supply : Supply} {pre old new post : List (Entry L)} {x : Name}
    (hx : x ∈ Context.shapeVars (pre ++ (old ++ post)))
    (hShape : ∀ x ∈ Context.shapeVars new, x ∈ Context.shapeVars (pre ++ (old ++ post)))
    (hIntro : ∀ p : Name → Bool, p x = true → introCount p new < introCount p old) :
    openCount ⟨supply, ⟨pre ++ (new ++ post)⟩⟩ < openCount ⟨supply, ⟨pre ++ (old ++ post)⟩⟩ := by
  have hSub : ∀ x ∈ Context.shapeVars (pre ++ (new ++ post)),
      x ∈ Context.shapeVars (pre ++ (old ++ post)) := by
    intro x hx
    simp only [shapeVars_append, List.mem_append] at hx hShape ⊢
    rcases hx with hx | hx | hx
    · exact .inl hx
    · exact hShape x hx
    · exact .inr (.inr hx)
  have hMono := introCount_mono (L := L) (p := (· ∈ Context.shapeVars (pre ++ (new ++ post))))
    (q := (· ∈ Context.shapeVars (pre ++ (old ++ post))))
    (fun x hx => decide_eq_true (hSub x (of_decide_eq_true hx))) (pre ++ (new ++ post))
  have hPending := supply.pendingCount_mono hSub
  have := hIntro (· ∈ Context.shapeVars (pre ++ (old ++ post))) (decide_eq_true hx)
  simp only [openCount, introCount_append] at hMono ⊢
  omega

end State

end HindleyMilner
