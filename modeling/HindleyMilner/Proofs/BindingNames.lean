import HindleyMilner.Proofs.Classes.Reduction
import HindleyMilner.Proofs.Languages

/-! The solver does not look at the names of term variables. It does the same in a
context in which every binding has lost its name. -/
namespace HindleyMilner

open Context

variable {L : Language}

/-- An entry without the name of the term variable that it binds. -/
def Entry.anonymous : Entry L → Entry L
  | .bind _ scheme => .bind "" scheme
  | e => e

def Context.anonymous (ctx : Context L) : Context L := ⟨ctx.entries.map Entry.anonymous⟩

def State.anonymous (s : State L) : State L := ⟨s.supply, s.context.anonymous⟩

def Focus.anonymous (f : Focus L) : Focus L :=
  ⟨f.supply, f.below.map Entry.anonymous, f.above.map Entry.anonymous⟩

theorem anonymous_intros (deps : L.Telescope) :
    deps.intros.map Entry.anonymous = deps.intros :=
  List.map_map.trans (List.map_congr_left fun _ _ => rfl)

theorem anonymous_ofGoals (goals : List (Goal L)) :
    (goals.map Entry.ofGoal).map Entry.anonymous = goals.map Entry.ofGoal :=
  List.map_map.trans (List.map_congr_left fun _ _ => rfl)

/-- What is read off single entries without their names is read off a
context without them. -/
theorem filterMap_anonymous {β : Type} {f : Entry L → Option β}
    (hf : ∀ e : Entry L, f e.anonymous = f e) (es : List (Entry L)) :
    (es.map Entry.anonymous).filterMap f = es.filterMap f := by
  rw [List.filterMap_map]
  exact List.filterMap_congr fun e _ => hf e

theorem definitions_anonymous (es : List (Entry L)) :
    definitions (es.map Entry.anonymous) = definitions es := by
  refine filterMap_anonymous (fun e => ?_) es
  cases e <;> rfl

theorem unsolved_anonymous (es : List (Entry L)) :
    unsolved (es.map Entry.anonymous) = unsolved es := by
  refine filterMap_anonymous (fun e => ?_) es
  cases e <;> rfl

theorem decls_anonymous (ctx : Context L) : ctx.anonymous.decls = ctx.decls := by
  refine filterMap_anonymous (fun e => ?_) ctx.entries
  cases e <;> rfl

/-- The schemes of bindings stay, and all names become one. -/
theorem bindings_anonymous (es : List (Entry L)) :
    bindings (es.map Entry.anonymous) = (bindings es).map fun b => ("", b.2) := by
  rw [bindings, bindings, List.filterMap_map, List.map_reverse, List.map_filterMap]
  congr 2
  funext e
  cases e <;> rfl

/-- Substituting definitions does not look at bindings. -/
theorem apply_anonymous {α : Type} [Substitute L.Ty α] (ctx : Context L) (a : α) :
    ctx.anonymous.apply a = ctx.apply a := by
  rw [Context.apply, Context.apply, Context.anonymous, definitions_anonymous]

/-- Normalizing and forgetting names commute, since normalizing changes
definitions and forgetting changes bindings. -/
theorem normalize_anonymous (ctx : Context L) :
    ctx.anonymous.normalize = ctx.normalize.anonymous := by
  have hEntries : ∀ (defined : List (Name × L.Ty)) (es : List (Entry L)),
      normalizeEntries defined (es.map Entry.anonymous) =
        (normalizeEntries defined es).map Entry.anonymous := by
    intro defined es
    induction es generalizing defined with
    | nil => rfl
    | cons e es ih =>
        cases e with
        | define x type kind => exact congrArg (_ :: ·) (ih _)
        | _ => exact congrArg (_ :: ·) (ih defined)
  exact congrArg Context.mk (hEntries [] ctx.entries)

/-- Taking off what stands above a marker and forgetting names commute. -/
theorem skimFrom_anonymous (stack taken : List (Entry L)) :
    skimFrom (stack.map Entry.anonymous) (taken.map Entry.anonymous) =
      (skimFrom stack taken).map (Prod.map Context.anonymous (List.map Entry.anonymous)) := by
  induction stack generalizing taken with
  | nil => rfl
  | cons e stack ih =>
      cases e with
      | marker =>
          simp [skimFrom, Entry.anonymous, Except.map, Context.anonymous]
      | intro x kind => exact ih (.intro x kind :: taken)
      | define x type kind => exact ih (.define x type kind :: taken)
      | _ => rfl

theorem skim_anonymous (ctx : Context L) :
    ctx.anonymous.skim =
      ctx.skim.map (Prod.map Context.anonymous (List.map Entry.anonymous)) := by
  rw [skim, skim, Context.anonymous, ← List.map_reverse]
  exact skimFrom_anonymous _ []

namespace Focus

/-- A context that is put back together without names is the one put back
together, without names. -/
theorem anonymous_resume (f : Focus L) (emitted : List (Entry L)) :
    f.anonymous.resume (emitted.map Entry.anonymous) = (f.resume emitted).anonymous := by
  simp [resume, anonymous, State.anonymous, Context.anonymous]

theorem anonymous_lower (f : Focus L) (deps : L.Telescope) :
    (f.lower deps).anonymous = f.anonymous.lower deps := by
  simp [lower, anonymous, anonymous_intros]

/-- A step that puts some entries in place of the constraint, taken without
names. -/
theorem ok_resume_anonymous (f : Focus L) {emitted emitted' : List (Entry L)}
    (h : emitted' = emitted.map Entry.anonymous) :
    (.ok (f.anonymous.resume emitted') : Except TypeError (State L)) =
      (Except.ok (f.resume emitted)).map State.anonymous := by
  rw [h, anonymous_resume]
  rfl

/-- A computation of something else goes before a step. -/
theorem bind_anonymous {α : Type} (m : Except TypeError α)
    {step step' : α → Except TypeError (State L)}
    (h : ∀ a, step' a = (step a).map State.anonymous) :
    (m >>= step') = (m >>= step).map State.anonymous := by
  cases m with
  | error e => rfl
  | ok a => exact h a

/-- An equation between a variable and another type walks past bindings without
looking at their names. -/
theorem walk_anonymous (goal : Goal L) (f : Focus L) (deps : L.Telescope) (eq : FlexRigid L) :
    f.anonymous.walk goal deps eq = (f.walk goal deps eq).map State.anonymous := by
  obtain ⟨supply, below, above⟩ := f
  cases below with
  | nil => rfl
  | cons top below =>
      let f : Focus L := ⟨supply, below, above⟩
      simp only [walk, pop, anonymous, List.map_cons, bind, Except.bind]
      cases top with
      | intro x kind =>
          simp only [Entry.anonymous]
          split
          · split
            · rfl
            · exact ok_resume_anonymous f (by simp [anonymous_intros, Entry.anonymous])
          · split
            · exact ok_resume_anonymous f rfl
            · exact ok_resume_anonymous f rfl
      | define x type kind =>
          exact ok_resume_anonymous f (by simp [anonymous_intros, Entry.anonymous, Entry.ofGoal])
      | constraint c => rfl
      | _ => exact ok_resume_anonymous f rfl

/-- So does an equation between two variables: what it does depends on the type
variables of the entry below it, and a binding has none. -/
theorem meetVars_anonymous (f : Focus L) (a b : Name) (l r : L.Ty) :
    f.anonymous.meetVars a b l r = (f.meetVars a b l r).map State.anonymous := by
  obtain ⟨supply, below, above⟩ := f
  cases below with
  | nil => rfl
  | cons top below =>
      let f : Focus L := ⟨supply, below, above⟩
      simp only [meetVars, pop, anonymous, List.map_cons, bind, Except.bind]
      cases top with
      | intro x kind =>
          simp only [Entry.anonymous]
          split
          · exact ok_resume_anonymous f rfl
          · split
            · exact ok_resume_anonymous f rfl
            · exact ok_resume_anonymous f rfl
      | define x type kind =>
          simp only [Entry.anonymous]
          split
          · exact ok_resume_anonymous f rfl
          · exact ok_resume_anonymous f rfl
      | constraint c => rfl
      | _ => exact ok_resume_anonymous f rfl

variable [Rules L]

/-- Whether such an equation walks or is replaced is decided without
looking at the context. -/
theorem flexRigid_anonymous (f : Focus L) (deps : L.Telescope) (eq : FlexRigid L) :
    f.anonymous.flexRigid deps eq = (f.flexRigid deps eq).map State.anonymous := by
  simp only [flexRigid]
  change (Rules.flexRigid f.supply deps eq >>= _) = _
  cases Rules.flexRigid f.supply deps eq with
  | error e => rfl
  | ok made =>
      cases made with
      | none => exact walk_anonymous _ f deps eq
      | some made =>
          refine ok_resume_anonymous { f with supply := made.1 } ?_
          rw [List.map_map]
          exact List.map_congr_left fun _ _ => rfl

/-- A step of an equation gives the same result, or the same error, with and
without names. In each of its cases the entry below is looked at for its
type variables only. -/
theorem solveEq_anonymous (f : Focus L) (deps : L.Telescope) (l r : L.Ty) :
    f.anonymous.solveEq deps l r = (f.solveEq deps l r).map State.anonymous := by
  rw [solveEq, solveEq]
  split
  · exact flexRigid_anonymous f deps _
  · exact flexRigid_anonymous f deps _
  · split
    · exact ok_resume_anonymous f (anonymous_intros deps).symm
    · rw [← anonymous_lower]
      exact meetVars_anonymous _ _ _ l r
  · cases Rules.decompose l r with
    | error e => rfl
    | ok goals =>
        rw [← anonymous_lower]
        exact ok_resume_anonymous _ (anonymous_ofGoals goals).symm

end Focus

/-- The first constraint is found at the same place. -/
theorem focus?_anonymous (s : State L) :
    s.anonymous.focus? = s.focus?.map (Prod.map id Focus.anonymous) := by
  have hSplit : ∀ below es : List (Entry L),
      State.splitFirst (below.map Entry.anonymous) (es.map Entry.anonymous) =
        (State.splitFirst below es).map
          (Prod.map (List.map Entry.anonymous) (Prod.map id (List.map Entry.anonymous))) := by
    intro below es
    induction es generalizing below with
    | nil => rfl
    | cons e es ih =>
        cases e with
        | constraint c => rfl
        | _ => exact ih (_ :: below)
  have hFirst := hSplit [] s.context.entries
  rw [List.map_nil] at hFirst
  simp only [State.focus?, State.anonymous, Context.anonymous, hFirst, Option.map_map]
  rfl

theorem canStep_anonymous (s : State L) : s.anonymous.canStep = s.canStep := by
  rw [State.canStep, State.canStep, hasConstraint, hasConstraint]
  change (s.context.entries.map Entry.anonymous).any Entry.isConstraint = _
  rw [List.any_map]
  congr 1
  funext e
  cases e <;> rfl

/-- A language whose rules do not look at the names of term variables, and which
keeps all bindings while it solves constraints. -/
structure IgnoresNames (L : Language) [Rules L] : Prop where
  special : ∀ (f : Focus L) (deps : L.Telescope) (g : L.Special),
    Rules.special f.anonymous deps g = (Rules.special f deps g).map State.anonymous
  reduce : ∀ (ps : List L.Pred) (ctx : Context L),
    Rules.reduce ps ctx.anonymous = Rules.reduce ps ctx
  bindings : ∀ {s t : State L}, s.step = .ok t →
    bindings t.context.entries = bindings s.context.entries

namespace IgnoresNames

variable [Rules L] (h : IgnoresNames L)

include h

/-- A step commutes with forgetting the names of bindings. -/
theorem step (s : State L) : s.anonymous.step = s.step.map State.anonymous := by
  rw [State.step, State.step, focus?_anonymous]
  cases s.focus? with
  | none => rfl
  | some found =>
      obtain ⟨⟨deps, goal⟩, f⟩ := found
      cases goal with
      | eq l r => exact Focus.solveEq_anonymous f deps l r
      | special g => exact h.special f deps g

/-- So does a whole run, by induction on its steps. -/
theorem unify [Terminating L] (s : State L) :
    s.anonymous.unify = s.unify.map State.anonymous := by
  fun_induction State.unify s with
  | case1 s hCan t hStep ih =>
      rw [State.unify_of_canStep ((canStep_anonymous s).trans hCan), h.step, hStep]
      exact ih
  | case2 s hCan e hStep =>
      rw [State.unify_of_canStep ((canStep_anonymous s).trans hCan), h.step, hStep]
      rfl
  | case3 s hCan =>
      rw [State.unify_of_not_canStep ((canStep_anonymous s).trans (by simpa using hCan))]
      rfl

/-- Solving leaves the bindings and their names as they are. -/
theorem bindings_unify [Terminating L] {s t : State L} (hRun : s.unify = .ok t) :
    Context.bindings t.context.entries = Context.bindings s.context.entries := by
  fun_induction State.unify s with
  | case1 s hCan u hStep ih => exact (ih hRun).trans (h.bindings hStep)
  | case2 s hCan e hStep => cases hRun
  | case3 s hCan =>
      cases hRun
      rfl

/-- Generalization looks at no names of bindings. -/
theorem generalize (ctx : Context L) (above : List (Entry L)) (type : L.Qualified) :
    HindleyMilner.generalize ctx.anonymous (above.map Entry.anonymous) type =
      HindleyMilner.generalize ctx above type := by
  simp only [HindleyMilner.generalize, splitPredicates, definitions_anonymous, unsolved_anonymous,
    h.reduce]

/-- An inferred type is brought into its final form in the same way. -/
theorem resolveType (ctx : Context L) (type : L.Qualified) :
    HindleyMilner.resolveType ctx.anonymous type = HindleyMilner.resolveType ctx type := by
  simp only [HindleyMilner.resolveType, apply_anonymous, h.reduce]

end IgnoresNames

/-- Where all constraints are equations, a step keeps the fixed entries, and
with them the bindings. -/
theorem EquationsOnly.bindings_step [Rules L] [Sized L] [FreeVars L.Special] (h : EquationsOnly L)
    {s t : State L} (hStep : s.step = .ok t) :
    bindings t.context.entries = bindings s.context.entries :=
  (h.step_moves hStep).2.toExtends.bindings_eq

/-- Inference of simple types looks at no names of bindings beyond
looking variables up. -/
theorem Simple.ignoresNames : IgnoresNames Simple.language where
  special _ _ g := g.elim
  reduce _ _ := rfl
  bindings := equationsOnly.bindings_step

namespace Classes

/-- Instances are found in a context without its names. -/
theorem subgoals_anonymous (ctx : ClassContext) (p : Predicate) :
    subgoals ctx.anonymous p = subgoals ctx p := by
  rw [subgoals, subgoals, findClass, findClass, decls_anonymous]

/-- Predicates are reduced in the same way, since classes and
instances are no bindings. -/
theorem reduce_anonymous (ctx : ClassContext) (limit : Nat) (ps : List Predicate) :
    reduce ctx.anonymous limit ps = reduce ctx limit ps := by
  have hSame : Interchangeable ctx.anonymous ctx fun _ => True :=
    ⟨fun p _ => subgoals_anonymous ctx p, fun _ _ _ _ => trivial⟩
  exact hSame.reduce_eq limit fun _ _ => trivial

theorem ignoresNames : IgnoresNames language where
  special _ _ g := g.elim
  reduce ps ctx := congrArg Search.toExcept (reduce_anonymous ctx searchLimit ps)
  bindings := equationsOnly.bindings_step

end Classes

namespace Units

/-- Eliminating a variable of a unit equation puts the same entries in its
place. None of them is a binding, so forgetting names leaves them as they
are. -/
theorem eliminate_anonymous (f : Focus language) (deps : language.Telescope) (unit : Measure)
    (x : Name) (kind : Kind) :
    eliminate f.anonymous deps unit x kind =
      (eliminate f deps unit x kind).map State.anonymous := by
  rw [eliminate, eliminate]
  split
  · apply Focus.bind_anonymous
    intro solution
    exact f.ok_resume_anonymous (by simp [anonymous_intros, Entry.anonymous])
  · split
    · apply Focus.bind_anonymous
      intro quotient
      apply Focus.bind_anonymous
      intro solution
      apply Focus.bind_anonymous
      intro reduced
      refine Focus.ok_resume_anonymous { f with supply := (f.supply.draw "b").2 } ?_
      rw [List.map_append, List.map_cons, anonymous_intros]
      rfl
    · split
      · exact f.ok_resume_anonymous rfl
      · rfl

/-- A unit equation passes bindings without looking at their names. Of the other
entries it sees what it saw before, since only bindings lose a name. -/
theorem solveUnit_anonymous (f : Focus language) (deps : language.Telescope) (unit : Measure) :
    solveUnit f.anonymous deps unit = (solveUnit f deps unit).map State.anonymous := by
  rw [solveUnit, solveUnit]
  split
  · exact f.ok_resume_anonymous (anonymous_intros deps).symm
  · split
    · rfl
    · obtain ⟨supply, below, above⟩ := f
      cases below with
      | nil => rfl
      | cons top below =>
          let f : Focus language := ⟨supply, below, above⟩
          simp only [Focus.pop, Focus.anonymous, List.map_cons, bind, Except.bind]
          cases top with
          | intro x kind =>
              simp only [Entry.anonymous]
              split
              · exact f.ok_resume_anonymous rfl
              · exact eliminate_anonymous f deps unit x kind
          | define x type kind =>
              simp only [Entry.anonymous]
              split
              · exact f.ok_resume_anonymous rfl
              · apply Focus.bind_anonymous
                intro value
                apply Focus.bind_anonymous
                intro result
                refine f.ok_resume_anonymous ?_
                simp [anonymous_intros, Entry.anonymous, Entry.ofGoal]
          | constraint c => rfl
          | _ => exact f.ok_resume_anonymous rfl

/-- A step in a language with units keeps the bindings. -/
theorem bindings_step {s t : State language} (h : s.step = .ok t) :
    bindings t.context.entries = bindings s.context.entries := by
  obtain ⟨u, -, hMoves, rfl | ⟨pre, post, hMove⟩⟩ := step_stepsTo h
  · exact hMoves.toExtends.bindings_eq
  · refine Eq.trans ?_ hMoves.toExtends.bindings_eq
    simp only [bindings_append, bindings_of_fixed_nil hMove.fixed_old,
      bindings_of_fixed_nil hMove.fixed_new]

theorem ignoresNames : IgnoresNames language where
  special f deps
    | .hull _ _ => f.walk_anonymous _ deps _
    | .identity unit => solveUnit_anonymous f deps unit
  reduce _ _ := rfl
  bindings := bindings_step

end Units

end HindleyMilner
