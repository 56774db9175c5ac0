import HindleyMilner.Proofs.Classes.Reduction
import HindleyMilner.Proofs.Evaluation

/-! Where the variables of an inferred type come from. Those of its head are variables
of the final context. A predicate may also mention a variable that a let has quantified:
the let leaves out of its scheme every predicate that mentions a variable from outside,
and such a predicate may mention quantified variables as well. -/
namespace HindleyMilner

open Context

variable {L : Language}

/-- Where a let generalizes. -/
structure LetPoint (L : Language) where
  /-- The context below the marker. -/
  context : Context L
  /-- The variables above it. -/
  above : List (Entry L)
  /-- The type of the bound term. -/
  type : L.Qualified

variable [Rules L]

/-- Synthesis of a term from a state comes to a let and generalizes there. -/
inductive Visits (solve : State L → Except TypeError (State L)) :
    Term → State L → LetPoint L → Prop where
  | here {x : Name} {bound body : Term} {s : State L} {b : Synthesis L} {ctx : Context L}
      {above : List (Entry L)} (hBound : Synthesizes solve bound (s.push .marker) b)
      (hSkim : b.state.context.skim = .ok (ctx, above)) :
      Visits solve (.letIn x bound body) s ⟨ctx, above, b.type⟩
  | bound {x : Name} {bound body : Term} {s : State L} {g : LetPoint L}
      (h : Visits solve bound (s.push .marker) g) : Visits solve (.letIn x bound body) s g
  | body {x : Name} {bound body : Term} {s : State L} {b : Synthesis L} {ctx : Context L}
      {above : List (Entry L)} {made : Generalized L} {g : LetPoint L}
      (hBound : Synthesizes solve bound (s.push .marker) b)
      (hSkim : b.state.context.skim = .ok (ctx, above))
      (hGeneralize : generalize ctx above b.type = .ok made)
      (h : Visits solve body (State.push ⟨b.state.supply, ctx⟩ (.bind x made.scheme)) g) :
      Visits solve (.letIn x bound body) s g
  | lam {x : Name} {body : Term} {s : State L} {g : LetPoint L}
      (h : Visits solve body (s.enterLam x) g) : Visits solve (.lam x body) s g
  | function {function argument : Term} {s : State L} {g : LetPoint L}
      (h : Visits solve function s g) : Visits solve (.app function argument) s g
  | argument {function argument : Term} {s : State L} {f : Synthesis L} {g : LetPoint L}
      (hFunction : Synthesizes solve function s f) (h : Visits solve argument f.state g) :
      Visits solve (.app function argument) s g

namespace LetPoint

def quantified (g : LetPoint L) : List Name := (unsolved g.above).map Prod.fst

/-- A quantified variable leaves the let in a predicate that is not
part of its scheme. -/
def Escapes (g : LetPoint L) (x : Name) : Prop :=
  ∃ made, generalize g.context g.above g.type = .ok made ∧
    x ∈ made.scheme.quantified.map Prod.fst ∧ ∃ p ∈ made.deferred, x ∈ freeVars p

/-- One of the predicates of the bound term mentions both a variable that the
let quantifies and one that it does not. -/
def Mixed (g : LetPoint L) : Prop :=
  ∃ reduced, Rules.reduce (unwind (definitions g.above) g.type).predicates g.context = .ok reduced ∧
    ∃ p ∈ reduced, (∃ x ∈ freeVars p, x ∈ g.quantified) ∧ ∃ y ∈ freeVars p, y ∉ g.quantified

end LetPoint

/-- What generalization makes of the reduced predicates: those that it retains
mention quantified variables only, and those that it defers are the others. -/
theorem generalize_predicates {ctx : Context L} {above : List (Entry L)} {type : L.Qualified}
    {made : Generalized L} (h : generalize ctx above type = .ok made) :
    ∃ reduced, Rules.reduce (unwind (definitions above) type).predicates ctx = .ok reduced ∧
      (∀ p, p ∈ made.deferred ↔
        p ∈ reduced ∧ ∃ y ∈ freeVars p, y ∉ (unsolved above).map Prod.fst) ∧
      ∀ p ∈ made.scheme.body.predicates,
        p ∈ reduced ∧ ∀ y ∈ freeVars p, y ∈ (unsolved above).map Prod.fst := by
  rw [generalize] at h
  obtain ⟨split, hSplit, h⟩ := bind_eq_ok.mp h
  cases h
  rw [splitPredicates] at hSplit
  obtain ⟨reduced, hReduce, hSplit⟩ := bind_eq_ok.mp hSplit
  cases hSplit
  refine ⟨reduced, hReduce, fun p => ?_, fun p hp => ?_⟩
  · simp
  · simpa using hp

/-- Quantified variables escape where a predicate mixes them with
others, and nowhere else. -/
theorem LetPoint.exists_escapes_iff {g : LetPoint L} : (∃ x, g.Escapes x) ↔ g.Mixed := by
  constructor
  · rintro ⟨x, made, hMade, hx, p, hp, hFree⟩
    obtain ⟨reduced, hReduce, hDeferred, -⟩ := generalize_predicates hMade
    obtain ⟨hReduced, hOuter⟩ := (hDeferred p).mp hp
    rw [(generalize_eq_ok hMade).1] at hx
    exact ⟨reduced, hReduce, p, hReduced, ⟨x, hFree, hx⟩, hOuter⟩
  · rintro ⟨reduced, hReduce, p, hp, ⟨x, hFree, hx⟩, hOuter⟩
    have hMade : ∃ made, generalize g.context g.above g.type = .ok made := by
      simp only [generalize, splitPredicates, hReduce]
      exact ⟨_, rfl⟩
    obtain ⟨made, hMade⟩ := hMade
    obtain ⟨reduced', hReduce', hDeferred, -⟩ := generalize_predicates hMade
    rw [hReduce] at hReduce'
    cases hReduce'
    refine ⟨x, made, hMade, ?_, p, (hDeferred p).mpr ⟨hp, hOuter⟩, hFree⟩
    rw [(generalize_eq_ok hMade).1]
    exact hx

/-- Whether a context has an unsolved variable of the given name. -/
def Context.Introduces (ctx : Context L) (x : Name) : Prop := ∃ k, .intro x k ∈ ctx.entries

omit [Rules L] in
/-- The variables that a context introduces are its unsolved ones. -/
theorem Context.introduces_iff {ctx : Context L} {x : Name} :
    ctx.Introduces x ↔ x ∈ (unsolved ctx.entries).map Prod.fst := by
  constructor
  · rintro ⟨k, hk⟩
    have hMem : (x, k) ∈ unsolved ctx.entries := List.mem_filterMap.mpr ⟨_, hk, rfl⟩
    exact List.mem_map_of_mem (f := Prod.fst) hMem
  · intro h
    obtain ⟨p, hp, rfl⟩ := List.mem_map.mp h
    obtain ⟨e, he, hIntro⟩ := List.mem_filterMap.mp hp
    cases e with
    | intro x kind =>
        cases hIntro
        exact ⟨kind, he⟩
    | _ => cases hIntro

omit [Rules L] in
theorem unwind_list {α : Type} [Substitute L.Ty α] (defs : List (Name × L.Ty)) (as : List α) :
    unwind defs as = as.map (unwind defs) := by
  induction defs with
  | nil => exact (List.map_id _).symm
  | cons d defs ih =>
      change (unwind defs as).map (subst (.single d.1 d.2)) = _
      rw [ih, List.map_map]
      rfl

omit [Rules L] in
theorem predicates_unwind (defs : List (Name × L.Ty)) (q : L.Qualified) :
    (unwind defs q).predicates = unwind defs q.predicates := by
  induction defs with
  | nil => rfl
  | cons d defs ih =>
      change subst (.single d.1 d.2) (unwind defs q).predicates = _
      rw [ih]
      rfl

omit [Rules L] in
/-- The declarations are among the fixed entries. -/
theorem decls_of_fixed_eq {ctx ctx' : Context L} (h : fixed ctx'.entries = fixed ctx.entries) :
    ctx'.decls = ctx.decls := by
  have hFixed : ∀ es : List (Entry L), decls ⟨fixed es⟩ = decls ⟨es⟩ := by
    intro es
    induction es with
    | nil => rfl
    | cons e es ih =>
        cases e with
        | declare d => exact congrArg (d :: ·) ih
        | _ => exact ih
  exact (hFixed ctx'.entries).symm.trans ((congrArg (fun es => decls ⟨es⟩) h).trans
    (hFixed ctx.entries))

omit [Rules L] in
/-- Expanding definitions changes no declaration. -/
theorem decls_normalize (ctx : Context L) : ctx.normalize.decls = ctx.decls := by
  have hEntries : ∀ (defined : List (Name × L.Ty)) (es : List (Entry L)),
      decls ⟨normalizeEntries defined es⟩ = decls ⟨es⟩ := by
    intro defined es
    induction es generalizing defined with
    | nil => rfl
    | cons e es ih =>
        cases e with
        | declare d => exact congrArg (d :: ·) (ih defined)
        | define x type kind => exact ih _
        | _ => exact ih defined
  exact hEntries [] ctx.entries

namespace Classes

/-- A variable of what is put for a variable of a type, or one that is not
replaced, is a variable of the result. -/
theorem Ty.mem_freeVars_subst_of {σ : Assignment Ty} {t : Ty} {x y : Name} (hx : x ∈ t.freeVars)
    (h : (∃ u, σ x = some u ∧ y ∈ u.freeVars) ∨ (σ x = none ∧ y = x)) :
    y ∈ (t.subst σ).freeVars := by
  induction t with
  | var z k =>
      rw [List.mem_singleton.mp hx] at h
      rw [subst]
      rcases h with ⟨u, hu, hy⟩ | ⟨hNone, rfl⟩
      · rw [hu]
        exact hy
      · rw [hNone]
        exact List.mem_singleton.mpr rfl
  | con c k => cases hx
  | app f a ihf iha =>
      rcases List.mem_append.mp hx with hx | hx
      · exact List.mem_append_left _ (ihf hx)
      · exact List.mem_append_right _ (iha hx)

/-- A variable of the result comes from one variable of the type. -/
theorem Ty.mem_freeVars_unwind {defs : List (Name × Ty)} {t : Ty} {x : Name}
    (h : x ∈ (unwind (L := language) defs t).freeVars) :
    ∃ y ∈ t.freeVars, ∀ k, x ∈ (unwind (L := language) defs (var y k)).freeVars := by
  induction defs generalizing x with
  | nil => exact ⟨x, h, fun k => List.mem_singleton.mpr rfl⟩
  | cons d defs ih =>
      obtain ⟨z, hz, hSource⟩ := Ty.mem_freeVars_subst h
      obtain ⟨y, hy, hVar⟩ := ih hz
      exact ⟨y, hy, fun k => Ty.mem_freeVars_subst_of (hVar k) hSource⟩

/-- A type that mentions no defined variable is left as it is. -/
theorem Ty.unwind_of_not_mem {defs : List (Name × Ty)} {t : Ty}
    (h : ∀ x ∈ t.freeVars, x ∉ defs.map Prod.fst) : unwind (L := language) defs t = t := by
  induction defs with
  | nil => rfl
  | cons d defs ih =>
      change subst1 d.1 d.2 (unwind (L := language) defs t) = t
      rw [ih fun x hx hMem => h x hx (List.mem_cons_of_mem _ hMem)]
      exact Ty.subst1_of_not_mem fun hx => h d.1 hx List.mem_cons_self

theorem argument_unwind (defs : List (Name × Ty)) (p : Predicate) :
    (unwind (L := language) defs p).argument = unwind (L := language) defs p.argument := by
  induction defs with
  | nil => rfl
  | cons d defs ih =>
      change (unwind (L := language) defs p).argument.subst _ = _
      rw [ih]
      rfl

/-- Where definitions are substituted in predicates, what remains of declared
variables are those without a definition. Other variables stay. -/
theorem mem_freeVars_unwind_predicates {K : language.Telescope} {es : List (Entry language)}
    (hSettled : Settled es) (hScoped : (Discipline.scoping language).Scoped K es)
    (hNodup : ((K ++ declared es).map Prod.fst).Nodup) {ps : List Predicate} {x : Name}
    (h : x ∈ freeVars (unwind (L := language) (definitions es) ps)) :
    x ∈ (K ++ unsolved es).map Prod.fst ∨
      (x ∈ freeVars ps ∧ x ∉ (K ++ declared es).map Prod.fst) := by
  rw [unwind_list] at h
  obtain ⟨p', hp', hx⟩ := List.mem_flatMap.mp h
  obtain ⟨p, hp, rfl⟩ := List.mem_map.mp hp'
  change x ∈ (unwind (L := language) (definitions es) p).argument.freeVars at hx
  rw [argument_unwind] at hx
  obtain ⟨y, hy, hVar⟩ := Ty.mem_freeVars_unwind hx
  by_cases hDeclared : y ∈ (K ++ declared es).map Prod.fst
  · left
    have hTy : (Discipline.scoping language).Ty
        (Language.Telescope.Declares (K ++ declared es)) (Ty.var y .data) .data := by
      intro z hz
      rw [List.mem_singleton.mp hz]
      exact mem_names_iff.mp hDeclared
    exact mem_names_iff.mpr
      ((Discipline.scoping language).ty_unwind hSettled hScoped hNodup hTy x (hVar .data))
  · right
    have hDefinitions : y ∉ (definitions es).map Prod.fst := by
      intro hMem
      apply hDeclared
      rw [List.map_append]
      exact List.mem_append_right _ (mem_declared_of_definitions hMem)
    have hEq := hVar .data
    have hFree : ∀ z ∈ (Ty.var y .data).freeVars, z ∉ (definitions es).map Prod.fst :=
      List.forall_mem_singleton.mpr hDefinitions
    rw [Ty.unwind_of_not_mem hFree] at hEq
    rw [List.mem_singleton.mp hEq]
    exact ⟨List.mem_flatMap.mpr ⟨p, hp, hy⟩, hDeclared⟩

def Leaks (e : Term) (s : ClassState) (x : Name) : Prop :=
  ∃ g, Visits State.unify e s g ∧ g.Escapes x

namespace Leaks

variable {x y : Name} {e e' : Term} {s : ClassState}

/-- A variable that escapes in the body of a function escapes from the function. -/
theorem lam (h : Leaks e (s.enterLam x) y) : Leaks (.lam x e) s y := by
  obtain ⟨g, hg, hEscapes⟩ := h
  exact ⟨g, .lam hg, hEscapes⟩

theorem function (h : Leaks e s y) : Leaks (.app e e') s y := by
  obtain ⟨g, hg, hEscapes⟩ := h
  exact ⟨g, .function hg, hEscapes⟩

/-- What escapes in the argument of an application does so in the state that
the function leaves. -/
theorem argument {f : Synthesis language} (hFunction : Synthesizes State.unify e s f)
    (h : Leaks e' f.state y) : Leaks (.app e e') s y := by
  obtain ⟨g, hg, hEscapes⟩ := h
  exact ⟨g, .argument hFunction hg, hEscapes⟩

theorem bound (h : Leaks e (s.push .marker) y) : Leaks (.letIn x e e') s y := by
  obtain ⟨g, hg, hEscapes⟩ := h
  exact ⟨g, .bound hg, hEscapes⟩

/-- What escapes in the body of a let does so in a context that binds the
generalized scheme. -/
theorem body {b : Synthesis language} {ctx : ClassContext} {above : List (Entry language)}
    {made : Generalized language} (hBound : Synthesizes State.unify e (s.push .marker) b)
    (hSkim : b.state.context.skim = .ok (ctx, above))
    (hMade : generalize ctx above b.type = .ok made)
    (h : Leaks e' (State.push ⟨b.state.supply, ctx⟩ (.bind x made.scheme)) y) :
    Leaks (.letIn x e e') s y := by
  obtain ⟨g, hg, hEscapes⟩ := h
  exact ⟨g, .body hBound hSkim hMade hg, hEscapes⟩

end Leaks

/-- The predicates of an instance of a scheme are in scope if the scheme is:
each of their variables is free in the scheme or is one of the new ones that the
instance introduces. -/
theorem mem_freeVars_instantiate {scheme : language.Scheme} {supply : Supply} {x : Name}
    (h : x ∈ freeVars (scheme.instantiate supply "t" language.var).body.predicates) :
    x ∈ freeVars scheme ∨ x ∈ (scheme.instantiate supply "t" language.var).intros.map Prod.fst := by
  obtain ⟨p', hp', hx⟩ := List.mem_flatMap.mp h
  obtain ⟨p, hp, rfl⟩ := List.mem_map.mp hp'
  obtain ⟨y, hy, hSource⟩ := Ty.mem_freeVars_subst hx
  change (∃ u, scheme.renaming supply y = some u ∧ x ∈ u.freeVars) ∨
    (scheme.renaming supply y = none ∧ x = y) at hSource
  by_cases hQuantified : y ∈ scheme.quantified.map Prod.fst
  · right
    obtain ⟨k, hk⟩ := scheme.exists_lookup hQuantified
    obtain ⟨new, hNew, hRenaming⟩ := Scheme.renaming_of_lookup supply hk
    rw [hRenaming] at hSource
    rcases hSource with ⟨u, hu, hx⟩ | ⟨hNone, -⟩
    · cases hu
      rw [List.mem_singleton.mp hx]
      exact List.mem_map_of_mem (f := Prod.fst) hNew.mem_intros
    · cases hNone
  · rw [Scheme.renaming_of_not_mem hQuantified] at hSource
    rcases hSource with ⟨u, hu, -⟩ | ⟨-, rfl⟩
    · cases hu
    · left
      apply List.mem_filter.mpr
      refine ⟨List.mem_append_right _ (List.mem_flatMap.mpr ⟨p, hp, hy⟩), ?_⟩
      exact decide_eq_true hQuantified

/-- Only declarations add to the declared classes. -/
theorem decls_push (ctx : ClassContext) {e : Entry language} (he : ∀ d, e ≠ .declare d) :
    (ctx.push e).decls = ctx.decls := by
  cases e with
  | declare d => exact absurd rfl (he d)
  | _ => simp [decls, push]

/-- What inference needs of a state. -/
structure Ready (classes : List ClassDecl) (s : ClassState) : Prop where
  good : (Discipline.scoping language).Good s
  settled : Settled s.context.entries
  schemes : SchemesInScope s.context.entries
  decls_eq : s.context.decls = classes

namespace Ready

variable {classes : List ClassDecl} {s : ClassState} (h : Ready classes s)

include h

/-- Synthesis from a ready state keeps its context well-formed. -/
theorem sound {e : Term} {r : Synthesis language} (hRun : Synthesizes State.unify e s r) :
    Sound (Discipline.scoping language) (Model.onePoint language) e s r :=
  hRun.sound (Model.compatible_onePoint (L := language) _)
    (fun hGood hSolve => stepsRefine_scoping.unify hGood hSolve) h.good h.settled

/-- Synthesis leaves a state ready for what comes next. -/
theorem synthesized {e : Term} {r : Synthesis language} (hRun : Synthesizes State.unify e s r) :
    Ready classes r.state where
  good := (h.sound hRun).refines.good
  settled := (h.sound hRun).settled
  schemes := (h.sound hRun).refines.toExtends.schemesInScope h.schemes
  decls_eq := (decls_of_fixed_eq (h.sound hRun).refines.toExtends.fixed_eq).trans h.decls_eq

theorem marker : Ready classes (s.push .marker) where
  good := h.good.push_marker
  settled := State.settled_marker h.settled
  schemes := h.schemes.push fun _ _ hBind => nomatch hBind
  decls_eq := (decls_push (e := .marker) _ fun _ hDeclare => nomatch hDeclare).trans h.decls_eq

/-- The parameter of a function is bound to a declared variable, so all schemes
are still in scope. -/
theorem enterLam (x : Name) : Ready classes (s.enterLam x) where
  good := h.good.enterLam x
  settled := State.settled_enterLam h.settled x
  schemes := by
    refine (h.schemes.push ?_).push ?_
    · exact fun _ _ hBind => nomatch hBind
    · intro y scheme hBind z hz
      cases hBind
      obtain ⟨hz, -⟩ := List.mem_filter.mp hz
      rcases List.mem_append.mp hz with hz | hz
      · rw [List.mem_singleton.mp hz, declared_append, List.map_append]
        exact List.mem_append_right _ List.mem_cons_self
      · cases hz
  decls_eq := by
    refine (decls_push _ ?_).trans ((decls_push _ ?_).trans h.decls_eq)
    · exact fun _ hDeclare => nomatch hDeclare
    · exact fun _ hDeclare => nomatch hDeclare

/-- The scheme of a let has no free variable that is not declared below it. Its
type has none by the discipline of scopes, and the predicates that it retains
mention quantified variables only. -/
theorem bind {b : Synthesis language} {pre post : List (Entry language)}
    (hMarked : Generalizes (Discipline.scoping language) s b pre post) {made : Generalized language}
    (hMade : generalize ⟨pre⟩ post b.type = .ok made) (x : Name) :
    Ready classes (State.push ⟨b.state.supply, ⟨pre⟩⟩ (.bind x made.scheme)) where
  good := hMarked.good_bind hMade x
  settled := hMarked.settled_bind
  schemes := by
    refine (hMarked.toExtends.schemesInScope h.schemes).push fun y scheme hBind z hz => ?_
    cases hBind
    obtain ⟨hz, hFree⟩ := List.mem_filter.mp hz
    have hNot := of_decide_eq_true hFree
    rcases List.mem_append.mp hz with hz | hz
    · obtain ⟨k, hLookup | ⟨-, hDeclared⟩⟩ := hMarked.scheme hMade z hz
      · have hMem := List.mem_reverse.mp (Name.mem_of_lookup hLookup)
        exact absurd (List.mem_map_of_mem (f := Prod.fst) hMem) hNot
      · exact List.mem_map_of_mem (f := Prod.fst) hDeclared
    · obtain ⟨p, hp, hz⟩ := List.mem_flatMap.mp hz
      obtain ⟨reduced, -, -, hRetained⟩ := generalize_predicates hMade
      have hMem := (hRetained p hp).2 z hz
      rw [← (generalize_eq_ok hMade).1] at hMem
      exact absurd hMem hNot
  decls_eq := by
    refine (decls_push (e := .bind x made.scheme) _ fun _ hDeclare => nomatch hDeclare).trans ?_
    exact (decls_of_fixed_eq hMarked.toExtends.fixed_eq).trans h.decls_eq

end Ready

/-- What a let leaves to the enclosing term mentions variables that are
declared below it, variables that escape from it, and those that have strayed
from the bound term. -/
theorem mem_deferred {classes : List ClassDecl} {s : ClassState} (h : Ready classes s) {x : Name}
    {bound body : Term} {b : Synthesis language} {pre post : List (Entry language)}
    {made : Generalized language} (hBound : Synthesizes State.unify bound (s.push .marker) b)
    (hSkim : b.state.context.skim = .ok (⟨pre⟩, post))
    (hMarked : Generalizes (Discipline.scoping language) s b pre post)
    (hMade : generalize ⟨pre⟩ post b.type = .ok made)
    (hPredicates : ∀ y ∈ freeVars b.type.predicates,
      y ∈ (declared b.state.context.entries).map Prod.fst ∨
        Leaks bound (s.push .marker) y ∨ Dangling classes y)
    {y : Name} (hy : y ∈ freeVars made.deferred) :
    y ∈ (declared pre).map Prod.fst ∨ Leaks (.letIn x bound body) s y ∨ Dangling classes y := by
  obtain ⟨reduced, hReduce, hDeferred, -⟩ := generalize_predicates hMade
  obtain ⟨p, hp, hFree⟩ := List.mem_flatMap.mp hy
  have hReduced : y ∈ freeVars reduced := List.mem_flatMap.mpr ⟨p, ((hDeferred p).mp hp).1, hFree⟩
  have hDecls : decls ⟨pre⟩ = classes :=
    (decls_of_fixed_eq hMarked.toExtends.fixed_eq).trans h.decls_eq
  have hUnwound := mem_freeVars_reduce hReduce hReduced
  rw [predicates_unwind, hDecls] at hUnwound
  have hScoped :=
    ((Discipline.scoping language).scoped_append.mp hMarked.good.wellFormed.inScope).2.2
  change (Discipline.scoping language).Scoped (declared pre ++ []) post at hScoped
  rw [List.append_nil] at hScoped
  have hPost : Settled post := fun e he =>
    (settled_append.mp hMarked.settled).2 e (List.mem_cons_of_mem _ he)
  rcases hUnwound with hUnwound | hDangling
  · rcases mem_freeVars_unwind_predicates hPost hScoped hMarked.nodup hUnwound with
      hDeclared | ⟨hSource, hNot⟩
    · rw [List.map_append, List.mem_append] at hDeclared
      refine hDeclared.imp_right fun hQuantified => ?_
      refine .inl ⟨_, .here hBound hSkim, made, hMade, ?_, p, hp, hFree⟩
      rw [(generalize_eq_ok hMade).1]
      exact hQuantified
    · have hUndeclared : y ∉ (declared b.state.context.entries).map Prod.fst := by
        rw [hMarked.entries_eq, declared_append]
        exact hNot
      exact .inr (((hPredicates y hSource).resolve_left hUndeclared).imp_left .bound)
  · exact .inr (.inr hDangling)

/-- Every variable of a predicate is declared, unless it has escaped from a let
or an instance leaves it open. -/
theorem mem_predicates_of_synthesizes {classes : List ClassDecl} {e : Term} {s : ClassState}
    {r : Synthesis language} (h : Synthesizes State.unify e s r) (hs : Ready classes s) :
    ∀ x ∈ freeVars r.type.predicates,
      x ∈ (declared r.state.context.entries).map Prod.fst ∨ Leaks e s x ∨ Dangling classes x := by
  induction h with
  | @var x s scheme hLookup =>
      intro y hy
      left
      change y ∈ (declared (State.pushAll _ _).context.entries).map Prod.fst
      rw [State.pushAll_eq, declared_append, declared_intros, List.map_append, List.mem_append]
      refine (mem_freeVars_instantiate hy).imp_left fun hFree => ?_
      rw [lookup_eq_bindings] at hLookup
      exact hs.schemes.mem_declared (Name.mem_of_lookup hLookup) y hFree
  | @lam x body s inner removed hBody hRemove ih =>
      obtain ⟨rest, hRest, hRemoves⟩ := ((hs.enterLam x).sound hBody).removes
      rw [hRest] at hRemove
      cases hRemove
      intro y hy
      rw [hRemoves.declared_eq]
      exact (ih (hs.enterLam x) y hy).imp_right (Or.imp_left .lam)
  | @app function argument s solved f a hFunction hArgument hSolve ihFunction ihArgument =>
      have hReady := hs.synthesized hFunction
      have hSoundA := hReady.sound hArgument
      obtain ⟨hRefines, -⟩ :=
        stepsRefine_scoping.unify ((hs.sound hFunction).good_equate hSoundA) hSolve
      have hSolved := hRefines.of_equate.toExtends.declared_subset
      intro x hx
      change x ∈ freeVars (f.type.predicates ++ a.type.predicates) at hx
      rw [freeVars_append] at hx
      rcases List.mem_append.mp hx with hx | hx
      · have hKept := List.Subset.trans hSoundA.refines.toExtends.declared_subset hSolved
        exact (ihFunction hs x hx).imp (List.map_subset _ hKept ·) (Or.imp_left .function)
      · exact (ihArgument hReady x hx).imp (List.map_subset _ hSolved ·)
          (Or.imp_left (.argument hFunction))
  | @letIn x bound body s b inner skimmed made removed hBound hSkim hGeneralize hBody hRemove
      ihBound ihBody =>
      obtain ⟨pre, post, hPost, hMarked⟩ := (hs.marker.sound hBound).generalizes
      have hEntries := hSkim
      rw [hPost] at hSkim
      cases hSkim
      have hReady := hs.bind hMarked hGeneralize x
      obtain ⟨rest, hRest, hRemoves⟩ := (hReady.sound hBody).removes
      rw [hRest] at hRemove
      cases hRemove
      intro y hy
      change y ∈ freeVars (made.deferred ++ inner.type.predicates) at hy
      rw [freeVars_append] at hy
      rcases List.mem_append.mp hy with hy | hy
      · have hKept := hRemoves.refines.toExtends.declared_subset
        exact (mem_deferred hs hBound hEntries hMarked hGeneralize (ihBound hs.marker) hy).imp_left
          (List.map_subset _ hKept ·)
      · rw [hRemoves.declared_eq]
        exact (ihBody hReady y hy).imp_right (Or.imp_left (.body hBound hEntries hGeneralize))
  | float hLiteral => cases hLiteral

/-- The variables of an inferred type are unsolved variables of the final
context. A predicate may also mention what an instance leaves open, and
variables that escape from a let, which they do where a predicate mixes
quantified variables with others. -/
theorem mem_freeVars_of_infer {s : ClassState} (hs : s.WellFormed)
    (hSettled : Settled s.context.entries) {e : Term} {q : QualifiedType} (h : infer s e = .ok q) :
    ∃ r, Synthesizes State.unify e s r ∧
      resolveType r.state.context.normalize r.type = .ok q ∧
      (∀ x ∈ freeVars q.head, r.state.context.normalize.Introduces x) ∧
      (∀ p ∈ q.predicates, ∀ x ∈ freeVars p, r.state.context.normalize.Introduces x ∨
        (∃ g, Visits State.unify e s g ∧ g.Escapes x) ∨ Dangling s.context.decls x) ∧
      ∀ g, Visits State.unify e s g → ((∃ x, g.Escapes x) ↔ g.Mixed) := by
  obtain ⟨r, hRun, hResolve⟩ := infer_eq_ok.mp h
  have hReady : Ready s.context.decls s := ⟨hs.good, hSettled, hs.schemesInScope, rfl⟩
  have hSound := hReady.sound hRun
  have hWellFormed :=
    (Discipline.scoping language).wellFormed_normalize hSound.refines.good.wellFormed
  have hNormal : Settled r.state.context.normalize.entries :=
    settled_normalizeEntries hSound.settled
  have hDeclared : declared r.state.context.normalize.entries =
      declared r.state.context.entries := declared_normalizeEntries _ _
  obtain ⟨head, hFinish, hRest⟩ := bind_eq_ok.mp hResolve
  obtain ⟨predicates, hReduce, hq⟩ := bind_eq_ok.mp hRest
  cases hFinish
  cases hq
  refine ⟨r, hRun, hResolve, fun x hx => ?_, fun p hp x hx => ?_, fun g _ =>
    LetPoint.exists_escapes_iff⟩
  · rw [introduces_iff]
    have hTy := hSound.ty
    rw [← hDeclared] at hTy
    exact mem_names_iff.mpr ((Discipline.scoping language).ty_unwind (K := []) hNormal
      hWellFormed.inScope hWellFormed.nodup hTy x hx)
  · rw [introduces_iff]
    have hMem : x ∈ freeVars predicates := List.mem_flatMap.mpr ⟨p, hp, hx⟩
    rcases mem_freeVars_reduce hReduce hMem with hMem | hDangling
    · rcases mem_freeVars_unwind_predicates (K := []) hNormal hWellFormed.inScope
        hWellFormed.nodup hMem with hUnsolved | ⟨hSource, hNot⟩
      · exact .inl hUnsolved
      · rw [List.nil_append, hDeclared] at hNot
        exact .inr ((mem_predicates_of_synthesizes hRun hReady x hSource).resolve_left hNot)
    · rw [decls_normalize, (hReady.synthesized hRun).decls_eq] at hDangling
      exact .inr (.inr hDangling)

/-- A class without instances, and a function whose type mixes two quantified
variables in a predicate. -/
def mixingState : ClassState :=
  let m := Ty.var "m" (.constructor 1)
  let b := Ty.var "b" .data
  let int := Ty.con "int" .data
  ⟨.empty, ⟨[.declare ⟨"C", []⟩, .bind "h" ⟨[("m", .constructor 1), ("b", .data)],
    ⟨[⟨"C", .app m b⟩], .fn (.app m int) (.fn b int)⟩⟩]⟩⟩

/-- A use of the function in a let, where one of the two variables
comes from outside. -/
def mixingTerm : Term := .lam "x" (.letIn "y" (.app (.var "h") (.var "x")) (.var "y"))

/-- The other variable is quantified by the let, and the inferred type mentions
it in a predicate although nothing introduces it any more. -/
theorem mem_freeVars_of_infer_mixing :
    ∃ q, infer mixingState mixingTerm = .ok q ∧
      q.predicates = [⟨"C", .app (.var "t1" (.constructor 1)) (.var "t2" .data)⟩] ∧
      ∃ r, Synthesizes State.unify mixingTerm mixingState r ∧
        ¬ r.state.context.normalize.Introduces "t2" ∧
        ∃ g, Visits State.unify mixingTerm mixingState g ∧ g.Escapes "t2" ∧ g.Mixed := by
  have hRun : (inferWithin 20 mixingState mixingTerm).map (fun q => q.predicates) =
      .ok [⟨"C", .app (.var "t1" (.constructor 1)) (.var "t2" .data)⟩] := by decide +kernel
  obtain ⟨q, hInfer, hPredicates⟩ := map_eq_ok.mp hRun
  have hSettled : Settled mixingState.context.entries := by
    simp [Settled, mixingState, Entry.isConstraint]
  have hInfer := infer_of_inferWithin hInfer
  obtain ⟨r, hr, -, -, hMem, hMixed⟩ := mem_freeVars_of_infer (by decide +kernel) hSettled hInfer
  have hUnsolved := hr.eq_of_synthesizeWithin (n := 20)
    (f := fun r => (unsolved r.state.context.normalize.entries).map Prod.fst) (b := ["t1", "t4"])
    (by decide +kernel)
  have hNot : ¬ r.state.context.normalize.Introduces "t2" := by
    rw [introduces_iff, hUnsolved]
    decide
  refine ⟨q, hInfer, hPredicates, r, hr, hNot, ?_⟩
  rw [hPredicates] at hMem
  rcases hMem _ List.mem_cons_self "t2" (by decide) with h | ⟨g, hg, hEscapes⟩ | hDangling
  · exact absurd h hNot
  · exact ⟨g, hg, hEscapes, (hMixed g hg).mp ⟨_, hEscapes⟩⟩
  · obtain ⟨d, hd, scheme, hScheme, -⟩ := hDangling
    rw [List.mem_singleton.mp hd] at hScheme
    cases hScheme

end Classes

end HindleyMilner
