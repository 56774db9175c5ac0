import HindleyMilner.Proofs.Classes.Clash
import HindleyMilner.Proofs.Classes.Unification

/-! The solver and unification. Both look for an assignment that makes types equal: the
solver turns equations into definitions step by step, and unification composes
substitutions. A step of the solver keeps the assignments under which the definitions and
equations of its context hold, and it fails only where there is none. So where no variable
takes constructors, both find an assignment or neither does, and what one finds is an
instance of what the other finds. -/
namespace HindleyMilner.Classes

open Context

variable {σ : Signature} {τ : Assignment Ty} {kinds : Name → Kind} {s t : ClassState}

/-- The variables of a state have the given kinds, and an assignment of types of
these kinds keeps to the definitions. -/
structure Upholds (kinds : Name → Kind) (τ : Assignment Ty) (s : ClassState) : Prop where
  fits : ∀ p ∈ declared s.context.entries, Fits τ kinds p.1 p.2
  define : ∀ x type kind, .define x type kind ∈ s.context.entries →
    (Ty.var x kind).subst τ = type.subst τ

/-- The equations of a state hold under such an assignment too. -/
structure Solution (kinds : Name → Kind) (τ : Assignment Ty) (s : ClassState) : Prop
    extends Upholds kinds τ s where
  equation : ∀ p ∈ equations s.context.entries, p.1.subst τ = p.2.subst τ

/-- A solution fits every type whose variables carry their kinds. -/
theorem Upholds.annotated (h : Upholds kinds τ s) {u : Ty} (hu : u.AnnotatedIn s) :
    u.Annotated (Fits τ kinds) := fun p hp => h.fits p (hu p hp)

theorem HasKind.over {u : Ty} {k : Kind} (h : HasKind σ u k) : u.Over σ := by
  induction h with
  | var => trivial
  | con => rfl
  | app _ _ ihf iha => exact ⟨ihf, iha⟩

/-- An equation holds if and only if the definitions and equations that a
step makes of it do. -/
theorem Effect.subst_eq_iff (hs : labelling.WellFormed s.context.entries)
    (hτ : Upholds kinds τ s) {l r : Ty} {new : List (Name × Ty × Kind)} {left : List (Ty × Ty)}
    (h : Effect s.context.entries l r new left) (hl : l.AnnotatedIn s) (hr : r.AnnotatedIn s)
    (hlOver : l.Over σ) (hrOver : r.Over σ) :
    l.subst τ = r.subst τ ↔
      (∀ d ∈ new, (Ty.var d.1 d.2.2).subst τ = d.2.1.subst τ) ∧
        ∀ p ∈ left, p.1.subst τ = p.2.subst τ := by
  induction h with
  | keep l r => simp
  | @unfold x type kind hMem l r =>
      have hKind : kind = kinds x := (hτ.fits _ (annotated_define hs hMem).1).1
      have hUnfold : ∀ {u : Ty}, u.AnnotatedIn s → (subst1 x type u).subst τ = u.subst τ :=
        fun hu => Ty.subst_subst1 hKind (hτ.define x type kind hMem) (hτ.annotated hu)
      simp [hUnfold hl, hUnfold hr]
  | @solve x k kind r hDeclared =>
      obtain rfl : k = kind := Name.eq_of_nodup hs.nodup (hl (x, k) List.mem_cons_self) hDeclared
      simp
  | drop x j k =>
      obtain rfl : j = k :=
        Name.eq_of_nodup hs.nodup (hl (x, j) List.mem_cons_self) (hr (x, k) List.mem_cons_self)
      simp
  | con c j k =>
      -- The solver compares names only, but a constructor is used at one kind.
      obtain rfl : j = k := hlOver.trans hrOver.symm
      simp
  | app f a g b => simp [Ty.subst]
  | turn _ ih =>
      rw [eq_comm]
      exact ih hr hl hrOver hlOver

/-- A step neither adds nor loses solutions. The first equation holds under an
assignment if and only if the definitions that come of it and the equations that
are left do, and nothing else is changed. -/
theorem solution_step (hs : HasKinds σ s) (h : s.Steps t) :
    Solution kinds τ s ↔ Solution kinds τ t := by
  obtain ⟨l, r, rest, new, left, hEquations, hEffect, hLeft, hDefine⟩ := step_effect h
  obtain ⟨hl, hr⟩ := annotated_first hs.wellFormed hEquations
  obtain ⟨⟨j, hj⟩, k, hk⟩ : Kinded σ (l, r) := by
    apply hs.equation
    rw [hEquations]
    exact List.mem_cons_self
  have hPerm := (equationsOnly.step_moves h.2).2.declared_perm
  constructor
  · rintro ⟨hUpholds, hEqual⟩
    rw [hEquations] at hEqual
    obtain ⟨hFirst, hRest⟩ := List.forall_mem_cons.mp hEqual
    obtain ⟨hNew, hMade⟩ :=
      (hEffect.subst_eq_iff hs.wellFormed hUpholds hl hr hj.over hk.over).mp hFirst
    refine ⟨⟨fun p hp => hUpholds.fits p (hPerm.subset hp), fun x type kind hMem => ?_⟩, ?_⟩
    · rcases (hDefine x type kind).mp hMem with hMem | hMem
      · exact hNew _ hMem
      · exact hUpholds.define x type kind hMem
    · rw [hLeft]
      exact List.forall_mem_append.mpr ⟨hMade, hRest⟩
  · rintro ⟨⟨hFits, hDefinitions⟩, hEqual⟩
    rw [hLeft] at hEqual
    obtain ⟨hMade, hRest⟩ := List.forall_mem_append.mp hEqual
    have hUpholds : Upholds kinds τ s :=
      ⟨fun p hp => hFits p (hPerm.symm.subset hp),
        fun x type kind hMem => hDefinitions x type kind ((hDefine x type kind).mpr (.inr hMem))⟩
    have hNew : ∀ d ∈ new, (Ty.var d.1 d.2.2).subst τ = d.2.1.subst τ :=
      fun d hd => hDefinitions _ _ _ ((hDefine _ _ _).mpr (.inl hd))
    have hFirst :=
      (hEffect.subst_eq_iff hs.wellFormed hUpholds hl hr hj.over hk.over).mpr ⟨hNew, hMade⟩
    refine ⟨hUpholds, ?_⟩
    rw [hEquations]
    exact List.forall_mem_cons.mpr ⟨hFirst, hRest⟩

/-- Equations that hold under no assignment. -/
inductive Refuted : Ty → Ty → Prop where
  | kinds {x : Name} {k : Kind} {r : Ty} (h : r.kind ≠ .ok k) : Refuted (.var x k) r
  | occurs {x : Name} {k : Kind} {r : Ty} (hVar : r.asVar? = none) (h : x ∈ r.freeVars) :
      Refuted (.var x k) r
  | names {a b : Name} {j k : Kind} (h : a ≠ b) : Refuted (.con a j) (.con b k)
  | shapes (c : Name) (k : Kind) (f a : Ty) : Refuted (.con c k) (.app f a)
  | turn {l r : Ty} (h : Refuted l r) : Refuted r l

/-- No assignment of types of the right kinds makes the sides of a
refuted equation equal. -/
theorem Refuted.subst_ne {l r : Ty} (h : Refuted l r) (hl : l.Annotated (Fits τ kinds))
    (hr : r.Annotated (Fits τ kinds)) : l.subst τ ≠ r.subst τ := by
  intro hEq
  induction h with
  | kinds hKind =>
      apply hKind
      rw [← Ty.kind_subst hr.respects, ← hEq, Ty.kind_subst hl.respects]
      rfl
  | occurs hVar hx => exact Ty.not_mem_of_subst_eq hEq (by simp [hVar]) hx
  | names hNe => exact hNe (Ty.con.inj hEq).1
  | shapes => cases hEq
  | turn _ ih => exact ih hr hl hEq.symm

/-- A variable fails to walk only at a type of another kind or at
one that contains it. -/
theorem Refuted.of_flexFailure {f : Focus language} {deps : language.Telescope} {x : Name}
    {k : Kind} {r : Ty} {e : TypeError} (hr : r.asVar? = none)
    (h : f.FlexFailure deps ⟨x, Ty.var x k, r⟩ e) : Refuted (.var x k) r := by
  cases h with
  | rules h =>
      refine .kinds fun hKind => ?_
      have hSame : sameKind (.var x k) r = .ok () := by
        simp [sameKind, Ty.kind, hKind, bind, Except.bind]
      simp only [Rules.flexRigid, hSame, bind, Except.bind] at h
      cases h
  | occurs h => exact .occurs hr h

/-- A step of an equation fails only if the equation is refuted: a variable
would contain itself, a constructor would be another one, or a constructor
would be an application. -/
theorem Refuted.of_failure {f : Focus language} {deps : language.Telescope} {l r : Ty}
    {e : TypeError} (h : f.EquationFailure deps l r e) : Refuted l r := by
  cases h with
  | left hl hr h =>
      cases l with
      | var x k =>
          cases hl
          exact .of_flexFailure hr h
      | _ => cases hl
  | right hl hr h =>
      cases r with
      | var x k =>
          cases hr
          exact .turn (.of_flexFailure hl h)
      | _ => cases hr
  | rigid hl hr h =>
      cases l with
      | var => cases hl
      | con a j =>
          cases r with
          | var => cases hr
          | con b k =>
              refine .names fun hSame => ?_
              simp only [Rules.decompose, decompose, if_pos hSame] at h
              cases h
          | app g b => exact .shapes a j g b
      | app g a =>
          cases r with
          | var => cases hr
          | con b k => exact .turn (.shapes b k g a)
          | app g' a' => cases h

/-- A step fails at an equation that cannot hold, and for no other reason where
variables are declared and all constraints are equations. -/
theorem step_refutes (hs : labelling.WellFormed s.context.entries)
    (hAnchored : Anchored s.context.entries) {e : TypeError} (h : s.step = .error e) :
    ∃ l r rest, equations s.context.entries = (l, r) :: rest ∧ Refuted l r := by
  obtain ⟨⟨deps, goal⟩, f, rfl, hSettled, hSolve⟩ := State.step_eq_error h
  cases goal with
  | special g => exact g.elim
  | eq l r =>
      obtain ⟨_, -, hl, hr⟩ := (labelling.scoped_append.mp hs.inScope).2.1
      have hScope : ∀ {u : Ty}, u.Annotated (Language.Telescope.Declares
          (declared f.below.reverse ++ deps)) →
          ∀ x ∈ u.freeVars, x ∈ (declared f.below.reverse ++ deps).map Prod.fst := by
        intro u hu x hx
        obtain ⟨k, hk⟩ := Ty.exists_mem_occurrences hx
        exact List.mem_map_of_mem (f := Prod.fst) (hu _ hk)
      have hFailure := Focus.EquationFailure.of_solveEq hSettled
        (List.forall_mem_append.mpr ⟨hScope hl, hScope hr⟩)
        (hAnchored _ (List.mem_append_right _ List.mem_cons_self)) hSolve
      refine ⟨l, r, equations f.above, ?_, .of_failure hFailure⟩
      rw [Focus.resume, equations_append, equations_of_settled hSettled]
      rfl

namespace FirstOrderKinds

variable (hs : FirstOrderKinds σ s)

include hs

/-- A run that succeeds ends without equations, in a context with
the same solutions. -/
theorem unify_eq_ok (hRun : s.unify = .ok t) :
    HasKinds σ t ∧ Settled t.context.entries ∧
      (declared t.context.entries).Perm (declared s.context.entries) ∧
      ∀ kinds τ, Solution kinds τ s ↔ Solution kinds τ t := by
  fun_induction State.unify s with
  | case1 s hCan u hStep ih =>
      have hSteps : s.Steps u := ⟨hCan, hStep⟩
      obtain ⟨hKinds, hSettled, hPerm, hSame⟩ := ih (hs.step hSteps) hRun
      refine ⟨hKinds, hSettled, hPerm.trans (equationsOnly.step_moves hStep).2.declared_perm, ?_⟩
      exact fun kinds τ => (solution_step hs.hasKinds hSteps).trans (hSame kinds τ)
  | case2 s hCan e hStep => cases hRun
  | case3 s hCan =>
      cases hRun
      exact ⟨hs.hasKinds, State.settled_of_not_canStep hCan, .refl _, fun _ _ => .rfl⟩

/-- A run fails only if there is no solution. The states on the way have the
same solutions, and at the last one an equation is refuted. -/
theorem not_solution (hAnchored : Anchored s.context.entries) {e : TypeError}
    (hRun : s.unify = .error e) : ¬Solution kinds τ s := by
  fun_induction State.unify s with
  | case1 s hCan u hStep ih =>
      have hMoves := (equationsOnly.step_moves hStep).2
      rw [solution_step hs.hasKinds ⟨hCan, hStep⟩]
      exact ih (hs.step ⟨hCan, hStep⟩) (hMoves.anchored hAnchored) hRun
  | case2 s hCan err hStep =>
      obtain ⟨l, r, rest, hEquations, hRefuted⟩ :=
        step_refutes hs.hasKinds.wellFormed hAnchored hStep
      obtain ⟨hl, hr⟩ := annotated_first hs.hasKinds.wellFormed hEquations
      rintro ⟨hUpholds, hEqual⟩
      rw [hEquations] at hEqual
      exact hRefuted.subst_ne (hUpholds.annotated hl) (hUpholds.annotated hr)
        (hEqual _ List.mem_cons_self)
  | case3 s hCan => cases hRun

end FirstOrderKinds

/-- What definitions put for the variables of the given kinds. -/
def readOff (defs : List (Name × Ty)) (kinds : Name → Kind) : Assignment Ty := fun x =>
  some (unwind (L := language) defs (.var x (kinds x)))

/-- What the definitions put for the variables of a type is what
expanding the type gives. -/
theorem Ty.subst_readOff (defs : List (Name × Ty)) {u : Ty} (hu : u.Annotated (Carries kinds)) :
    u.subst (readOff defs kinds) = unwind (L := language) defs u := by
  induction u with
  | var x k =>
      rw [show k = kinds x from hu (x, k) List.mem_cons_self]
      rfl
  | con c k => exact (unwind_of_not_mem (List.forall_mem_nil _)).symm
  | app f a ihf iha =>
      obtain ⟨hf, ha⟩ := annotated_app.mp hu
      rw [unwind_app, ← ihf hf, ← iha ha]
      rfl

/-- A variable and its definition come to the same, as nothing that they
mention is defined later. -/
theorem unwind_define {es : List (Entry language)} (hs : labelling.WellFormed es) {x : Name}
    {type : Ty} {kind : Kind} (hMem : .define x type kind ∈ es) :
    unwind (L := language) (definitions es) (Ty.var x kind) =
      unwind (L := language) (definitions es) type := by
  obtain ⟨pre, post, rfl⟩ := List.append_of_mem hMem
  have hNodup : (x :: ((declared pre).map Prod.fst ++ (declared post).map Prod.fst)).Nodup := by
    have hAll := hs.nodup
    rw [declared_append, List.map_append] at hAll
    exact List.nodup_middle.mp hAll
  rw [List.nodup_cons, List.mem_append, not_or, List.nodup_append'] at hNodup
  obtain ⟨⟨hPre, hPost⟩, -, -, hDisjoint⟩ := hNodup
  have hType : ∀ y ∈ type.freeVars, y ∈ (declared pre).map Prod.fst := by
    intro y hy
    obtain ⟨k, hk⟩ := Ty.exists_mem_occurrences hy
    exact List.mem_map_of_mem (f := Prod.fst) ((labelling.scoped_append.mp hs.inScope).2.1 _ hk)
  have hUnwind : ∀ u : Ty, (∀ y ∈ u.freeVars, y ∉ (declared post).map Prod.fst) →
      unwind (L := language) (definitions (pre ++ .define x type kind :: post)) u =
        unwind (L := language) (definitions pre) (subst1 x type u) := by
    intro u hu
    have hLater : unwind (L := language) (definitions post) u = u :=
      Ty.unwind_of_not_mem fun y hy hDefined => hu y hy (mem_declared_of_definitions hDefined)
    rw [definitions, List.filterMap_append, unwind, List.foldr_append]
    change unwind (L := language) (definitions pre)
      (subst1 x type (unwind (L := language) (definitions post) u)) = _
    rw [hLater]
  rw [hUnwind (.var x kind) (List.forall_mem_singleton.mpr hPost),
    hUnwind type fun y hy => hDisjoint (hType y hy),
    Ty.subst1_of_not_mem fun hx => hPre (hType x hx)]
  simp [subst1, HindleyMilner.subst, Ty.subst, Assignment.single]

/-- A context without equations is solved by what its definitions put for its
variables, one after the other, and that fits the kinds of the variables. -/
theorem HasKinds.solution_readOff (hs : HasKinds σ s) (hSettled : Settled s.context.entries)
    (hKinds : ∀ p ∈ declared s.context.entries, p.2 = kinds p.1) :
    Solution kinds (readOff (definitions s.context.entries) kinds) s := by
  have hCarries : ∀ {u : Ty}, u.AnnotatedIn s → u.Annotated (Carries kinds) :=
    fun hu p hp => hKinds p (hu p hp)
  have hVar : ∀ {p : Name × Kind}, p ∈ declared s.context.entries →
      (Ty.var p.1 p.2).AnnotatedIn s := fun hp => List.forall_mem_singleton.mpr hp
  refine ⟨⟨fun p hp => ⟨hKinds p hp, ?_⟩, fun x type kind hMem => ?_⟩, ?_⟩
  · rintro u ⟨⟩
    rw [← hKinds p hp]
    have hDefs := kind_of_definition hs.wellFormed hs.define (List.Subset.refl _)
    exact (HasKind.unwind hs.wellFormed.nodup hDefs (hVar hp) (.var p.1 p.2)).1.kind_eq
  · obtain ⟨hDeclared, hType⟩ := annotated_define hs.wellFormed hMem
    rw [Ty.subst_readOff _ (hCarries (hVar hDeclared)), Ty.subst_readOff _ (hCarries hType)]
    exact unwind_define hs.wellFormed hMem
  · rw [equations_of_settled hSettled]
    exact List.forall_mem_nil _

/-- Every other solution is an instance of it, because putting the definitions
in first makes no difference where they hold. -/
theorem Upholds.subst_unwind (hτ : Upholds kinds τ s) (hs : labelling.WellFormed s.context.entries)
    {u : Ty} (hu : u.AnnotatedIn s) :
    (unwind (L := language) (definitions s.context.entries) u).subst τ = u.subst τ := by
  have hAll : ∀ defs ⊆ definitions s.context.entries,
      (unwind (L := language) defs u).AnnotatedIn s ∧
        (unwind (L := language) defs u).subst τ = u.subst τ := by
    intro defs hDefs
    induction defs with
    | nil => exact ⟨hu, rfl⟩
    | cons d defs ih =>
        obtain ⟨hd, hRest⟩ := List.cons_subset.mp hDefs
        obtain ⟨hAnnotated, hSame⟩ := ih hRest
        obtain ⟨kind, hDefine⟩ := mem_definitions.mp hd
        obtain ⟨hDeclared, hType⟩ := annotated_define hs hDefine
        refine ⟨hType.subst1 hAnnotated, ?_⟩
        exact (Ty.subst_subst1 (hτ.fits _ hDeclared).1 (hτ.define _ _ _ hDefine)
          (hτ.annotated hAnnotated)).trans hSame
  exact (hAll _ (List.Subset.refl _)).2

def kindsOf (vars : language.Telescope) : Name → Kind := fun x => (vars.lookup x).getD .data

theorem kindsOf_of_mem {vars : language.Telescope} (hNodup : (vars.map Prod.fst).Nodup)
    {p : Name × Kind} (hp : p ∈ vars) : p.2 = kindsOf vars p.1 := by
  rw [kindsOf, Name.lookup_of_nodup hNodup hp]
  rfl

/-- A state that asks for the equality of two types. -/
def equating (supply : Supply) (vars : language.Telescope) (l r : Ty) : ClassState :=
  ⟨supply, ⟨vars.intros ++ [.ofGoal (.eq l r)]⟩⟩

/-- What is put for some variables is an instance of something else that is put
for them, by types of the kinds of the variables. -/
def InstanceOn (vars : language.Telescope) (special general : Ty → Ty) : Prop :=
  ∃ τ : Assignment Ty, (∀ p ∈ vars, ∀ u, τ p.1 = some u → u.kind = .ok p.2) ∧
    ∀ p ∈ vars, special (.var p.1 p.2) = (general (.var p.1 p.2)).subst τ

section

variable (supply : Supply) {vars : language.Telescope} {l r : Ty}

theorem declared_equating : declared (equating supply vars l r).context.entries = vars := by
  rw [equating, declared_append, declared_intros]
  exact List.append_nil vars

/-- The state that a run starts from asks for the one equation. -/
theorem equations_equating :
    equations (equating supply vars l r).context.entries = [(l, r)] := by
  rw [equating, equations_append, equations_of_settled (settled_intros vars)]
  rfl

theorem define_not_mem_equating {x : Name} {type : Ty} {kind : Kind} :
    .define x type kind ∉ (equating supply vars l r).context.entries := by
  intro hMem
  rcases List.mem_append.mp hMem with hMem | hMem
  · exact define_not_mem_intros vars hMem
  · cases List.mem_singleton.mp hMem

theorem anchored_equating : Anchored (equating supply vars l r).context.entries :=
  (anchored_append (L := language)).mpr
    ⟨anchored_of_settled (settled_intros vars), anchored_ofGoal _⟩

/-- Its solutions are the assignments that fit all variables and
make both sides equal. -/
theorem solution_equating : Solution kinds τ (equating supply vars l r) ↔
    (∀ p ∈ vars, Fits τ kinds p.1 p.2) ∧ l.subst τ = r.subst τ := by
  constructor
  · rintro ⟨⟨hFits, -⟩, hEqual⟩
    rw [declared_equating] at hFits
    rw [equations_equating] at hEqual
    exact ⟨hFits, hEqual _ List.mem_cons_self⟩
  · rintro ⟨hFits, hEqual⟩
    refine ⟨⟨?_, fun x type kind hMem => absurd hMem (define_not_mem_equating supply)⟩, ?_⟩
    · rw [declared_equating]
      exact hFits
    · rw [equations_equating]
      exact List.forall_mem_singleton.mpr hEqual

/-- It satisfies the invariant of runs without clashes if both sides have one
kind and no variable takes constructors. -/
theorem firstOrderKinds_equating (hNodup : (vars.map Prod.fst).Nodup)
    (hVars : l.occurrences ++ r.occurrences ⊆ vars) {k : Kind} (hl : HasKind σ l k)
    (hr : HasKind σ r k) (hFirst : ∀ p ∈ vars, ∃ n, p.2 = .constructor n) :
    FirstOrderKinds σ (equating supply vars l r) := by
  have hAgrees : ∀ p ∈ equations (equating supply vars l r).context.entries, Agrees σ p := by
    rw [equations_equating]
    exact List.forall_mem_singleton.mpr ⟨k, hl, hr⟩
  have hScope : [] ++ declared vars.intros ++ [] = vars := by
    rw [declared_intros, List.append_nil, List.nil_append]
  obtain ⟨hlVars, hrVars⟩ := List.append_subset.mp hVars
  refine .of_agrees ⟨⟨?_, ?_⟩, ?_, fun p hp => (hAgrees p hp).kinded⟩ hAgrees ?_
  · refine labelling.scoped_append.mpr ⟨labelling.scoped_intros _ _, ⟨k, trivial, ?_, ?_⟩, trivial⟩
    · exact fun p hp => hScope.symm ▸ hlVars hp
    · exact fun p hp => hScope.symm ▸ hrVars hp
  · rw [declared_equating]
    exact hNodup
  · exact fun x type kind hMem => absurd hMem (define_not_mem_equating supply)
  · rw [FirstOrder, declared_equating]
    exact hFirst

/-- What unification finds is a solution of the context that asks for the
equality of the two types. -/
theorem solution_of_unify (hNodup : (vars.map Prod.fst).Nodup)
    (hVars : l.occurrences ++ r.occurrences ⊆ vars) (hl : l.Over σ) (hr : r.Over σ) {s : Subst}
    (hs : l.unify r = some s) :
    Solution (kindsOf vars) s.toAssignment (equating supply vars l r) := by
  have hFinds := finds_of_unify hs
  obtain ⟨hlVars, hrVars⟩ := List.append_subset.mp hVars
  have hlCarries : l.Annotated (Carries (kindsOf vars)) :=
    fun p hp => kindsOf_of_mem hNodup (hlVars hp)
  have hrCarries : r.Annotated (Carries (kindsOf vars)) :=
    fun p hp => kindsOf_of_mem hNodup (hrVars hp)
  refine (solution_equating supply).mpr ⟨fun p hp => ⟨kindsOf_of_mem hNodup hp, fun u hu => ?_⟩, ?_⟩
  · rw [kindsOf_of_mem hNodup hp]
    exact hFinds.kind_of_image hlCarries hrCarries hu
  · exact hFinds.subst_eq hlCarries hrCarries hl hr

/-- What is read off the solved context is a solution. -/
theorem solution_of_run (hNodup : (vars.map Prod.fst).Nodup)
    (hs : FirstOrderKinds σ (equating supply vars l r))
    (hRun : (equating supply vars l r).unify = .ok t) :
    Solution (kindsOf vars) (readOff (definitions t.context.entries) (kindsOf vars))
      (equating supply vars l r) := by
  obtain ⟨hSolved, hSettled, hPerm, hSame⟩ := hs.unify_eq_ok hRun
  refine (hSame _ _).mpr (hSolved.solution_readOff hSettled fun p hp => ?_)
  have hMem := hPerm.subset hp
  rw [declared_equating] at hMem
  exact kindsOf_of_mem hNodup hMem

/-- Unification finds something if there is a solution. -/
theorem isSome_unify_of_solution (hVars : l.occurrences ++ r.occurrences ⊆ vars)
    (h : Solution kinds τ (equating supply vars l r)) : (l.unify r).isSome = true := by
  obtain ⟨hFits, hEqual⟩ := (solution_equating supply).mp h
  obtain ⟨hlVars, hrVars⟩ := List.append_subset.mp hVars
  have hSolved : Equations.SolvedBy τ kinds [(l, r)] :=
    Equations.solvedBy_cons.mpr ⟨⟨hEqual, fun p hp => hFits p (hlVars hp),
      fun p hp => hFits p (hrVars hp)⟩, List.forall_mem_nil _, List.forall_mem_nil _⟩
  exact hSolved.isSome_unify

/-- Every solution is an instance of what is read off the solved context. -/
theorem InstanceOn.of_run (hs : FirstOrderKinds σ (equating supply vars l r))
    (hRun : (equating supply vars l r).unify = .ok t)
    (h : Solution kinds τ (equating supply vars l r)) :
    InstanceOn vars (Ty.subst τ) t.context.apply := by
  obtain ⟨hSolved, -, hPerm, hSame⟩ := hs.unify_eq_ok hRun
  obtain ⟨hFits, -⟩ := (solution_equating supply).mp h
  refine ⟨τ, fun p hp => (hFits p hp).2, fun p hp => ?_⟩
  have hDeclared : (Ty.var p.1 p.2).AnnotatedIn t := by
    refine List.forall_mem_singleton.mpr (hPerm.symm.subset ?_)
    rw [declared_equating]
    exact hp
  exact (((hSame _ _).mp h).subst_unwind hSolved.wellFormed hDeclared).symm

/-- Every solution is an instance of what unification finds. -/
theorem InstanceOn.of_unify (hVars : l.occurrences ++ r.occurrences ⊆ vars) {s : Subst}
    (hs : l.unify r = some s) (h : Solution kinds τ (equating supply vars l r)) :
    InstanceOn vars (Ty.subst τ) s.apply := by
  obtain ⟨hFits, hEqual⟩ := (solution_equating supply).mp h
  obtain ⟨hlVars, hrVars⟩ := List.append_subset.mp hVars
  refine ⟨τ, fun p hp => (hFits p hp).2, fun p hp => ?_⟩
  have hVar : (Ty.var p.1 p.2).Annotated (Fits τ kinds) :=
    List.forall_mem_singleton.mpr (hFits p hp)
  exact ((finds_of_unify hs).absorbed (fun q hq => hFits q (hlVars hq))
    (fun q hq => hFits q (hrVars hq)) hEqual hVar).symm

end

/-- The solver and unification agree on types of one kind in which no
variable takes constructors: whatever the order in which the variables are
introduced, the solver succeeds if and only if unification does, and then
the types that the solved context and the substitution put for the variables
are instances of each other. -/
theorem unify_equating_agrees {k : Kind} {l r : Ty} (hl : HasKind σ l k) (hr : HasKind σ r k)
    {vars : language.Telescope} (hNodup : (vars.map Prod.fst).Nodup)
    (hVars : l.occurrences ++ r.occurrences ⊆ vars)
    (hFirst : ∀ p ∈ vars, ∃ n, p.2 = .constructor n) (supply : Supply) :
    ((∃ t, (equating supply vars l r).unify = .ok t) ↔ (l.unify r).isSome) ∧
    ∀ t s, (equating supply vars l r).unify = .ok t → l.unify r = some s →
      InstanceOn vars s.apply t.context.apply ∧ InstanceOn vars t.context.apply s.apply := by
  have hStart := firstOrderKinds_equating supply hNodup hVars hl hr hFirst
  constructor
  · constructor
    · rintro ⟨t, ht⟩
      exact isSome_unify_of_solution supply hVars (solution_of_run supply hNodup hStart ht)
    · intro hSome
      obtain ⟨s, hs⟩ := Option.isSome_iff_exists.mp hSome
      have hSolution := solution_of_unify supply hNodup hVars hl.over hr.over hs
      cases hRun : (equating supply vars l r).unify with
      | ok t => exact ⟨t, rfl⟩
      | error e => exact absurd hSolution (hStart.not_solution (anchored_equating supply) hRun)
  · intro t s ht hs
    refine ⟨.of_run supply hStart ht (solution_of_unify supply hNodup hVars hl.over hr.over hs), ?_⟩
    obtain ⟨τ, hKinds, hInstance⟩ :=
      InstanceOn.of_unify supply hVars hs (solution_of_run supply hNodup hStart ht)
    refine ⟨τ, hKinds, fun p hp => Eq.trans ?_ (hInstance p hp)⟩
    have hCarries : (Ty.var p.1 p.2).Annotated (Carries (kindsOf vars)) :=
      List.forall_mem_singleton.mpr (kindsOf_of_mem hNodup hp)
    exact (Ty.subst_readOff _ hCarries).symm

def pairOf (a b : Ty) : Ty := .app (.app (.con "pair" (.constructor 2)) a) b

def pairSignature : Signature := fun c => if c = "pair" then .constructor 2 else listSignature c

/-- Variables that are introduced in another order than they are equated in. -/
def chainVars : language.Telescope := [("c", .data), ("a", .data), ("b", .data)]

def chainLeft : Ty := pairOf (.var "a" .data) (.var "b" .data)

def chainRight : Ty := pairOf (.var "b" .data) (listOf (.var "c" .data))

/-- Where a variable is equated with another and that one with a list, the
solver and unification put lists for both. -/
theorem unify_equating_agrees_chain :
    ∃ t s, (equating .empty chainVars chainLeft chainRight).unify = .ok t ∧
      chainLeft.unify chainRight = some s ∧
      t.context.apply (Ty.var "a" .data) = listOf (.var "c" .data) ∧
      InstanceOn chainVars s.apply t.context.apply ∧
      InstanceOn chainVars t.context.apply s.apply := by
  have hPair : HasKind pairSignature (.con "pair" (.constructor 2)) (.constructor 2) := .con "pair"
  have hList : HasKind pairSignature (.con "list" (.constructor 1)) (.constructor 1) := .con "list"
  have hLeft : HasKind pairSignature chainLeft .data := .app (.app hPair (.var _ _)) (.var _ _)
  have hRight : HasKind pairSignature chainRight .data :=
    .app (.app hPair (.var _ _)) (.app hList (.var _ _))
  have hFirst : ∀ p ∈ chainVars, ∃ n, p.2 = .constructor n := by
    intro p hp
    refine ⟨0, ?_⟩
    revert p
    decide
  obtain ⟨hIff, hInstances⟩ :=
    unify_equating_agrees hLeft hRight (by decide) (by decide) hFirst .empty
  have hRun : (equating .empty chainVars chainLeft chainRight).unify.map
      (fun t => t.context.apply (Ty.var "a" .data)) = .ok (listOf (.var "c" .data)) := by
    apply State.map_unify_of_unifyWithin? (n := 20)
    decide +kernel
  obtain ⟨t, ht, hApply⟩ := map_eq_ok.mp hRun
  obtain ⟨s, hs⟩ := Option.isSome_iff_exists.mp (hIff.mp ⟨t, ht⟩)
  exact ⟨t, s, ht, hs, hApply, hInstances t s ht hs⟩

end HindleyMilner.Classes
