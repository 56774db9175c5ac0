import HindleyMilner.Proofs.Classes.Consequence
import HindleyMilner.Proofs.Classes.Overlap

/-! What predicates mean. A predicate follows from the instances alone if an instance
applies to it and all that the instance needs follows in turn. Reducing predicates keeps
what follows, also after variables are replaced, since no other instance applies then. -/
namespace HindleyMilner.Classes

open Context

/-- A predicate follows from the instances. -/
inductive Derivable (ctx : ClassContext) : Predicate → Prop where
  | step {p : Predicate} {goals : List Predicate} (hGoals : subgoals ctx p = .ok (some goals))
      (h : ∀ g ∈ goals, Derivable ctx g) : Derivable ctx p

/-- It does if and only if what an instance needs for it does. -/
theorem derivable_iff_subgoals {ctx : ClassContext} {p : Predicate} {goals : List Predicate}
    (h : subgoals ctx p = .ok (some goals)) : Derivable ctx p ↔ ∀ g ∈ goals, Derivable ctx g := by
  refine ⟨?_, .step h⟩
  rintro ⟨hGoals, hAll⟩
  rw [h] at hGoals
  cases hGoals
  exact hAll

/-- A property of predicates of some sort holds if and only if it holds of what
an instance needs for them. -/
structure Transported (ctx : ClassContext) (Suits P : Predicate → Prop) : Prop where
  suits : ∀ {p : Predicate} {goals : List Predicate}, Suits p → subgoals ctx p = .ok (some goals) →
    ∀ g ∈ goals, Suits g
  iff : ∀ {p : Predicate} {goals : List Predicate}, Suits p → subgoals ctx p = .ok (some goals) →
    (P p ↔ ∀ g ∈ goals, P g)

namespace Transported

variable {ctx : ClassContext} {Suits P : Predicate → Prop} (hP : Transported ctx Suits P)

include hP

/-- What is entailed has the property if all that is given has it. -/
theorem of_entailsAll {given : List Predicate} {limit : Nat} {ps : List Predicate}
    (h : entailsAll ctx given limit ps = .ok true) (hSuits : ∀ p ∈ ps, Suits p)
    (hGiven : ∀ p ∈ given, P p) : ∀ p ∈ ps, P p := by
  intro p hp
  have hFollows := Follows.of_entailsAll h p hp
  replace hp := hSuits p hp
  induction hFollows with
  | given hMem => exact hGiven _ hMem
  | step hGoals _ ih =>
      exact (hP.iff hp hGoals).mpr fun g hg => ih g hg (hP.suits hp hGoals g hg)

/-- Bringing predicates to head normal form keeps the property. The induction is
on the search: a predicate is put aside if it is in head normal form, and
otherwise replaced by what an instance needs for it, which has the property if
and only if it does. -/
theorem normalizeFrom_iff {limit : Nat} {found pending normal : List Predicate}
    (h : normalizeFrom ctx limit found pending = .ok normal)
    (hSuits : ∀ p ∈ found ++ pending, Suits p) :
    (∀ p ∈ normal, Suits p) ∧ ((∀ p ∈ found ++ pending, P p) ↔ ∀ p ∈ normal, P p) := by
  refine ⟨forall_normalizeFrom hP.suits h hSuits, ?_⟩
  fun_induction normalizeFrom ctx limit found pending with
  | case1 limit found =>
      cases h
      simp only [List.append_nil, List.mem_reverse]
  | case2 => cases h
  | case3 limit found p pending hNormal ih =>
      have hMiddle : ∀ q, q ∈ found ++ p :: pending ↔ q ∈ (p :: found) ++ pending :=
        fun q => List.perm_middle.mem_iff
      simp only [hMiddle] at hSuits ⊢
      exact ih h hSuits
  | case4 => cases h
  | case5 => cases h
  | case6 limit found p pending hNormal goals hGoals ih =>
      obtain ⟨hFound, hPending⟩ := List.forall_mem_append.mp hSuits
      obtain ⟨hp, hRest⟩ := List.forall_mem_cons.mp hPending
      have hNext := ih h (List.forall_mem_append.mpr ⟨hFound,
        List.forall_mem_append.mpr ⟨hP.suits hp hGoals, hRest⟩⟩)
      simp only [List.forall_mem_append, List.forall_mem_cons, hP.iff hp hGoals] at hNext ⊢
      exact hNext

/-- Dropping what the others entail keeps the property. A predicate is dropped
only if those kept and those yet to be looked at entail it, and these have the
property by what is assumed. -/
theorem simplifyFrom_iff {limit : Nat} {kept ps simple : List Predicate}
    (h : simplifyFrom ctx limit kept ps = .ok simple) (hSuits : ∀ p ∈ kept ++ ps, Suits p) :
    (∀ p ∈ kept ++ ps, P p) ↔ ∀ p ∈ simple, P p := by
  induction ps generalizing kept with
  | nil =>
      cases h
      rw [List.append_nil]
  | cons p ps ih =>
      obtain ⟨implied, hImplied, h⟩ := bind_eq_ok.mp h
      cases implied with
      | false =>
          have hNext := ih h (by simpa using hSuits)
          rwa [List.append_assoc] at hNext
      | true =>
          obtain ⟨hKept, hPs⟩ := List.forall_mem_append.mp hSuits
          obtain ⟨hp, hRest⟩ := List.forall_mem_cons.mp hPs
          rw [← ih h (List.forall_mem_append.mpr ⟨hKept, hRest⟩)]
          simp only [List.forall_mem_append, List.forall_mem_cons]
          refine ⟨fun hAll => ⟨hAll.1, hAll.2.2⟩, fun hAll => ⟨hAll.1, ?_, hAll.2⟩⟩
          have hGiven := List.forall_mem_append.mpr ⟨hAll.2, hAll.1⟩
          exact hP.of_entailsAll hImplied (List.forall_mem_singleton.mpr hp) hGiven p
            List.mem_cons_self

/-- So reducing does. -/
theorem reduce_iff {limit : Nat} {ps reduced : List Predicate}
    (h : reduce ctx limit ps = .ok reduced) (hSuits : ∀ p ∈ ps, Suits p) :
    (∀ p ∈ ps, P p) ↔ ∀ p ∈ reduced, P p := by
  obtain ⟨normal, hNormal, hSimple⟩ := bind_eq_ok.mp h
  obtain ⟨hNormalSuits, hIff⟩ := hP.normalizeFrom_iff hNormal hSuits
  exact hIff.trans (hP.simplifyFrom_iff hSimple hNormalSuits)

end Transported

/-- What follows from nothing follows from the instances alone. -/
theorem derivable_iff_follows {ctx : ClassContext} {p : Predicate} :
    Derivable ctx p ↔ Follows ctx [] p := by
  constructor
  · intro h
    induction h with
    | step hGoals _ ih => exact .step hGoals ih
  · intro h
    induction h with
    | given hMem => cases hMem
    | step hGoals _ ih => exact .step hGoals ih

/-- So what the instances derive is what a search finds out without anything
given. -/
theorem derivable_iff_entails {ctx : ClassContext} {p : Predicate} :
    Derivable ctx p ↔ ∃ limit, entails ctx [] limit p = .ok true :=
  derivable_iff_follows.trans follows_iff_entails

namespace Ty

/-- Replacing first by one assignment and then by another. -/
theorem subst_subst_of_bound {τ ρ ρ' : Assignment Ty} {t : Ty}
    (h : ∀ x ∈ t.freeVars, ∃ u, ρ x = some u ∧ ρ' x = some (u.subst τ)) :
    (t.subst ρ).subst τ = t.subst ρ' := by
  induction t with
  | var x k =>
      obtain ⟨u, hu, hu'⟩ := h x List.mem_cons_self
      rw [subst, subst, hu, hu']
      rfl
  | con c k => rfl
  | app f a ihf iha =>
      rw [subst, subst, subst, ihf fun x hx => h x (List.mem_append_left _ hx),
        iha fun x hx => h x (List.mem_append_right _ hx)]

/-- A type over a signature whose variables are replaced by types over it, of
the kinds they carry. -/
structure Replaceable (σ : Signature) (τ : Assignment Ty) (t : Ty) : Prop where
  typeOver : t.Over σ
  images : t.Annotated fun x k => ∀ u, τ x = some u → u.kind = .ok k ∧ u.Over σ

namespace Replaceable

variable {σ : Signature} {τ : Assignment Ty}

/-- The parts of a replaceable type are replaceable. -/
theorem parts (f a : Ty) (h : Replaceable σ τ (app f a)) :
    Replaceable σ τ f ∧ Replaceable σ τ a := by
  obtain ⟨hf, ha⟩ := annotated_app.mp h.images
  exact ⟨⟨h.typeOver.1, hf⟩, h.typeOver.2, ha⟩

theorem respects {t : Ty} (h : Replaceable σ τ t) : Respects τ t :=
  fun p hp u hu => (h.images p hp u hu).1

/-- A replaceable type stays one over the signature. -/
theorem over_subst {t : Ty} (h : Replaceable σ τ t) : (t.subst τ).Over σ := by
  refine Ty.over_subst h.typeOver fun x hx u hu => ?_
  obtain ⟨k, hk⟩ := exists_mem_occurrences hx
  exact (h.images (x, k) hk u hu).2

/-- So is a type whose variables are all bound to such types. -/
theorem of_bound {ρ : Assignment Ty} {t : Ty} (hOver : t.Over σ)
    (hBound : ∀ x ∈ t.freeVars, ∃ u, ρ x = some u)
    (h : ∀ x u, ρ x = some u → Replaceable σ τ u) : Replaceable σ τ (t.subst ρ) where
  typeOver := Ty.over_subst hOver fun x _ u hu => (h x u hu).typeOver
  images := by
    refine Annotated.subst (K := fun _ _ => True) (fun x k hx _ => ?_) fun _ _ => trivial
    obtain ⟨u, hu⟩ := hBound x hx
    exact .inl ⟨u, hu, (h x u hu).images⟩

end Replaceable

end Ty

/-- An instance whose predicates are on variables of its head only. -/
def Confined (scheme : TypeScheme) : Prop :=
  ∀ p ∈ scheme.body.predicates, freeVars p ⊆ freeVars scheme.body.head

instance (scheme : TypeScheme) : Decidable (Confined scheme) :=
  inferInstanceAs (Decidable (∀ p ∈ scheme.body.predicates, ∀ x ∈ freeVars p, x ∈ _))

variable {σ : Signature} {τ : Assignment Ty}

/-- What an instance needs is replaceable too. -/
theorem replaceable_instanceGoals {t : Ty} {scheme : TypeScheme} {goals : List Predicate}
    (h : instanceGoals t scheme = some goals) (hScheme : Regular σ scheme)
    (hConfined : Confined scheme) (ht : t.Replaceable σ τ) :
    ∀ g ∈ goals, g.argument.Replaceable σ τ := by
  obtain ⟨m, hm, rfl⟩ := Option.map_eq_some_iff.mp h
  intro g hg
  obtain ⟨p, hp, rfl⟩ := List.mem_map.mp hg
  have hOver := hScheme.typesOver _ (List.mem_cons_of_mem _ (List.mem_map_of_mem hp))
  have hMatched := Ty.matched_of_matchWith hm
  exact .of_bound hOver (fun x hx => hMatched.binds.1 x (hConfined p hp hx))
    fun x u hu => hMatched.of_target Ty.Replaceable.parts ht hu

/-- An instance that applies to a type applies when variables are replaced, and
needs the same with these variables replaced. -/
theorem instanceGoals_subst {t : Ty} {scheme : TypeScheme} {goals : List Predicate}
    (h : instanceGoals t scheme = some goals) (hConfined : Confined scheme)
    (hτ : Ty.Respects τ t) :
    instanceGoals (t.subst τ) scheme = some (goals.map (subst τ)) := by
  obtain ⟨m, hm, rfl⟩ := Option.map_eq_some_iff.mp h
  have hMatched := Ty.matched_of_matchWith hm
  obtain ⟨m', hm', hMap⟩ := hMatched.subst hτ
  rw [instanceGoals, hm'.matchWith, Option.map_some, List.map_map]
  refine congrArg some (List.map_congr_left fun p hp => ?_)
  refine congrArg (Predicate.mk p.className) (Ty.subst_subst_of_bound fun x hx => ?_).symm
  obtain ⟨u, hu⟩ := hMatched.binds.1 x (hConfined p hp hx)
  exact ⟨u, hu, by rw [hMap, hu, Option.map_some]⟩

/-- The instance that applies is the same when variables are replaced. It still
matches, and an earlier one that matches only now would apply to one type with
it, which no two instances of a class do. -/
theorem subgoals_subst {ctx : ClassContext} (hClasses : Consistent σ ctx.decls)
    (hConfined : ∀ d ∈ ctx.decls, ∀ scheme ∈ d.instances, Confined scheme)
    {p : Predicate} {goals : List Predicate}
    (h : subgoals ctx p = .ok (some goals)) (hp : p.argument.Replaceable σ τ) :
    (∀ g ∈ goals, g.argument.Replaceable σ τ) ∧
      subgoals ctx (subst τ p) = .ok (some (goals.map (subst τ))) := by
  obtain ⟨d, hClass, hFound⟩ := exists_class_of_subgoals h
  have hd : d ∈ ctx.decls := List.mem_of_find?_eq_some hClass
  obtain ⟨before, scheme, after, hInstances, hGoals, -⟩ :=
    List.findSome?_eq_some_iff.mp hFound.symm
  have hMem : scheme ∈ d.instances := by
    rw [hInstances]
    exact List.mem_append_right _ List.mem_cons_self
  have hScheme := hConfined d hd scheme hMem
  obtain ⟨hRegular, hApart⟩ := hClasses.coherent d hd
  have hGoals' := instanceGoals_subst hGoals hScheme hp.respects
  refine ⟨replaceable_instanceGoals hGoals (hRegular scheme hMem) hScheme hp, ?_⟩
  have hClass' : findClass ctx (subst τ p).className = some d := hClass
  rw [subgoals, hClass']
  refine congrArg Except.ok (List.findSome?_eq_some_iff.mpr
    ⟨before, scheme, after, hInstances, hGoals', fun earlier hEarlier => ?_⟩)
  -- An earlier instance that applies now would overlap with the one that applied.
  have hMatches : ∀ {scheme : TypeScheme} {goals : List Predicate},
      instanceGoals (p.argument.subst τ) scheme = some goals →
      (scheme.body.head.matchWith (p.argument.subst τ)).isSome = true := by
    intro scheme goals hSome
    rw [← Option.isSome_map, ← instanceGoals, hSome]
    rfl
  rw [hInstances] at hApart
  have hDisjoint := (List.pairwise_append.mp hApart).2.2 earlier hEarlier scheme
    List.mem_cons_self
  by_contra hSome
  obtain ⟨goals', hSome⟩ := Option.ne_none_iff_exists'.mp hSome
  exact hDisjoint ⟨_, hp.over_subst, hMatches hSome, hMatches hGoals'⟩

/-- So whether a predicate with its variables replaced follows is
carried over by instances. -/
theorem transported_subst {ctx : ClassContext} (hClasses : Consistent σ ctx.decls)
    (hConfined : ∀ d ∈ ctx.decls, ∀ scheme ∈ d.instances, Confined scheme) :
    Transported ctx (fun p => p.argument.Replaceable σ τ) fun p => Derivable ctx (subst τ p) where
  suits hp h := (subgoals_subst hClasses hConfined h hp).1
  iff hp h := by
    rw [derivable_iff_subgoals (subgoals_subst hClasses hConfined h hp).2, List.forall_mem_map]

/-- Reducing predicates keeps what they mean. However variables are replaced by
types of the kinds they carry, the predicates follow from the instances if and
only if the reduced ones do, where every constructor is used at one kind. -/
theorem reduce_entails_iff {s : ClassState} (hState : Registered σ s)
    (hConfined : ∀ d ∈ s.context.decls, ∀ scheme ∈ d.instances, Confined scheme)
    {limit : Nat} {ps reduced : List Predicate}
    (hReduce : reduce s.context limit ps = .ok reduced)
    (hPredicates : ∀ p ∈ ps, p.argument.Replaceable σ τ) :
    (∀ p ∈ ps, ∃ limit, entails s.context [] limit (subst τ p) = .ok true) ↔
      ∀ p ∈ reduced, ∃ limit, entails s.context [] limit (subst τ p) = .ok true := by
  simp only [← derivable_iff_entails]
  exact (transported_subst hState.consistent hConfined).reduce_iff hReduce hPredicates

/-- That a list of some type is a member follows if and only if that
the type is one does. -/
theorem reduce_entails_iff_listState :
    reduce listState.context 3 [⟨"C", listOf (.var "b" .data)⟩] = .ok [⟨"C", .var "b" .data⟩] ∧
    ((∀ p ∈ [⟨"C", listOf (.var "b" .data)⟩], ∃ limit,
        entails listState.context [] limit (subst (Assignment.single "b" intType) p) = .ok true) ↔
      ∀ p ∈ [⟨"C", .var "b" .data⟩], ∃ limit,
        entails listState.context [] limit (subst (Assignment.single "b" intType) p) =
          .ok true) := by
  have hReduce : reduce listState.context 3 [⟨"C", listOf (.var "b" .data)⟩] =
      .ok [⟨"C", .var "b" .data⟩] := by decide +kernel
  refine ⟨hReduce, reduce_entails_iff registered_listState (by decide) hReduce ?_⟩
  refine List.forall_mem_singleton.mpr ⟨⟨rfl, trivial⟩, List.forall_mem_singleton.mpr ?_⟩
  rintro u ⟨⟩
  exact ⟨rfl, rfl⟩

def crossedSignature : Signature := fun c =>
  if c = "N" then .arrow (.constructor 1) .data
  else if c = "F" ∨ c = "H" then .constructor 1 else .data

def crossedType (argument : Ty) : Ty := .app (.con "H" (.constructor 1)) argument

/-- A constructor that takes constructors, and what it needs has no instance. -/
def nestedInstance : TypeScheme :=
  ⟨[], [⟨"D", intType⟩], crossedType (.app (.con "N" (.arrow (.constructor 1) .data))
    (.con "F" (.constructor 1)))⟩

/-- Any constructor that takes types. -/
def applicationInstance : TypeScheme :=
  ⟨[("n", .constructor 1), ("c", .data)], .ofType (crossedType
    (.app (.var "n" (.constructor 1)) (.var "c" .data)))⟩

def crossedState : ClassState :=
  ⟨.empty, ⟨[.declare ⟨"D", []⟩, .declare ⟨"C", [nestedInstance, applicationInstance]⟩]⟩⟩

/-- The state of the counterexample comes about by declaring classes and
instances, so it satisfies all but the condition on kinds. -/
theorem registered_crossedState : Registered crossedSignature crossedState := by
  have hNested : Regular crossedSignature nestedInstance := by
    refine ⟨by decide, by decide, List.forall_mem_cons.mpr ⟨⟨rfl, rfl, rfl⟩, ?_⟩⟩
    exact List.forall_mem_singleton.mpr rfl
  have hApplication : Regular crossedSignature applicationInstance :=
    ⟨by decide, by decide, List.forall_mem_singleton.mpr ⟨rfl, trivial, trivial⟩⟩
  have hApart : findOverlap [nestedInstance] applicationInstance = none := by
    rw [findOverlap, Option.map_eq_none_iff, List.find?_eq_none]
    intro found hFound
    cases List.mem_singleton.mp hFound
    have hKind : (Ty.con "N" (.arrow (.constructor 1) .data)).hasKind (.constructor 1) = false := by
      decide
    change ¬(Equations.unify [(crossedType (.app (.con "N" _) (.con "F" _)),
      crossedType (.app (.var _ (.constructor 1)) (.var _ .data)))]).isSome = true
    simp [Equations.unify, crossedType, hKind]
  have hClasses : Registered crossedSignature
      ⟨.empty, ⟨[.declare ⟨"D", []⟩, .declare ⟨"C", []⟩]⟩⟩ :=
    .addClass (.addClass (s := .empty) (.start rfl) "D" rfl) "C" rfl
  refine .addInstance (.addInstance hClasses "C" hNested rfl) "C" hApplication ?_
  exact addInstance_of_apart (d := ⟨"C", [nestedInstance]⟩) rfl hApart

/-- Variables are replaced by constructors of the kinds they carry. -/
def crossing : Assignment Ty :=
  Assignment.ofPairs [("m", .con "N" (.constructor 1)), ("b", .con "F" .data)]

def crossedPredicate : Predicate :=
  ⟨"C", crossedType (.app (.var "m" (.constructor 1)) (.var "b" .data))⟩

/-- Replacing variables by constructors at kinds other than those of
the instances makes another instance apply, which needs something
that does not follow. -/
theorem not_entails_crossedState :
    Registered crossedSignature crossedState ∧
    (∀ d ∈ crossedState.context.decls, ∀ scheme ∈ d.instances, Confined scheme) ∧
    crossedPredicate.argument.Over crossedSignature ∧
    Ty.Respects crossing crossedPredicate.argument ∧
    reduce crossedState.context 1 [crossedPredicate] = .ok [] ∧
    ∀ limit, entails crossedState.context [] limit (subst crossing crossedPredicate) ≠
      .ok true := by
  refine ⟨registered_crossedState, by decide, ⟨rfl, trivial, trivial⟩, ?_, by decide +kernel,
    fun limit h => ?_⟩
  · refine List.forall_mem_cons.mpr ⟨?_, List.forall_mem_singleton.mpr ?_⟩
    · rintro u ⟨⟩
      rfl
    · rintro u ⟨⟩
      rfl
  · have hCrossed : subgoals crossedState.context (subst crossing crossedPredicate) =
        .ok (some [⟨"D", intType⟩]) := by decide +kernel
    have hNone : subgoals crossedState.context ⟨"D", intType⟩ = .ok none := by decide +kernel
    have hNeeded := (derivable_iff_subgoals hCrossed).mp (derivable_iff_entails.mpr ⟨limit, h⟩)
    obtain ⟨hGoals, -⟩ := hNeeded _ List.mem_cons_self
    rw [hNone] at hGoals
    cases hGoals

end HindleyMilner.Classes
