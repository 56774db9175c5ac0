import HindleyMilner.Proofs.Classes.Scoping

/-! What reducing predicates does to type variables. Matching the head of an instance
gives every variable of the head a part of the type it is matched with, so an instance
brings in those variables only that its predicates use and its head does not. A search
looks at a context through its instances only, so it finds the same in contexts whose
instances need the same. -/
namespace HindleyMilner.Classes

open Context

namespace Subst

theorem toAssignment_single (x y : Name) (t : Ty) :
    (single x t).toAssignment y = if y = x then some t else none := by
  rw [toAssignment, single, Std.ExtTreeMap.getElem?_insert, Std.ExtTreeMap.getElem?_empty]
  simp only [Std.LawfulEqCmp.compare_eq_iff_eq, eq_comm (a := y)]

/-- The substitution of one variable binds that variable and nothing else. -/
theorem toAssignment_single_eq_some {x y : Name} {t u : Ty} :
    (single x t).toAssignment y = some u ↔ y = x ∧ t = u := by
  rw [toAssignment_single, Option.ite_none_right_eq_some, Option.some.injEq]

theorem toAssignment_empty (x : Name) : empty.toAssignment x = none :=
  Std.ExtTreeMap.getElem?_empty

/-- Where a merge is defined, one of its parts is. -/
theorem toAssignment_merge {s t u : Subst} (h : s.merge t = some u) (x : Name) :
    u.toAssignment x = (t.toAssignment x).or (s.toAssignment x) := by
  obtain ⟨-, h⟩ := Option.ite_none_right_eq_some.mp h
  cases h
  exact Std.ExtTreeMap.getElem?_union

end Subst

namespace Ty

/-- A match, and what it is made of. -/
inductive Matched : Ty → Ty → Subst → Prop where
  | var {x : Name} {k : Kind} {t : Ty} (hKind : t.hasKind k = true) :
      Matched (var x k) t (.single x t)
  | con (c : Name) (j k : Kind) : Matched (con c j) (con c k) .empty
  | app {f a g b : Ty} {s t m : Subst} (hFunction : Matched f g s) (hArgument : Matched a b t)
      (hMerge : s.merge t = some m) : Matched (app f a) (app g b) m

/-- A match that is found is put together from matches of the parts of its
pattern, which is the form in which everything else about matches is proved. -/
theorem matched_of_matchWith {pattern target : Ty} {m : Subst}
    (h : pattern.matchWith target = some m) : Matched pattern target m := by
  induction pattern generalizing target m with
  | var x k =>
      obtain ⟨hKind, h⟩ := Option.ite_none_right_eq_some.mp h
      cases h
      exact .var hKind
  | con a j =>
      cases target with
      | con b k =>
          obtain ⟨rfl, hEmpty⟩ := Option.ite_none_right_eq_some.mp h
          cases hEmpty
          exact .con a j k
      | _ => cases h
  | app f a ihf iha =>
      cases target with
      | app g b =>
          rw [matchWith] at h
          cases hFunction : f.matchWith g with
          | none =>
              rw [hFunction] at h
              cases h
          | some s =>
              cases hArgument : a.matchWith b with
              | none =>
                  rw [hFunction, hArgument] at h
                  cases h
              | some t =>
                  rw [hFunction, hArgument] at h
                  exact .app (ihf hFunction) (iha hArgument) h
      | _ => cases h

/-- Every match that can be put together is found. -/
theorem Matched.matchWith {pattern target : Ty} {m : Subst} (h : Matched pattern target m) :
    pattern.matchWith target = some m := by
  induction h with
  | var hKind => exact if_pos hKind
  | con c j k => exact if_pos rfl
  | app _ _ hMerge ihFunction ihArgument =>
      rw [Ty.matchWith, ihFunction, ihArgument]
      exact hMerge

/-- A match binds all variables of its pattern, and to nothing but parts of the
target. Where both parts of an application bind a variable, the merge keeps one
of two equal types. -/
theorem Matched.binds {pattern target : Ty} {σ : Subst} (h : Matched pattern target σ) :
    (∀ x ∈ pattern.freeVars, ∃ u, σ.toAssignment x = some u) ∧
      ∀ x u, σ.toAssignment x = some u → u.freeVars ⊆ target.freeVars := by
  induction h with
  | @var x k t hKind =>
      refine ⟨fun y hy => ⟨t, ?_⟩, fun y u hu => ?_⟩
      · exact Subst.toAssignment_single_eq_some.mpr ⟨List.mem_singleton.mp hy, rfl⟩
      · obtain ⟨-, rfl⟩ := Subst.toAssignment_single_eq_some.mp hu
        exact List.Subset.refl _
  | con c j k =>
      refine ⟨List.forall_mem_nil _, fun y u hu => ?_⟩
      rw [Subst.toAssignment_empty] at hu
      cases hu
  | @app f a g b s t m _ _ hMerge ihFunction ihArgument =>
      obtain ⟨hDomF, hRangeF⟩ := ihFunction
      obtain ⟨hDomA, hRangeA⟩ := ihArgument
      have hMerged := Subst.toAssignment_merge hMerge
      constructor
      · intro x hx
        rw [hMerged]
        rcases List.mem_append.mp hx with hx | hx
        · obtain ⟨u, hu⟩ := hDomF x hx
          rw [hu]
          cases t.toAssignment x with
          | none => exact ⟨u, rfl⟩
          | some v => exact ⟨v, rfl⟩
        · obtain ⟨u, hu⟩ := hDomA x hx
          rw [hu]
          exact ⟨u, rfl⟩
      · intro x u hu
        rw [hMerged, Option.or_eq_some_iff] at hu
        rcases hu with hu | ⟨-, hu⟩
        · exact List.subset_append_of_subset_right _ (hRangeA x u hu)
        · exact List.subset_append_of_subset_left _ (hRangeF x u hu)

end Ty

/-- Some instance needs a predicate on a variable that its head does not mention. -/
def Dangling (classes : List ClassDecl) (x : Name) : Prop :=
  ∃ d ∈ classes, ∃ scheme ∈ d.instances,
    x ∉ freeVars scheme.body.head ∧ ∃ p ∈ scheme.body.predicates, x ∈ freeVars p

/-- What an instance needs for a type mentions variables of the type, and
variables that its predicates use and its head does not. -/
theorem mem_freeVars_instanceGoals {argument : Ty} {scheme : TypeScheme} {goals : List Predicate}
    (h : instanceGoals argument scheme = some goals) {x : Name} (hx : x ∈ freeVars goals) :
    x ∈ argument.freeVars ∨
      (x ∉ freeVars scheme.body.head ∧ ∃ p ∈ scheme.body.predicates, x ∈ freeVars p) := by
  obtain ⟨σ, hMatch, rfl⟩ := Option.map_eq_some_iff.mp h
  obtain ⟨hDomain, hRange⟩ := (Ty.matched_of_matchWith hMatch).binds
  obtain ⟨goal, hGoal, hx⟩ := List.mem_flatMap.mp hx
  obtain ⟨p, hp, rfl⟩ := List.mem_map.mp hGoal
  obtain ⟨y, hy, ⟨u, hu, hx⟩ | ⟨hNone, rfl⟩⟩ := Ty.mem_freeVars_subst hx
  · exact .inl (hRange y u hu hx)
  · refine .inr ⟨fun hHead => ?_, p, hp, hy⟩
    obtain ⟨u, hu⟩ := hDomain x hHead
    rw [hNone] at hu
    cases hu

/-- What is needed for a predicate is looked for among the instances of its
class. -/
theorem exists_class_of_subgoals {ctx : ClassContext} {p : Predicate}
    {found : Option (List Predicate)} (h : subgoals ctx p = .ok found) :
    ∃ d, findClass ctx p.className = some d ∧
      found = d.instances.findSome? (instanceGoals p.argument) := by
  rw [subgoals] at h
  cases hClass : findClass ctx p.className with
  | none =>
      rw [hClass] at h
      cases h
  | some d =>
      rw [hClass] at h
      cases h
      exact ⟨d, rfl, rfl⟩

/-- What is needed for a predicate is what an instance of its class needs. -/
theorem exists_instance_of_subgoals {ctx : ClassContext} {p : Predicate} {goals : List Predicate}
    (h : subgoals ctx p = .ok (some goals)) :
    ∃ d ∈ ctx.decls, d.name = p.className ∧ ∃ scheme ∈ d.instances,
      instanceGoals p.argument scheme = some goals := by
  obtain ⟨d, hClass, hFound⟩ := exists_class_of_subgoals h
  obtain ⟨scheme, hScheme, hGoals⟩ := List.exists_of_findSome?_eq_some hFound.symm
  exact ⟨d, List.mem_of_find?_eq_some hClass, by simpa using List.find?_some hClass, scheme,
    hScheme, hGoals⟩

/-- So what is needed for a predicate mentions its own variables, or one that an
instance leaves open. -/
theorem mem_freeVars_subgoals {ctx : ClassContext} {p : Predicate} {goals : List Predicate}
    (h : subgoals ctx p = .ok (some goals)) {x : Name} (hx : x ∈ freeVars goals) :
    x ∈ freeVars p ∨ Dangling ctx.decls x := by
  obtain ⟨d, hd, -, scheme, hScheme, hGoals⟩ := exists_instance_of_subgoals h
  refine (mem_freeVars_instanceGoals hGoals hx).imp_right fun hDangling => ?_
  exact ⟨d, hd, scheme, hScheme, hDangling⟩

theorem freeVars_append (ps qs : List Predicate) :
    freeVars (ps ++ qs) = freeVars ps ++ freeVars qs := List.flatMap_append

/-- Fewer predicates mention no more variables. -/
theorem freeVars_mono {ps qs : List Predicate} (h : ps ⊆ qs) : freeVars ps ⊆ freeVars qs := by
  intro x hx
  obtain ⟨p, hp, hx⟩ := List.mem_flatMap.mp hx
  exact List.mem_flatMap.mpr ⟨p, h hp, hx⟩

/-- What holds of some predicates holds of those in head normal form, if
instances need nothing of which it does not hold. -/
theorem forall_normalizeFrom {ctx : ClassContext} {P : Predicate → Prop}
    (hGoals : ∀ {p : Predicate} {goals : List Predicate}, P p →
      subgoals ctx p = .ok (some goals) → ∀ g ∈ goals, P g)
    {limit : Nat} {found pending normal : List Predicate}
    (h : normalizeFrom ctx limit found pending = .ok normal)
    (hAll : ∀ p ∈ found ++ pending, P p) : ∀ p ∈ normal, P p := by
  fun_induction normalizeFrom ctx limit found pending with
  | case1 limit found =>
      cases h
      simpa using hAll
  | case2 => cases h
  | case3 limit found p pending hNormal ih =>
      exact ih h fun q hq => hAll q (List.perm_middle.symm.subset hq)
  | case4 => cases h
  | case5 => cases h
  | case6 limit found p pending hNormal goals hSubgoals ih =>
      obtain ⟨hFound, hPending⟩ := List.forall_mem_append.mp hAll
      obtain ⟨hp, hRest⟩ := List.forall_mem_cons.mp hPending
      exact ih h (List.forall_mem_append.mpr ⟨hFound,
        List.forall_mem_append.mpr ⟨hGoals hp hSubgoals, hRest⟩⟩)

/-- Head normal forms mention what the given predicates mention, and what
instances leave open. -/
theorem mem_freeVars_normalizeFrom {ctx : ClassContext} {limit : Nat}
    {found pending normal : List Predicate}
    (h : normalizeFrom ctx limit found pending = .ok normal) {x : Name} (hx : x ∈ freeVars normal) :
    x ∈ freeVars (found ++ pending) ∨ Dangling ctx.decls x := by
  obtain ⟨p, hp, hx⟩ := List.mem_flatMap.mp hx
  refine forall_normalizeFrom (P := fun p => ∀ x ∈ freeVars p,
    x ∈ freeVars (found ++ pending) ∨ Dangling ctx.decls x) ?_ h ?_ p hp x hx
  · intro p goals hp hGoals g hg x hx
    have hMem : x ∈ freeVars goals := List.mem_flatMap.mpr ⟨g, hg, hx⟩
    exact (mem_freeVars_subgoals hGoals hMem).elim (hp x) .inr
  · exact fun q hq x hx => .inl (List.mem_flatMap.mpr ⟨q, hq, hx⟩)

/-- Simplification adds no predicate. -/
theorem subset_of_simplifyFrom {ctx : ClassContext} {limit : Nat} {kept ps simple : List Predicate}
    (h : simplifyFrom ctx limit kept ps = .ok simple) : simple ⊆ kept ++ ps := by
  induction ps generalizing kept with
  | nil =>
      cases h
      exact List.subset_append_left _ _
  | cons p ps ih =>
      obtain ⟨implied, -, h⟩ := bind_eq_ok.mp h
      cases implied with
      | true =>
          apply List.Subset.trans (ih h)
          exact List.append_subset.mpr ⟨List.subset_append_left _ _,
            List.subset_append_of_subset_right _ (List.subset_cons_self _ _)⟩
      | false =>
          have hSubset := ih h
          rwa [List.append_assoc] at hSubset

/-- Reduced predicates mention what the given ones mention, and what
instances leave open. -/
theorem mem_freeVars_reduce {ctx : ClassContext} {ps reduced : List Predicate}
    (h : Rules.reduce (L := language) ps ctx = .ok reduced) {x : Name}
    (hx : x ∈ freeVars reduced) : x ∈ freeVars ps ∨ Dangling ctx.decls x := by
  have hSearch : reduce ctx searchLimit ps = .ok reduced := by
    change (reduce ctx searchLimit ps).toExcept = .ok reduced at h
    cases hReduce : reduce ctx searchLimit ps with
    | ok found =>
        rw [hReduce] at h
        exact congrArg _ (Except.ok.inj h)
    | error failure =>
        rw [hReduce] at h
        cases failure <;> cases h
  obtain ⟨normal, hNormal, hSimple⟩ := bind_eq_ok.mp hSearch
  exact mem_freeVars_normalizeFrom hNormal (freeVars_mono (subset_of_simplifyFrom hSimple) hx)

/-- Two contexts whose instances need the same for predicates of some sort, and
nothing but predicates of that sort. -/
structure Interchangeable (ctx ctx' : ClassContext) (Suits : Predicate → Prop) : Prop where
  subgoals_eq : ∀ p, Suits p → subgoals ctx p = subgoals ctx' p
  suits : ∀ {p : Predicate} {goals : List Predicate}, Suits p →
    subgoals ctx p = .ok (some goals) → ∀ g ∈ goals, Suits g

namespace Interchangeable

variable {ctx ctx' : ClassContext} {Suits : Predicate → Prop}
  (h : Interchangeable ctx ctx' Suits) (limit : Nat)

include h

/-- Head normal forms are the same in both contexts, since every predicate on
the way needs the same there. -/
theorem normalizeFrom_eq (found : List Predicate) {pending : List Predicate}
    (hPending : ∀ p ∈ pending, Suits p) :
    normalizeFrom ctx limit found pending = normalizeFrom ctx' limit found pending := by
  fun_induction normalizeFrom ctx limit found pending with
  | case1 limit found => simp only [normalizeFrom]
  | case2 => rfl
  | case3 limit found p pending hNormal ih =>
      rw [normalizeFrom, if_pos hNormal]
      exact ih (List.forall_mem_cons.mp hPending).2
  | case4 limit found p pending hNormal e hGoals =>
      rw [normalizeFrom, if_neg hNormal, ← h.subgoals_eq p (hPending p List.mem_cons_self), hGoals]
  | case5 limit found p pending hNormal hGoals =>
      rw [normalizeFrom, if_neg hNormal, ← h.subgoals_eq p (hPending p List.mem_cons_self), hGoals]
  | case6 limit found p pending hNormal goals hGoals ih =>
      obtain ⟨hp, hRest⟩ := List.forall_mem_cons.mp hPending
      rw [normalizeFrom, if_neg hNormal, ← h.subgoals_eq p hp, hGoals]
      exact ih (List.forall_mem_append.mpr ⟨h.suits hp hGoals, hRest⟩)

/-- A search takes the same course in both contexts, as it opens the same
predicates into the same goals. -/
theorem entailsAll_eq (given : List Predicate) {ps : List Predicate} (hPs : ∀ p ∈ ps, Suits p) :
    entailsAll ctx given limit ps = entailsAll ctx' given limit ps := by
  fun_induction entailsAll ctx given limit ps with
  | case1 limit => simp only [entailsAll]
  | case2 => rfl
  | case3 limit p ps hGiven ih =>
      rw [entailsAll, if_pos hGiven]
      exact ih (List.forall_mem_cons.mp hPs).2
  | case4 limit p ps hGiven e hGoals =>
      rw [entailsAll, if_neg hGiven, ← h.subgoals_eq p (hPs p List.mem_cons_self), hGoals]
  | case5 limit p ps hGiven hGoals =>
      rw [entailsAll, if_neg hGiven, ← h.subgoals_eq p (hPs p List.mem_cons_self), hGoals]
  | case6 limit p ps hGiven goals hGoals ih =>
      obtain ⟨hp, hRest⟩ := List.forall_mem_cons.mp hPs
      rw [entailsAll, if_neg hGiven, ← h.subgoals_eq p hp, hGoals]
      exact ih (List.forall_mem_append.mpr ⟨h.suits hp hGoals, hRest⟩)

/-- The same predicates are dropped. -/
theorem simplifyFrom_eq (kept : List Predicate) {ps : List Predicate} (hPs : ∀ p ∈ ps, Suits p) :
    simplifyFrom ctx limit kept ps = simplifyFrom ctx' limit kept ps := by
  induction ps generalizing kept with
  | nil => rfl
  | cons p ps ih =>
      obtain ⟨hp, hRest⟩ := List.forall_mem_cons.mp hPs
      have hEntails := h.entailsAll_eq limit (ps ++ kept) (List.forall_mem_singleton.mpr hp)
      simp only [simplifyFrom, entails, hEntails, ih _ hRest]

/-- What holds of predicates of that sort is found out alike in both. -/
theorem reduce_eq {ps : List Predicate} (hPs : ∀ p ∈ ps, Suits p) :
    reduce ctx limit ps = reduce ctx' limit ps := by
  rw [reduce, reduce, headNormalForm, headNormalForm, ← h.normalizeFrom_eq limit [] hPs]
  cases hNormal : normalizeFrom ctx limit [] ps with
  | error e => rfl
  | ok normal => exact h.simplifyFrom_eq limit [] (forall_normalizeFrom h.suits hNormal hPs)

end Interchangeable

end HindleyMilner.Classes
