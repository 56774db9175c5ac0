import HindleyMilner.Proofs.Classes.Entailment
import HindleyMilner.Proofs.Classes.Unification

/-! The order of declarations. After they were renamed apart, the heads of two instances
unify if and only if some type is matched by both, whatever names they were given. So
instances can be declared together in every order or in none, and whatever the order, the
same instance applies to a predicate. -/
namespace HindleyMilner.Classes

open Context

variable {σ : Signature}

/-- Each renamed head is that of an instance of the list, and the names it was
given were drawn before the list was done. -/
theorem of_mem_freshHeads {supply : Supply} {instances : List TypeScheme} {found : TypeScheme × Ty}
    (h : found ∈ (freshHeads supply instances).1) :
    found.1 ∈ instances ∧ ∃ before : Supply,
      found.2 = (found.1.instantiate before "tc" .var).body.head ∧
      before.drawn "tc" + found.1.quantified.length ≤
        (freshHeads supply instances).2.drawn "tc" := by
  induction instances generalizing supply with
  | nil => cases h
  | cons first rest ih =>
      rcases List.mem_cons.mp h with rfl | h
      · exact ⟨List.mem_cons_self, supply, rfl, drawn_first_le supply first rest⟩
      · obtain ⟨hMem, hBefore⟩ := ih h
        exact ⟨List.mem_cons_of_mem _ hMem, hBefore⟩

/-- An assignment renames the variables of a type to variables of the given
kinds. -/
def Renames (ρ : Assignment Ty) (kinds : Name → Kind) (t : Ty) : Prop :=
  t.Annotated fun x k => ∃ new, ρ x = some (.var new k) ∧ k = kinds new

/-- Instantiating the head of a regular instance renames its variables, each to
one of its own kind. -/
theorem Regular.exists_renaming {scheme : TypeScheme} (h : Regular σ scheme) (supply : Supply)
    {slots : Slots} (hNodup : (slots.map Prod.fst).Nodup)
    (hSlots : Slots.ofScheme scheme supply (fun _ => none) ⊆ slots) :
    ∃ ρ, (scheme.instantiate supply "tc" .var).body.head = scheme.body.head.subst ρ ∧
      Renames ρ slots.kinds scheme.body.head := by
  refine ⟨_, rfl, fun p hp => ?_⟩
  obtain ⟨new, hNew, hRenamed⟩ :=
    instantiate_of_mem supply h.kinded (h.head_annotated hp) fun _ => none
  exact ⟨new, hRenamed, (Slots.kinds_of_mem hNodup (hSlots hNew)).symm⟩

namespace Renames

variable {ρ : Assignment Ty} {kinds : Name → Kind} {t : Ty} (h : Renames ρ kinds t)

include h

/-- A renamed type carries the kinds of the new variables. -/
theorem annotated_subst : (t.subst ρ).Annotated (Carries kinds) := by
  refine Ty.Annotated.subst (fun x k _ hx => ?_) h
  obtain ⟨new, hNew, hKind⟩ := hx
  exact .inl ⟨_, hNew, List.forall_mem_singleton.mpr hKind⟩

/-- Renaming leaves the constructors of a type as they are. -/
theorem over_subst (hOver : t.Over σ) : (t.subst ρ).Over σ := by
  refine Ty.over_subst hOver fun x hx u hu => ?_
  obtain ⟨k, hk⟩ := Ty.exists_mem_occurrences hx
  obtain ⟨new, hNew, -⟩ := h (x, k) hk
  rw [hNew] at hu
  cases hu
  trivial

/-- A type is matched with what its renaming is instantiated to. The match
takes each variable to the instance of its new name, which has the kind that
the variable carries. -/
theorem isSome_matchWith {τ : Assignment Ty}
    (hτ : ∀ x u, τ x = some u → u.kind = .ok (kinds x)) :
    (t.matchWith ((t.subst ρ).subst τ)).isSome := by
  let both : Assignment Ty := fun x => (ρ x).map (Ty.subst τ)
  have hBoth : ∀ p ∈ t.occurrences, ∃ new, ρ p.1 = some (.var new p.2) ∧ p.2 = kinds new ∧
      both p.1 = some ((Ty.var new p.2).subst τ) := by
    intro p hp
    obtain ⟨new, hNew, hKind⟩ := h p hp
    exact ⟨new, hNew, hKind, congrArg (Option.map _) hNew⟩
  have hSubst : (t.subst ρ).subst τ = t.subst both := by
    apply Ty.subst_subst_of_bound
    intro x hx
    obtain ⟨k, hk⟩ := Ty.exists_mem_occurrences hx
    obtain ⟨new, hNew, -, hValue⟩ := hBoth (x, k) hk
    exact ⟨_, hNew, hValue⟩
  let image : Name → Ty := fun x => (both x).getD (.var x .data)
  have hTakes : Ty.Takes both image t := by
    intro p hp
    obtain ⟨new, -, hKind, hValue⟩ := hBoth p hp
    have hImage : image p.1 = (Ty.var new p.2).subst τ := congrArg (Option.getD · _) hValue
    have hRespects : Ty.Respects τ (.var new p.2) := by
      refine List.forall_mem_singleton.mpr fun u hu => ?_
      rw [hτ new u hu, hKind]
    rw [hImage, Ty.subst, hValue]
    exact ⟨rfl, Ty.kind_subst hRespects⟩
  obtain ⟨m, hm, -⟩ := Ty.exists_matched hTakes
  rw [hSubst, hm.matchWith]
  rfl

end Renames

/-- Instances whose heads unify apply to one type, namely to what the unifier
makes of the two renamed heads. -/
theorem clash_of_overlaps {a b : TypeScheme} (ha : Regular σ a) (hb : Regular σ b)
    {before after : Supply} (hDrawn : before.drawn "tc" + a.quantified.length ≤ after.drawn "tc")
    (h : (a.instantiate before "tc" .var).body.head.overlaps
      (b.instantiate after "tc" .var).body.head = true) : Clash σ a b := by
  let slots := Slots.ofScheme a before (fun _ => none) ++ Slots.ofScheme b after (fun _ => none)
  have hNodup : (slots.map Prod.fst).Nodup := Slots.nodup_apart hDrawn _ _
  obtain ⟨ρ, hHead, hρ⟩ := ha.exists_renaming before hNodup (List.subset_append_left _ _)
  obtain ⟨ρ', hHead', hρ'⟩ := hb.exists_renaming after hNodup (List.subset_append_right _ _)
  obtain ⟨s, hs⟩ := Option.isSome_iff_exists.mp h
  rw [hHead, hHead'] at hs
  have hFinds := finds_of_unify hs
  have hOver := hρ.over_subst ha.head_over
  have hOver' := hρ'.over_subst hb.head_over
  have hKinds : ∀ x u, s.toAssignment x = some u → u.kind = .ok (slots.kinds x) := fun x u hu =>
    hFinds.kind_of_image hρ.annotated_subst hρ'.annotated_subst hu
  have hSame := hFinds.subst_eq hρ.annotated_subst hρ'.annotated_subst hOver hOver'
  refine ⟨(a.body.head.subst ρ).subst s.toAssignment, ?_, hρ.isSome_matchWith hKinds, ?_⟩
  · exact Ty.over_subst hOver fun x _ u hu => hFinds.images (fun _ _ => Iff.rfl) hOver hOver' hu
  · rw [hSame]
    exact hρ'.isSome_matchWith hKinds

/-- Whether two instances apply to one type does not depend on their order. -/
theorem Clash.symm {a b : TypeScheme} (h : Clash σ a b) : Clash σ b a := by
  obtain ⟨t, ht, ha, hb⟩ := h
  exact ⟨t, ht, hb, ha⟩

/-- An instance is accepted if and only if it never applies where one
that is there does. That heads unify says just this, once they have
been renamed apart. -/
theorem findOverlap_eq_none_iff {existing : List TypeScheme} {candidate : TypeScheme}
    (hExisting : ∀ scheme ∈ existing, Regular σ scheme) (hCandidate : Regular σ candidate) :
    findOverlap existing candidate = none ↔ ∀ scheme ∈ existing, ¬Clash σ scheme candidate := by
  constructor
  · intro hNone scheme hMem hClash
    have hSome := isSome_findOverlap hMem (hExisting scheme hMem) hCandidate hClash
    rw [hNone] at hSome
    cases hSome
  · intro hApart
    rw [findOverlap, Option.map_eq_none_iff, List.find?_eq_none]
    intro found hFound hOverlaps
    obtain ⟨hMem, before, hHead, hDrawn⟩ := of_mem_freshHeads hFound
    rw [hHead] at hOverlaps
    exact hApart _ hMem (clash_of_overlaps (hExisting _ hMem) hCandidate hDrawn hOverlaps)

def addInstances (s : ClassState) (name : Name) (schemes : List TypeScheme) :
    Except TypeError ClassState :=
  schemes.foldlM (fun s scheme => addInstance s name scheme) s

/-- Adding several instances is adding the first and then the others. -/
theorem addInstances_cons {s t : ClassState} {name : Name} {scheme : TypeScheme}
    {rest : List TypeScheme} :
    addInstances s name (scheme :: rest) = .ok t ↔
      ∃ u, addInstance s name scheme = .ok u ∧ addInstances u name rest = .ok t := by
  rw [addInstances, List.foldlM_cons]
  exact bind_eq_ok

/-- A class with instances added, if it is the one of the given name. -/
def ClassDecl.extendAll (name : Name) (schemes : List TypeScheme) (d : ClassDecl) : ClassDecl :=
  if d.name = name then { d with instances := d.instances ++ schemes } else d

theorem ClassDecl.extendAll_nil (name : Name) : ClassDecl.extendAll name [] = id := by
  funext d
  rw [extendAll, List.append_nil, ite_self]
  rfl

/-- Adding one instance and then others to a class is adding them all. -/
theorem ClassDecl.extendAll_comp_extend (name : Name) (scheme : TypeScheme)
    (rest : List TypeScheme) :
    extendAll name rest ∘ extend name scheme = extendAll name (scheme :: rest) := by
  funext d
  by_cases hName : d.name = name
  · simp [extend, extendAll, hName]
  · simp [extend, extendAll, hName]

/-- The instances of an extended class are those it had and those that were
added. -/
theorem ClassDecl.mem_extendAll {name : Name} {schemes : List TypeScheme} {d : ClassDecl}
    {scheme : TypeScheme} (h : scheme ∈ (d.extendAll name schemes).instances) :
    scheme ∈ d.instances ∨ scheme ∈ schemes := by
  rw [extendAll] at h
  split at h
  · exact List.mem_append.mp h
  · exact .inl h

/-- Adding an instance changes the class it is declared for and no other. -/
theorem findClass_addInstance {s t : ClassState} {name : Name} {scheme : TypeScheme}
    (h : addInstance s name scheme = .ok t) (other : Name) :
    findClass t.context other =
      (findClass s.context other).map (ClassDecl.extend name scheme) := by
  have hName (d : ClassDecl) : (d.extend name scheme).name = d.name :=
    congrFun (ClassDecl.name_comp_extend name scheme) d
  rw [findClass, (addInstance_eq_ok h).2, List.find?_map, findClass]
  simp only [Function.comp_def, hName]

/-- Instances are added to the class that they are declared for. -/
theorem findClass_addInstances {s t : ClassState} {name : Name} {schemes : List TypeScheme}
    (h : addInstances s name schemes = .ok t) (other : Name) :
    findClass t.context other =
      (findClass s.context other).map (ClassDecl.extendAll name schemes) := by
  induction schemes generalizing s with
  | nil =>
      cases h
      rw [ClassDecl.extendAll_nil, Option.map_id_fun]
      rfl
  | cons scheme rest ih =>
      obtain ⟨u, hFirst, hRest⟩ := addInstances_cons.mp h
      rw [ih hRest, findClass_addInstance hFirst, Option.map_map,
        ClassDecl.extendAll_comp_extend]

/-- No instance can be added to a class that is not declared. -/
theorem exists_addInstances_of_undeclared {s : ClassState} {name : Name}
    (h : findClass s.context name = none) (schemes : List TypeScheme) :
    (∃ t, addInstances s name schemes = .ok t) ↔ schemes = [] := by
  cases schemes with
  | nil => exact iff_of_true ⟨s, rfl⟩ rfl
  | cons scheme rest =>
      refine iff_of_false (fun ⟨t, ht⟩ => ?_) (List.cons_ne_nil _ _)
      obtain ⟨u, hFirst, -⟩ := addInstances_cons.mp ht
      obtain ⟨⟨d, hd, -⟩, -⟩ := addInstance_eq_ok hFirst
      rw [h] at hd
      cases hd

/-- Instances are accepted if and only if no two of them, and none of them and
one that is there, apply to one type. -/
theorem exists_addInstances_iff {s : ClassState} {name : Name} {d : ClassDecl}
    {schemes : List TypeScheme} (hClass : findClass s.context name = some d)
    (hThere : ∀ a ∈ d.instances, Regular σ a) (hSchemes : ∀ b ∈ schemes, Regular σ b) :
    (∃ t, addInstances s name schemes = .ok t) ↔
      schemes.Pairwise (fun a b => ¬Clash σ a b) ∧
        ∀ b ∈ schemes, ∀ a ∈ d.instances, ¬Clash σ a b := by
  induction schemes generalizing s d with
  | nil => exact iff_of_true ⟨s, rfl⟩ ⟨.nil, List.forall_mem_nil _⟩
  | cons scheme rest ih =>
      obtain ⟨hScheme, hRest⟩ := List.forall_mem_cons.mp hSchemes
      have hName : d.name = name := by simpa using List.find?_some hClass
      let d' : ClassDecl := { d with instances := d.instances ++ [scheme] }
      have hThere' : ∀ a ∈ d'.instances, Regular σ a :=
        List.forall_mem_append.mpr ⟨hThere, List.forall_mem_singleton.mpr hScheme⟩
      have hClass' {u : ClassState} (hu : addInstance s name scheme = .ok u) :
          findClass u.context name = some d' := by
        rw [findClass_addInstance hu, hClass, Option.map_some, ClassDecl.extend, if_pos hName]
      have hOverlap := findOverlap_eq_none_iff hThere hScheme
      rw [List.pairwise_cons, List.forall_mem_cons]
      constructor
      · rintro ⟨t, ht⟩
        obtain ⟨u, hFirst, ht⟩ := addInstances_cons.mp ht
        obtain ⟨⟨found, hFound, hNone⟩, -⟩ := addInstance_eq_ok hFirst
        cases hClass.symm.trans hFound
        obtain ⟨hPairwise, hApart⟩ := (ih (hClass' hFirst) hThere' hRest).mp ⟨t, ht⟩
        refine ⟨⟨fun b hb => ?_, hPairwise⟩, hOverlap.mp hNone, fun b hb a ha => ?_⟩
        · exact hApart b hb scheme (List.mem_append_right _ List.mem_cons_self)
        · exact hApart b hb a (List.mem_append_left _ ha)
      · rintro ⟨⟨hFirst, hPairwise⟩, hApart, hApart'⟩
        have hAdd := addInstance_of_apart hClass (hOverlap.mpr hApart)
        obtain ⟨t, ht⟩ := (ih (hClass' hAdd) hThere' hRest).mpr ⟨hPairwise, fun b hb =>
          List.forall_mem_append.mpr ⟨hApart' b hb, List.forall_mem_singleton.mpr (hFirst b hb)⟩⟩
        exact ⟨t, addInstances_cons.mpr ⟨_, hAdd, ht⟩⟩

/-- Where at most one member of a list has an answer, the first answer is
the same in any order. -/
theorem findSome?_eq_of_perm {α β : Type} {f : α → Option β} {l l' : List α} (h : l.Perm l')
    (hOne : l.Pairwise fun a b => ¬((f a).isSome ∧ (f b).isSome)) :
    l.findSome? f = l'.findSome? f := by
  induction h with
  | nil => rfl
  | cons a _ ih =>
      rw [List.findSome?_cons, List.findSome?_cons, ih (List.pairwise_cons.mp hOne).2]
  | swap a b l =>
      have hNot := (List.pairwise_cons.mp hOne).1 a List.mem_cons_self
      cases ha : f a with
      | none => simp only [List.findSome?_cons, ha]
      | some _ =>
          cases hb : f b with
          | none => simp only [List.findSome?_cons, ha, hb]
          | some _ => simp [ha, hb] at hNot
  | trans hFirst _ ih ih' =>
      rw [ih hOne, ih' ((hFirst.pairwise_iff fun hab => fun hba => hab hba.symm).mp hOne)]

/-- Instances that both apply to a type over the signature clash. -/
theorem Clash.of_instanceGoals {a b : TypeScheme} {t : Ty} (ht : t.Over σ)
    (ha : (instanceGoals t a).isSome) (hb : (instanceGoals t b).isSome) : Clash σ a b := by
  rw [instanceGoals, Option.isSome_map] at ha hb
  exact ⟨t, ht, ha, hb⟩

/-- What an instance needs for a type over a signature is on types over it. -/
theorem over_instanceGoals {t : Ty} {scheme : TypeScheme} {goals : List Predicate}
    (h : instanceGoals t scheme = some goals) (hScheme : Regular σ scheme) (ht : t.Over σ) :
    ∀ g ∈ goals, g.argument.Over σ := by
  obtain ⟨m, hm, rfl⟩ := Option.map_eq_some_iff.mp h
  refine List.forall_mem_map.mpr fun p hp => ?_
  have hOver := hScheme.typesOver _ (List.mem_cons_of_mem _ (List.mem_map_of_mem hp))
  exact Ty.over_subst hOver fun x _ u hu =>
    (Ty.matched_of_matchWith hm).of_target (fun _ _ => id) ht hu

/-- Contexts to which the same instances were added in two orders are
interchangeable. No two of the instances apply to one type, as either order was
accepted, so it makes no difference which of them is looked at first. -/
theorem interchangeable_addInstances {s t t' : ClassState} {name : Name}
    {order order' : List TypeScheme}
    (hState : ∀ d ∈ s.context.decls, ∀ scheme ∈ d.instances, Regular σ scheme)
    (hOrder : ∀ scheme ∈ order, Regular σ scheme) (hPerm : order.Perm order')
    (h : addInstances s name order = .ok t) (h' : addInstances s name order' = .ok t') :
    Interchangeable t.context t'.context fun p => p.argument.Over σ where
  subgoals_eq p hp := by
    rw [subgoals, subgoals, findClass_addInstances h, findClass_addInstances h']
    cases hClass : findClass s.context p.className with
    | none => rfl
    | some d =>
        simp only [Option.map_some, ClassDecl.extendAll]
        by_cases hName : d.name = name
        · rw [if_pos hName, if_pos hName]
          have hClassName : d.name = p.className := by simpa using List.find?_some hClass
          rw [← hClassName, hName] at hClass
          have hApart := ((exists_addInstances_iff hClass
            (hState d (List.mem_of_find?_eq_some hClass)) hOrder).mp ⟨t, h⟩).1
          rw [List.findSome?_append, List.findSome?_append, findSome?_eq_of_perm hPerm]
          exact hApart.imp fun hClash hBoth => hClash (.of_instanceGoals hp hBoth.1 hBoth.2)
        · rw [if_neg hName, if_neg hName]
  suits {p goals} hp hGoals := by
    rw [subgoals, findClass_addInstances h] at hGoals
    cases hClass : findClass s.context p.className with
    | none =>
        rw [hClass] at hGoals
        cases hGoals
    | some d =>
        rw [hClass] at hGoals
        obtain ⟨scheme, hMem, hInstance⟩ := List.exists_of_findSome?_eq_some (Except.ok.inj hGoals)
        refine over_instanceGoals hInstance ?_ hp
        rcases ClassDecl.mem_extendAll hMem with hMem | hMem
        · exact hState d (List.mem_of_find?_eq_some hClass) scheme hMem
        · exact hOrder scheme hMem

/-- Regular instances can be added to a class in all orders or in none, and
whatever the order was, the same follows from them. -/
theorem addInstances_perm {s : ClassState} (name : Name) {order order' : List TypeScheme}
    (hState : ∀ d ∈ s.context.decls, ∀ scheme ∈ d.instances, Regular σ scheme)
    (hOrder : ∀ scheme ∈ order, Regular σ scheme) (hPerm : order.Perm order') :
    ((∃ t, addInstances s name order = .ok t) ↔ ∃ t, addInstances s name order' = .ok t) ∧
    ∀ t t', addInstances s name order = .ok t → addInstances s name order' = .ok t' →
      (∀ p : Predicate, p.argument.Over σ → subgoals t.context p = subgoals t'.context p) ∧
      ∀ limit, ∀ ps : List Predicate, (∀ p ∈ ps, p.argument.Over σ) →
        headNormalForm t.context limit ps = headNormalForm t'.context limit ps ∧
        (∀ given, ∀ p ∈ ps, entails t.context given limit p = entails t'.context given limit p) ∧
        reduce t.context limit ps = reduce t'.context limit ps := by
  constructor
  · cases hClass : findClass s.context name with
    | none =>
        rw [exists_addInstances_of_undeclared hClass, exists_addInstances_of_undeclared hClass]
        exact ⟨fun hNil => (hNil ▸ hPerm).symm.eq_nil, fun hNil => (hNil ▸ hPerm).eq_nil⟩
    | some d =>
        have hThere := hState d (List.mem_of_find?_eq_some hClass)
        have hOrder' : ∀ scheme ∈ order', Regular σ scheme :=
          fun scheme hMem => hOrder scheme (hPerm.mem_iff.mpr hMem)
        rw [exists_addInstances_iff hClass hThere hOrder,
          exists_addInstances_iff hClass hThere hOrder',
          hPerm.pairwise_iff fun hab hba => hab hba.symm]
        simp only [hPerm.mem_iff]
  · intro t t' h h'
    have hSame := interchangeable_addInstances hState hOrder hPerm h h'
    refine ⟨hSame.subgoals_eq, fun limit ps hPs => ⟨?_, fun given p hp => ?_, ?_⟩⟩
    · exact hSame.normalizeFrom_eq limit [] hPs
    · exact hSame.entailsAll_eq limit given (List.forall_mem_singleton.mpr (hPs p hp))
    · exact hSame.reduce_eq limit hPs

def declaredState : ClassState := ⟨.empty, ⟨[.declare ⟨"C", []⟩]⟩⟩

/-- Instances for integers and lists can be added in both orders, and then lists
of integers are members. -/
theorem addInstances_perm_declaredState :
    ∃ t t', addInstances declaredState "C" [intInstance, listInstance] = .ok t ∧
      addInstances declaredState "C" [listInstance, intInstance] = .ok t' ∧
      entails t.context [] 2 ⟨"C", listOf intType⟩ = .ok true ∧
      entails t'.context [] 2 ⟨"C", listOf intType⟩ = .ok true := by
  have hState : ∀ d ∈ declaredState.context.decls, ∀ scheme ∈ d.instances,
      Regular listSignature scheme := List.forall_mem_singleton.mpr (List.forall_mem_nil _)
  have hOrder : ∀ scheme ∈ [intInstance, listInstance], Regular listSignature scheme :=
    List.forall_mem_cons.mpr ⟨regular_intInstance,
      List.forall_mem_singleton.mpr regular_listInstance⟩
  obtain ⟨hIff, hSame⟩ := addInstances_perm "C" hState hOrder (.swap _ _ [])
  have hAdd : addInstances declaredState "C" [intInstance, listInstance] =
      .ok ⟨.empty, ⟨[.declare ⟨"C", [intInstance, listInstance]⟩]⟩⟩ := by
    refine addInstances_cons.mpr ⟨_, rfl, addInstances_cons.mpr ⟨_, ?_, rfl⟩⟩
    exact addInstance_of_apart (d := ⟨"C", [intInstance]⟩) rfl findOverlap_listInstance
  obtain ⟨t', hAdd'⟩ := hIff.mp ⟨_, hAdd⟩
  obtain ⟨-, hSearch⟩ := hSame _ t' hAdd hAdd'
  have hEntails : entails (⟨[.declare ⟨"C", [intInstance, listInstance]⟩]⟩ : ClassContext) [] 2
      ⟨"C", listOf intType⟩ = .ok true := by decide +kernel
  obtain ⟨-, hGiven, -⟩ := hSearch 2 [⟨"C", listOf intType⟩]
    (List.forall_mem_singleton.mpr ⟨rfl, rfl⟩)
  exact ⟨_, t', hAdd, hAdd', hEntails,
    (hGiven [] _ List.mem_cons_self).symm.trans hEntails⟩

end HindleyMilner.Classes
