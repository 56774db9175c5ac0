import HindleyMilner.Proofs.Classes.Escape
import HindleyMilner.Proofs.Classes.Matching

/-! Instances that overlap. An instance is refused if its head unifies with the head of
an instance that is there, after the variables of both were renamed apart. If two heads
match one type they unify, so at most one instance of a class ever applies. -/
namespace HindleyMilner.Classes

open Context

/-- A variable carries the kind that it has, and is replaced by a type of that
kind if it is replaced. -/
def Fits (τ : Assignment Ty) (kinds : Name → Kind) : language.Scope := fun x k =>
  k = kinds x ∧ ∀ u, τ x = some u → u.kind = .ok k

namespace Ty

variable {τ : Assignment Ty} {kinds : Name → Kind}

/-- Where variables carry the kinds they have, an assignment that fits replaces
them by types of those kinds. -/
theorem Annotated.respects {t : Ty} (h : t.Annotated (Fits τ kinds)) : Respects τ t :=
  fun p hp => (h p hp).2

theorem annotated_app {K : language.Scope} {f a : Ty} :
    (app f a).Annotated K ↔ f.Annotated K ∧ a.Annotated K := List.forall_mem_append

/-- What is put for a variable that occurs in a type is not larger than what
becomes of the type. The occurs check rests on this. -/
theorem size_subst_le {x : Name} {t : Ty} (hx : x ∈ t.freeVars) (k : Kind) :
    ((var x k).subst τ).size ≤ (t.subst τ).size := by
  induction t with
  | var y j =>
      rw [List.mem_singleton.mp hx, subst, subst]
      cases τ y with
      | some u => exact Nat.le_refl _
      | none => exact Nat.le_refl _
  | con c j => cases hx
  | app f a ihf iha =>
      rw [subst.eq_def _ (app f a)]
      simp only [size]
      rcases List.mem_append.mp hx with hx | hx
      · have := ihf hx
        omega
      · have := iha hx
        omega

/-- A variable is not equal to a type that mentions it, unless it is
that type, because what is put for the type would be larger than what is
put for the variable. -/
theorem not_mem_of_subst_eq {x : Name} {k : Kind} {t : Ty}
    (h : (var x k).subst τ = t.subst τ) (hVar : t.asVar? ≠ some x) : x ∉ t.freeVars := by
  intro hx
  cases t with
  | var y j =>
      rw [List.mem_singleton.mp hx] at hVar
      exact hVar rfl
  | con c j => cases hx
  | app f a =>
      have hSize : ((var x k).subst τ).size = (f.subst τ).size + (a.subst τ).size + 1 := by
        rw [h, subst, size]
      rcases List.mem_append.mp hx with hx | hx
      · have := size_subst_le (τ := τ) hx k
        omega
      · have := size_subst_le (τ := τ) hx k
        omega

/-- A variable may be replaced by a type before both are
instantiated to the same. -/
theorem subst_subst1 {x : Name} {k : Kind} {u t : Ty} (hx : k = kinds x)
    (h : (var x k).subst τ = u.subst τ) (ht : t.Annotated (Fits τ kinds)) :
    (subst1 x u t).subst τ = t.subst τ := by
  induction t with
  | var y j =>
      have hj : j = kinds y := (ht (y, j) List.mem_cons_self).1
      by_cases hy : y = x
      · rw [hy, ← hx] at hj
        rw [hy, hj, h]
        simp [subst1, HindleyMilner.subst, subst, Assignment.single]
      · simp [subst1, HindleyMilner.subst, subst, Assignment.single, hy]
  | con c j => rfl
  | app f a ihf iha =>
      obtain ⟨hf, ha⟩ := annotated_app.mp ht
      exact congrArg₂ app (ihf hf) (iha ha)

theorem asVar?_ne {t : Ty} (h : ∀ x k, t = var x k → False) {x : Name} : t.asVar? ≠ some x := by
  cases t with
  | var y k => exact (h y k rfl).elim
  | _ => simp [asVar?]

/-- Putting a type for a variable keeps both parts annotated. -/
theorem annotated_subst1 {K : language.Scope} {x : Name} {u t : Ty} (hu : u.Annotated K)
    (ht : t.Annotated K) : (subst1 x u t).Annotated K := by
  refine Annotated.subst (fun y j _ hy => ?_) ht
  by_cases hEq : y = x
  · exact .inl ⟨u, if_pos hEq, hu⟩
  · exact .inr ⟨if_neg hEq, hy⟩

end Ty

namespace Equations

/-- An assignment solves equations whose variables carry the given kinds. -/
structure SolvedBy (τ : Assignment Ty) (kinds : Name → Kind) (eqs : Equations) : Prop where
  equal : ∀ e ∈ eqs, e.1.subst τ = e.2.subst τ
  annotated : ∀ e ∈ eqs, e.1.Annotated (Fits τ kinds) ∧ e.2.Annotated (Fits τ kinds)

variable {τ : Assignment Ty} {kinds : Name → Kind}

/-- A list of equations is solved if its first equation and the rest are. -/
theorem solvedBy_cons {l r : Ty} {eqs : Equations} :
    SolvedBy τ kinds ((l, r) :: eqs) ↔
      (l.subst τ = r.subst τ ∧ l.Annotated (Fits τ kinds) ∧ r.Annotated (Fits τ kinds)) ∧
        SolvedBy τ kinds eqs := by
  constructor
  · rintro ⟨hEqual, hAnnotated⟩
    obtain ⟨hHead, hTail⟩ := List.forall_mem_cons.mp hEqual
    obtain ⟨hHead', hTail'⟩ := List.forall_mem_cons.mp hAnnotated
    exact ⟨⟨hHead, hHead'⟩, hTail, hTail'⟩
  · rintro ⟨⟨hHead, hHead'⟩, hTail, hTail'⟩
    exact ⟨List.forall_mem_cons.mpr ⟨hHead, hTail⟩, List.forall_mem_cons.mpr ⟨hHead', hTail'⟩⟩

/-- What is known of a variable that is bound to a type: it does not
occur in the type, has its kind, and the other equations are still
solved after it is replaced. -/
theorem SolvedBy.bind {x : Name} {k : Kind} {t : Ty} {eqs : Equations}
    (hEq : (Ty.var x k).subst τ = t.subst τ) (hx : (Ty.var x k).Annotated (Fits τ kinds))
    (ht : t.Annotated (Fits τ kinds)) (h : SolvedBy τ kinds eqs) (hVar : t.asVar? ≠ some x) :
    (t.hasKind k = true ∧ x ∉ t.freeVars) ∧ SolvedBy τ kinds (eqs.subst1 x t) := by
  have hk : k = kinds x := (hx (x, k) List.mem_cons_self).1
  refine ⟨⟨?_, Ty.not_mem_of_subst_eq hEq hVar⟩, ?_, ?_⟩
  · rw [Ty.hasKind_iff, ← Ty.kind_subst ht.respects, ← hEq, Ty.kind_subst hx.respects]
    rfl
  · intro e he
    obtain ⟨e₀, he₀, rfl⟩ := List.mem_map.mp he
    obtain ⟨hl, hr⟩ := h.annotated e₀ he₀
    rw [Ty.subst_subst1 hk hEq hl, Ty.subst_subst1 hk hEq hr]
    exact h.equal e₀ he₀
  · intro e he
    obtain ⟨e₀, he₀, rfl⟩ := List.mem_map.mp he
    obtain ⟨hl, hr⟩ := h.annotated e₀ he₀
    exact ⟨Ty.annotated_subst1 ht hl, Ty.annotated_subst1 ht hr⟩

/-- Unification succeeds if some assignment solves all equations. The induction
follows the algorithm: an assignment that solves the equations solves what is
left of them, and it would solve none at which unification gives up. -/
theorem SolvedBy.isSome_unify {eqs : Equations} (h : SolvedBy τ kinds eqs) :
    eqs.unify.isSome = true := by
  fun_induction Equations.unify eqs with
  | case1 => rfl
  | case2 x k t eqs hSame ih => exact ih (solvedBy_cons.mp h).2
  | case3 x k t eqs hVar hBind ih =>
      obtain ⟨⟨hEq, hx, ht⟩, hRest⟩ := solvedBy_cons.mp h
      rw [Option.isSome_map]
      exact ih (hRest.bind hEq hx ht hVar).2
  | case4 x k t eqs hVar hBind =>
      obtain ⟨⟨hEq, hx, ht⟩, hRest⟩ := solvedBy_cons.mp h
      exact absurd (hRest.bind hEq hx ht hVar).1 hBind
  | case5 t x k eqs hRigid hBind ih =>
      obtain ⟨⟨hEq, ht, hx⟩, hRest⟩ := solvedBy_cons.mp h
      rw [Option.isSome_map]
      exact ih (hRest.bind hEq.symm hx ht (Ty.asVar?_ne hRigid)).2
  | case6 t x k eqs hRigid hBind =>
      obtain ⟨⟨hEq, ht, hx⟩, hRest⟩ := solvedBy_cons.mp h
      exact absurd (hRest.bind hEq.symm hx ht (Ty.asVar?_ne hRigid)).1 hBind
  | case7 k c j eqs ih => exact ih (solvedBy_cons.mp h).2
  | case8 a k b j eqs hNe =>
      obtain ⟨⟨hEq, -⟩, -⟩ := solvedBy_cons.mp h
      exact absurd (Ty.con.inj hEq).1 hNe
  | case9 f a g b eqs ih =>
      obtain ⟨⟨hEq, hl, hr⟩, hRest⟩ := solvedBy_cons.mp h
      obtain ⟨hFunction, hArgument⟩ := Ty.app.inj hEq
      obtain ⟨hf, ha⟩ := Ty.annotated_app.mp hl
      obtain ⟨hg, hb⟩ := Ty.annotated_app.mp hr
      have hParts := solvedBy_cons.mpr ⟨⟨hArgument, ha, hb⟩, hRest⟩
      exact ih (solvedBy_cons.mpr ⟨⟨hFunction, hf, hg⟩, hParts⟩)
  | case10 c k f a eqs =>
      obtain ⟨⟨hEq, -⟩, -⟩ := solvedBy_cons.mp h
      cases hEq
  | case11 f a c k eqs =>
      obtain ⟨⟨hEq, -⟩, -⟩ := solvedBy_cons.mp h
      cases hEq

end Equations

/-- The type that an instance makes a member of its class, and those that it
needs predicates on. -/
def instanceTypes (scheme : TypeScheme) : List Ty :=
  scheme.body.head :: scheme.body.predicates.map Predicate.argument

/-- An instance that quantifies all its variables, each at one kind that its
occurrences carry, and that uses constructors at the kinds of the signature. -/
structure Regular (σ : Signature) (scheme : TypeScheme) : Prop where
  kinded : ∀ p ∈ scheme.quantified, ∀ q ∈ scheme.quantified, p.1 = q.1 → p = q
  annotated : ∀ t ∈ instanceTypes scheme, ∀ p ∈ t.occurrences, p ∈ scheme.quantified
  typesOver : ∀ t ∈ instanceTypes scheme, t.Over σ

namespace Regular

variable {σ : Signature} {scheme : TypeScheme} (h : Regular σ scheme)

include h

theorem head_annotated {p : Name × Kind} (hp : p ∈ scheme.body.head.occurrences) :
    p ∈ scheme.quantified := h.annotated _ List.mem_cons_self p hp

theorem head_over : scheme.body.head.Over σ := h.typesOver _ List.mem_cons_self

end Regular

/-- New names with their kinds, and what they are to be replaced by. -/
abbrev Slots := List (Name × Kind × Option Ty)

namespace Slots

def assignment (slots : Slots) : Assignment Ty := fun x => (slots.lookup x).bind Prod.snd

def kinds (slots : Slots) (x : Name) : Kind := ((slots.lookup x).map Prod.fst).getD .data

/-- The names that a scheme is renamed to, where its variables are to be
replaced by what an assignment gives them. -/
def ofScheme (scheme : TypeScheme) (supply : Supply) (τ : Assignment Ty) : Slots :=
  (scheme.quantified.zip (supply.drawMany "tc" scheme.quantified.length).1).map
    fun ((x, k), new) => (new, k, τ x)

/-- The new names of an instance are those drawn for its quantified
variables, in their order. -/
theorem map_fst_ofScheme (scheme : TypeScheme) (supply : Supply) (τ : Assignment Ty) :
    (ofScheme scheme supply τ).map Prod.fst =
      (supply.drawMany "tc" scheme.quantified.length).1 := by
  rw [ofScheme, List.map_map]
  exact List.map_snd_zip (by simp)

variable {slots : Slots} (hNodup : (slots.map Prod.fst).Nodup)

include hNodup

/-- In slots without repetition a new name stands for what its slot says. -/
theorem assignment_of_mem {new : Name} {k : Kind} {u : Option Ty} (h : (new, k, u) ∈ slots) :
    slots.assignment new = u := by
  rw [assignment, Name.lookup_of_nodup hNodup h]
  rfl

/-- It also has the kind of its slot. -/
theorem kinds_of_mem {new : Name} {k : Kind} {u : Option Ty} (h : (new, k, u) ∈ slots) :
    slots.kinds new = k := by
  rw [kinds, Name.lookup_of_nodup hNodup h]
  rfl

end Slots

/-- A quantified variable is renamed to a variable of its kind, which has a slot
for what it is to be replaced by. -/
theorem instantiate_of_mem {scheme : TypeScheme} (supply : Supply) {x : Name} {k : Kind}
    (hKinded : ∀ p ∈ scheme.quantified, ∀ q ∈ scheme.quantified, p.1 = q.1 → p = q)
    (h : (x, k) ∈ scheme.quantified) (τ : Assignment Ty) :
    ∃ new, (new, k, τ x) ∈ Slots.ofScheme scheme supply τ ∧
      Assignment.ofPairs ((scheme.quantified.zip
        (supply.drawMany "tc" scheme.quantified.length).1).map
          fun ((old, kind), new) => (old, Ty.var new kind)) x = some (.var new k) := by
  have hQuantified : (scheme.quantified.zip
      (supply.drawMany "tc" scheme.quantified.length).1).map Prod.fst = scheme.quantified :=
    List.map_fst_zip (by simp)
  have hLookup : scheme.quantified.reverse.lookup x = some k := by
    obtain ⟨j, hj⟩ := Name.exists_lookup
      (List.mem_map_of_mem (f := Prod.fst) (List.mem_reverse.mpr h))
    have hMem := List.mem_reverse.mp (Name.mem_of_lookup hj)
    cases hKinded _ h _ hMem rfl
    exact hj
  rw [← hQuantified, ← List.map_reverse] at hLookup
  obtain ⟨new, hMem, hRenamed⟩ := lookup_renamed (L := language) hLookup
  rw [List.map_reverse] at hRenamed
  exact ⟨new, List.mem_map.mpr ⟨_, List.mem_reverse.mp hMem, rfl⟩, hRenamed⟩

/-- The head of an instance is renamed to a type that has the same instances.
The slots say what each new name is to be replaced by, namely what the name it
stands for was replaced by. -/
theorem renamed_head {σ : Signature} {scheme : TypeScheme} (h : Regular σ scheme) (supply : Supply)
    {τ : Assignment Ty} (hτ : ∀ p ∈ scheme.body.head.occurrences,
      ∃ u, τ p.1 = some u ∧ u.kind = .ok p.2)
    {slots : Slots} (hNodup : (slots.map Prod.fst).Nodup)
    (hSlots : Slots.ofScheme scheme supply τ ⊆ slots) :
    (scheme.instantiate supply "tc" .var).body.head.subst slots.assignment =
        scheme.body.head.subst τ ∧
      (scheme.instantiate supply "tc" .var).body.head.Annotated
        (Fits slots.assignment slots.kinds) := by
  have hAll : ∀ p ∈ scheme.body.head.occurrences, p ∈ scheme.quantified ∧
      ∃ u, τ p.1 = some u ∧ u.kind = .ok p.2 := fun p hp => ⟨h.head_annotated hp, hτ p hp⟩
  change (Ty.subst _ scheme.body.head).subst _ = _ ∧ (Ty.subst _ scheme.body.head).Annotated _
  generalize scheme.body.head = t at hAll
  induction t with
  | var x k =>
      obtain ⟨hQuantified, u, hu, hKind⟩ := hAll (x, k) List.mem_cons_self
      obtain ⟨new, hNew, hRenamed⟩ := instantiate_of_mem supply h.kinded hQuantified τ
      have hMem := hSlots hNew
      rw [Ty.subst, hRenamed]
      refine ⟨?_, fun p hp => ?_⟩
      · change (slots.assignment new).getD _ = (τ x).getD _
        rw [Slots.assignment_of_mem hNodup hMem, hu]
        rfl
      · rw [List.mem_singleton.mp hp]
        refine ⟨(Slots.kinds_of_mem hNodup hMem).symm, fun v hv => ?_⟩
        rw [Slots.assignment_of_mem hNodup hMem, hu] at hv
        cases hv
        exact hKind
  | con c k => exact ⟨rfl, List.forall_mem_nil _⟩
  | app f a ihf iha =>
      obtain ⟨hf, hfAnnotated⟩ := ihf fun p hp => hAll p (List.mem_append_left _ hp)
      obtain ⟨ha, haAnnotated⟩ := iha fun p hp => hAll p (List.mem_append_right _ hp)
      exact ⟨congrArg₂ Ty.app hf ha, Ty.annotated_app.mpr ⟨hfAnnotated, haAnnotated⟩⟩

/-- Renaming instances only adds to the names drawn. -/
theorem drawn_le_freshHeads (supply : Supply) (instances : List TypeScheme) :
    supply.drawn "tc" ≤ (freshHeads supply instances).2.drawn "tc" := by
  induction instances generalizing supply with
  | nil => exact Nat.le_refl _
  | cons first rest ih =>
      refine Nat.le_trans ?_ (ih _)
      change _ ≤ (supply.drawMany "tc" _).2.drawn "tc"
      rw [Supply.drawn_drawMany, if_pos rfl]
      exact Nat.le_add_right _ _

/-- The names for the first instance of a list are drawn before the list is done. -/
theorem drawn_first_le (supply : Supply) (first : TypeScheme) (rest : List TypeScheme) :
    supply.drawn "tc" + first.quantified.length ≤
      (freshHeads supply (first :: rest)).2.drawn "tc" := by
  refine Nat.le_trans (Nat.le_of_eq ?_) (drawn_le_freshHeads _ rest)
  change _ = (supply.drawMany "tc" _).2.drawn "tc"
  rw [Supply.drawn_drawMany, if_pos rfl]

/-- The head of every instance of a list is renamed, and all names that it is
given are drawn before the list is done. -/
theorem mem_freshHeads (supply : Supply) {instances : List TypeScheme} {scheme : TypeScheme}
    (h : scheme ∈ instances) :
    ∃ before : Supply,
      (scheme, (scheme.instantiate before "tc" .var).body.head) ∈ (freshHeads supply instances).1 ∧
      before.drawn "tc" + scheme.quantified.length ≤
        (freshHeads supply instances).2.drawn "tc" := by
  induction instances generalizing supply with
  | nil => cases h
  | cons first rest ih =>
      rcases List.mem_cons.mp h with rfl | h
      · exact ⟨supply, List.mem_cons_self, drawn_first_le supply scheme rest⟩
      · obtain ⟨before, hMem, hDrawn⟩ := ih _ h
        exact ⟨before, List.mem_cons_of_mem _ hMem, hDrawn⟩

/-- Names that are drawn later are other names. -/
theorem disjoint_drawMany {before after : Supply} {stem : String} {m n : Nat}
    (h : before.drawn stem + m ≤ after.drawn stem) :
    List.Disjoint (before.drawMany stem m).1 (after.drawMany stem n).1 := by
  intro x hx hy
  obtain ⟨i, _, hTo, rfl⟩ := Supply.mem_drawMany.mp hx
  obtain ⟨j, hFrom, _, hEq⟩ := Supply.mem_drawMany.mp hy
  have hNumber := Supply.numbered_inj.mp hEq
  omega

/-- Two instances are renamed apart if the names for one are drawn after
those for the other. -/
theorem Slots.nodup_apart {a b : TypeScheme} {before after : Supply}
    (h : before.drawn "tc" + a.quantified.length ≤ after.drawn "tc") (τ τ' : Assignment Ty) :
    ((ofScheme a before τ ++ ofScheme b after τ').map Prod.fst).Nodup := by
  rw [List.map_append, map_fst_ofScheme, map_fst_ofScheme]
  exact List.nodup_append'.mpr ⟨Supply.nodup_drawMany _ _, Supply.nodup_drawMany _ _,
    disjoint_drawMany h⟩

/-- Two instances apply to one type. -/
def Clash (σ : Signature) (a b : TypeScheme) : Prop :=
  ∃ t : Ty, t.Over σ ∧ (a.body.head.matchWith t).isSome ∧ (b.body.head.matchWith t).isSome

/-- An instance that applies where one that is there applies is refused. Their
heads are renamed apart, so one assignment can take both to the type that they
apply to, and unification finds that they overlap. -/
theorem isSome_findOverlap {σ : Signature} {existing : List TypeScheme}
    {scheme candidate : TypeScheme} (hMem : scheme ∈ existing) (hScheme : Regular σ scheme)
    (hCandidate : Regular σ candidate) (hClash : Clash σ scheme candidate) :
    (findOverlap existing candidate).isSome = true := by
  obtain ⟨t, ht, hMatch, hMatch'⟩ := hClash
  obtain ⟨m, hm⟩ := Option.isSome_iff_exists.mp hMatch
  obtain ⟨m', hm'⟩ := Option.isSome_iff_exists.mp hMatch'
  obtain ⟨before, hFresh, hDrawn⟩ := mem_freshHeads .empty hMem
  let after := (freshHeads .empty existing).2
  let slots := Slots.ofScheme scheme before m.toAssignment ++
    Slots.ofScheme candidate after m'.toAssignment
  have hNodup : (slots.map Prod.fst).Nodup := Slots.nodup_apart hDrawn _ _
  obtain ⟨hHead, hAnnotated⟩ := renamed_head hScheme before
    (fun p hp => (Ty.matched_of_matchWith hm).kind_of_mem hp) hNodup (List.subset_append_left _ _)
  obtain ⟨hHead', hAnnotated'⟩ := renamed_head hCandidate after
    (fun p hp => (Ty.matched_of_matchWith hm').kind_of_mem hp) hNodup (List.subset_append_right _ _)
  -- Both renamed heads have the type as an instance.
  have hSame : (scheme.instantiate before "tc" .var).body.head.subst slots.assignment =
      (candidate.instantiate after "tc" .var).body.head.subst slots.assignment := by
    rw [hHead, hHead', (Ty.matched_of_matchWith hm).subst_eq hScheme.head_over ht,
      (Ty.matched_of_matchWith hm').subst_eq hCandidate.head_over ht]
  have hOverlaps : (scheme.instantiate before "tc" .var).body.head.overlaps
      (candidate.instantiate after "tc" .var).body.head = true := by
    have hSolved : Equations.SolvedBy slots.assignment slots.kinds [(_, _)] :=
      Equations.solvedBy_cons.mpr ⟨⟨hSame, hAnnotated, hAnnotated'⟩,
        ⟨List.forall_mem_nil _, List.forall_mem_nil _⟩⟩
    exact hSolved.isSome_unify
  rw [findOverlap, Option.isSome_map, List.find?_isSome]
  exact ⟨_, hFresh, hOverlaps⟩

/-- States that come about by declaring classes and regular instances of
them, from a state without declarations. Entries that declare nothing may
be added in between. -/
inductive Registered (σ : Signature) : ClassState → Prop where
  | start {s : ClassState} (h : s.context.decls = []) : Registered σ s
  | push {s : ClassState} (h : Registered σ s) (e : Entry language) (he : ∀ d, e ≠ .declare d) :
      Registered σ (s.push e)
  | addClass {s t : ClassState} (h : Registered σ s) (name : Name)
      (hAdd : addClass s name = .ok t) : Registered σ t
  | addInstance {s t : ClassState} (h : Registered σ s) (name : Name) {scheme : TypeScheme}
      (hScheme : Regular σ scheme) (hAdd : addInstance s name scheme = .ok t) : Registered σ t

/-- A class of regular instances of which no two apply to one type. -/
structure Coherent (σ : Signature) (d : ClassDecl) : Prop where
  regular : ∀ scheme ∈ d.instances, Regular σ scheme
  apart : d.instances.Pairwise fun a b => ¬Clash σ a b

/-- Coherent classes with different names. -/
structure Consistent (σ : Signature) (classes : List ClassDecl) : Prop where
  nodup : (classes.map ClassDecl.name).Nodup
  coherent : ∀ d ∈ classes, Coherent σ d

/-- A class with an instance added, if it is the one of the given name. -/
def ClassDecl.extend (name : Name) (scheme : TypeScheme) (d : ClassDecl) : ClassDecl :=
  if d.name = name then { d with instances := d.instances ++ [scheme] } else d

/-- A class keeps its name when an instance is added. -/
theorem ClassDecl.name_comp_extend (name : Name) (scheme : TypeScheme) :
    ClassDecl.name ∘ ClassDecl.extend name scheme = ClassDecl.name := by
  funext d
  rw [Function.comp, extend]
  split <;> rfl

/-- A class is declared only if there was none of its name, and it
starts without instances. -/
theorem addClass_eq_ok {s t : ClassState} {name : Name} (h : addClass s name = .ok t) :
    name ∉ s.context.decls.map ClassDecl.name ∧
      t.context.decls = s.context.decls ++ [⟨name, []⟩] := by
  rw [addClass] at h
  cases hClass : findClass s.context name with
  | some d =>
      rw [hClass] at h
      cases h
  | none =>
      rw [hClass] at h
      cases h
      refine ⟨fun hMem => ?_, by simp [decls, State.push, Context.push]⟩
      obtain ⟨d, hd, rfl⟩ := List.mem_map.mp hMem
      have hFound := List.find?_eq_none.mp hClass d hd
      simp at hFound

/-- An instance is added only to a declared class and only if it overlaps with
none that is there. It goes to the end of the instances of that class. -/
theorem addInstance_eq_ok {s t : ClassState} {name : Name} {scheme : TypeScheme}
    (h : addInstance s name scheme = .ok t) :
    (∃ d, findClass s.context name = some d ∧ findOverlap d.instances scheme = none) ∧
      t.context.decls = s.context.decls.map (ClassDecl.extend name scheme) := by
  rw [addInstance] at h
  cases hClass : findClass s.context name with
  | none =>
      rw [hClass] at h
      cases h
  | some d =>
      simp only [hClass] at h
      cases hNone : findOverlap d.instances scheme with
      | some existing =>
          rw [hNone] at h
          cases h
      | none =>
          rw [hNone] at h
          cases h
          refine ⟨⟨d, rfl, hNone⟩, ?_⟩
          rw [decls, decls, List.filterMap_map, List.map_filterMap]
          congr 1
          funext e
          cases e with
          | declare d =>
              by_cases hName : d.name = name
              · simp [extendEntry, ClassDecl.extend, hName]
              · simp [extendEntry, ClassDecl.extend, hName]
          | _ => rfl

/-- It is added if the class is declared and there is no overlap. -/
theorem addInstance_of_apart {s : ClassState} {name : Name} {d : ClassDecl} {scheme : TypeScheme}
    (hClass : findClass s.context name = some d) (h : findOverlap d.instances scheme = none) :
    addInstance s name scheme =
      .ok { s with context := ⟨s.context.entries.map (extendEntry name scheme)⟩ } := by
  rw [addInstance, hClass]
  simp only [h]

/-- A new class of a new name keeps the declarations consistent. -/
theorem Consistent.addClass {σ : Signature} {classes : List ClassDecl} (h : Consistent σ classes)
    {name : Name} (hName : name ∉ classes.map ClassDecl.name) :
    Consistent σ (classes ++ [⟨name, []⟩]) where
  nodup := by
    rw [List.map_append, List.nodup_append']
    refine ⟨h.nodup, List.nodup_singleton _, fun x hx hx' => hName ?_⟩
    rw [List.mem_singleton.mp hx'] at hx
    exact hx
  coherent := List.forall_mem_append.mpr ⟨h.coherent,
    List.forall_mem_singleton.mpr ⟨List.forall_mem_nil _, List.Pairwise.nil⟩⟩

/-- An instance is added that does not overlap with those of its class. -/
theorem Coherent.extend {σ : Signature} {d : ClassDecl} (h : Coherent σ d) {scheme : TypeScheme}
    (hScheme : Regular σ scheme) (hNone : findOverlap d.instances scheme = none) :
    Coherent σ { d with instances := d.instances ++ [scheme] } where
  regular := List.forall_mem_append.mpr ⟨h.regular, List.forall_mem_singleton.mpr hScheme⟩
  apart := by
    refine List.pairwise_append.mpr ⟨h.apart, List.pairwise_singleton _ _, ?_⟩
    intro a ha b hb hClash
    rw [List.mem_singleton.mp hb] at hClash
    have hSome := isSome_findOverlap ha (h.regular a ha) hScheme hClash
    rw [hNone] at hSome
    cases hSome

/-- So does an instance that is accepted, as it goes to the one class of its
name and applies to no type to which one that is there applies. -/
theorem Consistent.addInstance {σ : Signature} {s t : ClassState}
    (h : Consistent σ s.context.decls) {name : Name} {scheme : TypeScheme}
    (hScheme : Regular σ scheme) (hAdd : Classes.addInstance s name scheme = .ok t) :
    Consistent σ t.context.decls := by
  obtain ⟨⟨found, hFound, hNone⟩, hDecls⟩ := addInstance_eq_ok hAdd
  rw [hDecls]
  refine ⟨?_, fun d' hd' => ?_⟩
  · rw [List.map_map, ClassDecl.name_comp_extend]
    exact h.nodup
  · obtain ⟨d, hd, rfl⟩ := List.mem_map.mp hd'
    rw [ClassDecl.extend]
    by_cases hName : d.name = name
    · rw [if_pos hName]
      -- The class that was found is the only one of its name.
      have hFoundName : found.name = name := by simpa using List.find?_some hFound
      obtain rfl : d = found := List.inj_on_of_nodup_map h.nodup hd
        (List.mem_of_find?_eq_some hFound) (hName.trans hFoundName.symm)
      exact (h.coherent d hd).extend hScheme hNone
    · rw [if_neg hName]
      exact h.coherent d hd

/-- What declaring classes and instances keeps. -/
theorem Registered.consistent {σ : Signature} {s : ClassState} (h : Registered σ s) :
    Consistent σ s.context.decls := by
  induction h with
  | start hNone =>
      rw [hNone]
      exact ⟨List.nodup_nil, List.forall_mem_nil _⟩
  | push _ e he ih =>
      rw [State.push, decls_push _ he]
      exact ih
  | addClass _ name hAdd ih =>
      obtain ⟨hName, hDecls⟩ := addClass_eq_ok hAdd
      rw [hDecls]
      exact ih.addClass hName
  | addInstance _ name hScheme hAdd ih => exact ih.addInstance hScheme hAdd

/-- At most one instance of a class applies to a type. -/
theorem Coherent.length_filter_le {σ : Signature} {d : ClassDecl} (h : Coherent σ d) {t : Ty}
    (ht : t.Over σ) :
    (d.instances.filter fun scheme => (scheme.body.head.matchWith t).isSome).length ≤ 1 := by
  have hApart := h.apart.filter fun scheme => (scheme.body.head.matchWith t).isSome
  have hMatch : ∀ scheme ∈ d.instances.filter fun scheme => (scheme.body.head.matchWith t).isSome,
      (scheme.body.head.matchWith t).isSome = true := fun _ hMem => (List.mem_filter.mp hMem).2
  generalize d.instances.filter _ = applicable at hApart hMatch
  match applicable with
  | [] => exact Nat.zero_le _
  | [_] => exact Nat.le_refl _
  | a :: b :: _ =>
      have hNone := (List.pairwise_cons.mp hApart).1 b List.mem_cons_self
      refine absurd ⟨t, ht, hMatch a List.mem_cons_self, hMatch b ?_⟩ hNone
      exact List.mem_cons_of_mem _ List.mem_cons_self

/-- However classes and instances were declared, each class is declared once,
and at most one of its instances applies to a type. -/
theorem instance_unique {σ : Signature} {s : ClassState} (h : Registered σ s) :
    (s.context.decls.map ClassDecl.name).Nodup ∧
    ∀ d ∈ s.context.decls, ∀ t : Ty, t.Over σ →
      (d.instances.filter fun scheme => (scheme.body.head.matchWith t).isSome).length ≤ 1 :=
  ⟨h.consistent.nodup, fun d hd _ ht => (h.consistent.coherent d hd).length_filter_le ht⟩

def listSignature : Signature := fun c => if c = "list" then .constructor 1 else .data

def intType : Ty := .con "int" .data

def listOf (t : Ty) : Ty := .app (.con "list" (.constructor 1)) t

def intInstance : TypeScheme := ⟨[], .ofType intType⟩

def listInstance : TypeScheme :=
  ⟨[("a", .data)], ⟨[⟨"C", .var "a" .data⟩], listOf (.var "a" .data)⟩⟩

/-- A class with two instances, which were added after something was bound. -/
def listState : ClassState :=
  ⟨.empty, ⟨[.declare ⟨"C", [intInstance, listInstance]⟩, .bind "x" (.mono intType)]⟩⟩

theorem regular_intInstance : Regular listSignature intInstance :=
  ⟨by decide, by decide, List.forall_mem_singleton.mpr rfl⟩

theorem regular_listInstance : Regular listSignature listInstance := by
  refine ⟨by decide, by decide, List.forall_mem_cons.mpr ⟨⟨rfl, trivial⟩, ?_⟩⟩
  exact List.forall_mem_singleton.mpr trivial

/-- The instances for integers and for lists do not overlap. -/
theorem findOverlap_listInstance : findOverlap [intInstance] listInstance = none := by
  rw [findOverlap, Option.map_eq_none_iff, List.find?_eq_none]
  intro found hFound
  cases List.mem_singleton.mp hFound
  change ¬(Equations.unify [(.con "int" .data, .app _ _)]).isSome = true
  simp [Equations.unify]

theorem registered_listState : Registered listSignature listState := by
  have hClass : Registered listSignature ⟨.empty, ⟨[.declare ⟨"C", []⟩]⟩⟩ :=
    .addClass (s := .empty) (.start rfl) "C" rfl
  have hBind := hClass.push (.bind "x" (.mono intType)) (by simp)
  refine .addInstance (.addInstance hBind "C" regular_intInstance rfl) "C" regular_listInstance ?_
  exact addInstance_of_apart (d := ⟨"C", [intInstance]⟩) rfl findOverlap_listInstance

/-- One instance applies to a list of integers. -/
theorem instance_unique_listState : Registered listSignature listState ∧
    ([intInstance, listInstance].filter
      fun scheme => (scheme.body.head.matchWith (listOf intType)).isSome).length ≤ 1 :=
  ⟨registered_listState, (instance_unique registered_listState).2 ⟨"C", _⟩ List.mem_cons_self _
    ⟨rfl, rfl⟩⟩

end HindleyMilner.Classes
