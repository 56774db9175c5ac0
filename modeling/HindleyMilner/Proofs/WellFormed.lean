import HindleyMilner.Proofs.Moves

/-! Well-formed contexts. What a type has to satisfy differs: its variables have
to be declared before it is used, and in a language with several kinds they have
to be used at the kinds they are declared with. A `Discipline` is any such
requirement that substitution and the solver respect. -/
namespace HindleyMilner

open Context

variable {L : Language}

namespace Name

variable {β : Type} {x : Name} {b : β} {pairs : List (Name × β)}

theorem mem_of_lookup (h : pairs.lookup x = some b) : (x, b) ∈ pairs := by
  obtain ⟨before, after, rfl, -⟩ := List.lookup_eq_some_iff.mp h
  exact List.mem_append_right _ List.mem_cons_self

theorem lookup_of_not_mem (h : x ∉ pairs.map Prod.fst) : pairs.lookup x = none := by
  refine List.lookup_eq_none_iff.mpr fun p hp => bne_iff_ne.mpr ?_
  rintro rfl
  exact h (List.mem_map_of_mem hp)

theorem exists_lookup (h : x ∈ pairs.map Prod.fst) : ∃ b, pairs.lookup x = some b := by
  obtain ⟨p, hp, rfl⟩ := List.mem_map.mp h
  cases hLookup : pairs.lookup p.1 with
  | some b => exact ⟨b, rfl⟩
  | none => exact absurd rfl (bne_iff_ne.mp (List.lookup_eq_none_iff.mp hLookup p hp))

/-- Where names are different, the one that is found is the one that is there. -/
theorem lookup_of_nodup (hNodup : (pairs.map Prod.fst).Nodup) (h : (x, b) ∈ pairs) :
    pairs.lookup x = some b := by
  obtain ⟨before, after, rfl⟩ := List.append_of_mem h
  refine List.lookup_eq_some_iff.mpr ⟨before, after, rfl, fun p hp => bne_iff_ne.mpr ?_⟩
  rw [List.map_append, List.nodup_append] at hNodup
  exact (hNodup.2.2 p.1 (List.mem_map_of_mem hp) x List.mem_cons_self).symm

/-- So a name has at most one partner. -/
theorem eq_of_nodup {c : β} (hNodup : (pairs.map Prod.fst).Nodup) (hb : (x, b) ∈ pairs)
    (hc : (x, c) ∈ pairs) : b = c := by
  have hSame := lookup_of_nodup hNodup hb
  rw [lookup_of_nodup hNodup hc] at hSame
  exact (Option.some.inj hSame).symm

end Name

/-- Which variables may be used, and at which kinds. -/
abbrev Language.Scope (L : Language) := Name → L.Kind → Prop

def Language.Telescope.Declares (K : L.Telescope) : L.Scope := fun x k => (x, k) ∈ K

/-- What may be used under the quantifiers of a scheme. A variable that is
quantified twice has the kind given last. -/
def Scheme.Within (s : L.Scheme) (K : L.Scope) : L.Scope := fun x k =>
  s.quantified.reverse.lookup x = some k ∨ (x ∉ s.quantified.map Prod.fst ∧ K x k)

/-- What types and goals have to satisfy. -/
structure Sorting (L : Language) where
  /-- A type has a kind. -/
  Ty : L.Scope → L.Ty → L.Kind → Prop
  /-- The kinds of types that are equated. -/
  Equated : L.Kind → Prop
  /-- A goal that equates no types makes sense. -/
  Special : L.Scope → L.Special → Prop

namespace Sorting

variable [Sized L] (S : Sorting L)

def Equation (K : L.Scope) (l r : L.Ty) : Prop := ∃ k, S.Equated k ∧ S.Ty K l k ∧ S.Ty K r k

def Goal (K : L.Scope) : Goal L → Prop
  | .eq l r => S.Equation K l r
  | .special g =>
      match Sized.specialSides g with
      | some (l, r) => S.Equation K l r
      | none => S.Special K g

def Scheme (K : L.Scope) (s : L.Scheme) : Prop := S.Ty (s.Within K) s.body.head L.valueKind

/-- An entry that makes sense where some variables are declared. -/
def Entry (K : L.Telescope) : Entry L → Prop
  | .define _ type kind => S.Ty K.Declares type kind
  | .bind _ scheme => S.Scheme K.Declares scheme
  | .constraint c => S.Goal (Language.Telescope.Declares (K ++ c.deps)) c.goal
  | _ => True

/-- Every entry makes sense with the variables declared before it. -/
def Scoped (K : L.Telescope) : List (HindleyMilner.Entry L) → Prop
  | [] => True
  | e :: es => S.Entry K e ∧ Scoped (K ++ e.declared) es

/-- Every variable is declared once, and before it is used. -/
structure WellFormed (es : List (HindleyMilner.Entry L)) : Prop where
  inScope : S.Scoped [] es
  nodup : ((declared es).map Prod.fst).Nodup

/-- A goal that equates two types makes sense if the equation does. -/
theorem goal_of_sides {K : L.Scope} {g : HindleyMilner.Goal L} {l r : L.Ty}
    (h : g.sides = some (l, r)) : S.Goal K g ↔ S.Equation K l r := by
  cases g with
  | eq a b => cases h; rfl
  | special g => simp only [Goal, show Sized.specialSides g = some (l, r) from h]

/-- Later entries are to make sense with what earlier ones declare. -/
theorem scoped_append {K : L.Telescope} {es fs : List (HindleyMilner.Entry L)} :
    S.Scoped K (es ++ fs) ↔ S.Scoped K es ∧ S.Scoped (K ++ declared es) fs := by
  induction es generalizing K with
  | nil =>
      change S.Scoped K fs ↔ True ∧ S.Scoped (K ++ []) fs
      rw [List.append_nil, true_and]
  | cons e es ih =>
      rw [List.cons_append, Scoped, Scoped, ih, declared_cons, List.append_assoc, and_assoc]

variable {S} in
/-- Some entries in the middle of a well-formed context. -/
theorem WellFormed.segment {pre old post : List (HindleyMilner.Entry L)}
    (h : S.WellFormed (pre ++ (old ++ post))) :
    S.Scoped (declared pre) old ∧ ((declared pre ++ declared old).map Prod.fst).Nodup := by
  have hNodup := h.nodup
  rw [declared_append, declared_append, ← List.append_assoc, List.map_append] at hNodup
  exact ⟨(S.scoped_append.mp (S.scoped_append.mp h.inScope).2).1, (List.nodup_append.mp hNodup).1⟩

theorem scoped_intros (K deps : L.Telescope) : S.Scoped K deps.intros := by
  induction deps generalizing K with
  | nil => trivial
  | cons d deps ih => exact ⟨trivial, ih _⟩

end Sorting

/-- A requirement that only looks at the variables that occur, and that
substitution and the rules of a language respect. -/
structure Discipline (L : Language) [Rules L] [Sized L] [FreeVars L.Special] extends
    Sorting L where
  ty_declared : ∀ {K : L.Scope} {t : L.Ty} {k : L.Kind}, Ty K t k →
    ∀ x ∈ freeVars t, ∃ j, K x j
  ty_mono : ∀ {K K' : L.Scope} {t : L.Ty} {k : L.Kind},
    (∀ x j, x ∈ freeVars t → K x j → K' x j) → Ty K t k → Ty K' t k
  special_mono : ∀ {K K' : L.Scope} {g : L.Special},
    (∀ x j, x ∈ freeVars g → K x j → K' x j) → Special K g → Special K' g
  ty_subst : ∀ {K K' : L.Scope} {σ : Assignment L.Ty} {t : L.Ty} {k : L.Kind},
    (∀ x j, x ∈ freeVars t → K x j →
      (∃ u, σ x = some u ∧ Ty K' u j) ∨ (σ x = none ∧ K' x j)) →
    Ty K t k → Ty K' (subst σ t) k
  ty_solve : ∀ {K : L.Scope} {x : Name} {l r : L.Ty} {j k : L.Kind},
    L.asVar? l = some x → (∀ i, K x i → i = j) → Ty K l k → Ty K r k → Ty K r j
  decompose : ∀ {K : L.Scope} {l r : L.Ty} {goals : List (Goal L)},
    toSorting.Equation K l r → Rules.decompose l r = .ok goals →
    ∀ g ∈ goals, toSorting.Goal K g
  equated_value : Equated L.valueKind
  ty_var : ∀ {K : L.Scope} {x : Name} {k : L.Kind}, K x k → Ty K (L.var x k) k
  ty_arrow : ∀ {K : L.Scope} {a b : L.Ty}, Ty K a L.valueKind → Ty K b L.valueKind →
    Ty K (L.arrow a b) L.valueKind
  ty_literal : ∀ {K : L.Scope} {value : Binary64} {t : L.Ty}, Rules.literal value = .ok t →
    Ty K t L.valueKind

namespace Discipline

variable [Rules L] [Sized L] [FreeVars L.Special] (D : Discipline L)

/-- An equation still makes sense where its variables are declared
with the same kinds. -/
theorem equation_mono {K K' : L.Scope} {l r : L.Ty}
    (h : ∀ x j, x ∈ freeVars l ++ freeVars r → K x j → K' x j) (hEquation : D.Equation K l r) :
    D.Equation K' l r := by
  obtain ⟨k, hk, hl, hr⟩ := hEquation
  exact ⟨k, hk, D.ty_mono (fun x j hx => h x j (List.mem_append_left _ hx)) hl,
    D.ty_mono (fun x j hx => h x j (List.mem_append_right _ hx)) hr⟩

theorem goal_mono {K K' : L.Scope} {g : Goal L}
    (h : ∀ x j, x ∈ g.freeVars → K x j → K' x j) (hGoal : D.Goal K g) : D.Goal K' g := by
  cases hSides : g.sides with
  | some sides =>
      rw [Goal.freeVars_of_sides hSides] at h
      rw [D.goal_of_sides hSides] at hGoal ⊢
      exact D.equation_mono h hGoal
  | none =>
      cases g with
      | eq l r => cases hSides
      | special g =>
          have hNone : Sized.specialSides g = none := hSides
          simp only [Sorting.Goal, Goal.freeVars, hNone] at h hGoal ⊢
          exact D.special_mono h hGoal

theorem scheme_mono {K K' : L.Scope} {s : L.Scheme} (h : ∀ x j, K x j → K' x j)
    (hScheme : D.Scheme K s) : D.Scheme K' s := by
  refine D.ty_mono (fun x j _ hx => ?_) hScheme
  exact hx.imp_right fun hFree => ⟨hFree.1, h x j hFree.2⟩

theorem entry_mono {K K' : L.Telescope} {e : Entry L} (h : K ⊆ K') (hEntry : D.Entry K e) :
    D.Entry K' e := by
  cases e with
  | define x type kind => exact D.ty_mono (fun _ _ _ hx => h hx) hEntry
  | bind x scheme => exact D.scheme_mono (fun _ _ hx => h hx) hEntry
  | constraint c =>
      refine D.goal_mono (fun x j _ hx => ?_) hEntry
      rcases List.mem_append.mp hx with hx | hx
      · exact List.mem_append_left _ (h hx)
      · exact List.mem_append_right _ hx
  | _ => trivial

theorem scoped_mono {K K' : L.Telescope} {es : List (Entry L)} (h : K ⊆ K')
    (hScoped : D.Scoped K es) : D.Scoped K' es := by
  induction es generalizing K K' with
  | nil => trivial
  | cons e es ih =>
      refine ⟨D.entry_mono h hScoped.1, ih (List.append_subset.mpr ⟨?_, ?_⟩) hScoped.2⟩
      · exact List.subset_append_of_subset_left _ h
      · exact List.subset_append_right _ _

/-- Entries may be replaced by others that make sense and declare no less. -/
theorem scoped_replace {K : L.Telescope} {pre old new post : List (Entry L)}
    (hSubset : declared old ⊆ declared new)
    (hNew : D.Scoped (K ++ declared pre) old → D.Scoped (K ++ declared pre) new)
    (h : D.Scoped K (pre ++ (old ++ post))) : D.Scoped K (pre ++ (new ++ post)) := by
  rw [D.scoped_append, D.scoped_append] at h ⊢
  refine ⟨h.1, hNew h.2.1, D.scoped_mono (List.append_subset.mpr ⟨?_, ?_⟩) h.2.2⟩
  · exact List.subset_append_left _ _
  · exact List.subset_append_of_subset_right _ hSubset

/-- Goals that carry no variables make sense next to each other if each does. -/
theorem scoped_ofGoals {K : L.Telescope} {goals : List (Goal L)}
    (h : ∀ g ∈ goals, D.Goal K.Declares g) : D.Scoped K (goals.map .ofGoal) := by
  induction goals with
  | nil => trivial
  | cons g goals ih =>
      change D.Goal (Language.Telescope.Declares (K ++ [])) g ∧ D.Scoped (K ++ []) _
      rw [List.append_nil]
      exact ⟨h g List.mem_cons_self, ih fun g' hg' => h g' (List.mem_cons_of_mem _ hg')⟩

/-- Where a variable is defined, an equation makes sense below the definition
once the variable is substituted. -/
theorem equation_unfold {K : L.Telescope} {x : Name} {kind : L.Kind} {type l r : L.Ty}
    (hx : x ∉ K.map Prod.fst) (hType : D.Ty K.Declares type kind)
    (h : D.Equation (Language.Telescope.Declares (K ++ [(x, kind)])) l r) :
    D.Equation K.Declares (subst1 x type l) (subst1 x type r) := by
  have hSubst : ∀ {t : L.Ty} {k : L.Kind},
      D.Ty (Language.Telescope.Declares (K ++ [(x, kind)])) t k →
      D.Ty K.Declares (subst1 x type t) k := by
    intro t k ht
    refine D.ty_subst (fun y j _ hy => ?_) ht
    by_cases hEq : y = x
    · subst hEq
      refine .inl ⟨type, if_pos rfl, ?_⟩
      rcases List.mem_append.mp hy with hy | hy
      · exact absurd (List.mem_map_of_mem hy) hx
      · cases List.mem_singleton.mp hy
        exact hType
    · refine .inr ⟨if_neg hEq, ?_⟩
      rcases List.mem_append.mp hy with hy | hy
      · exact hy
      · exact absurd (congrArg Prod.fst (List.mem_singleton.mp hy)) hEq
  obtain ⟨k, hk, hl, hr⟩ := h
  exact ⟨k, hk, hSubst hl, hSubst hr⟩

/-- A type that is equal to a variable and does not contain it makes sense below
the variable, with its kind. So it may define the variable. -/
theorem ty_of_solve {K : L.Telescope} {x : Name} {kind : L.Kind} {l r : L.Ty}
    (hx : x ∉ K.map Prod.fst) (hVar : L.asVar? l = some x) (hFree : x ∉ freeVars r)
    (h : D.Equation (Language.Telescope.Declares (K ++ [(x, kind)])) l r) :
    D.Ty K.Declares r kind := by
  obtain ⟨k, -, hl, hr⟩ := h
  have hKind : ∀ i, (x, i) ∈ K ++ [(x, kind)] → i = kind := by
    intro i hi
    rcases List.mem_append.mp hi with hi | hi
    · exact absurd (List.mem_map_of_mem hi) hx
    · exact congrArg Prod.snd (List.mem_singleton.mp hi)
  refine D.ty_mono (fun y j hy hMem => ?_) (D.ty_solve hVar hKind hl hr)
  rcases List.mem_append.mp hMem with hMem | hMem
  · exact hMem
  · cases List.mem_singleton.mp hMem
    exact absurd hy hFree

end Discipline

theorem not_mem_of_nodup {K rest : L.Telescope} {x : Name} {kind : L.Kind}
    (h : ((K ++ (x, kind) :: rest).map Prod.fst).Nodup) : x ∉ K.map Prod.fst := by
  intro hx
  rw [List.map_append, List.nodup_append] at h
  exact h.2.2 x hx x List.mem_cons_self rfl

/-- A move keeps entries well-scoped. The cases of interest are those that
define a variable by the other side of its equation, and those in which a
constraint passes a definition and has it substituted. -/
theorem Move.scoped [Rules L] [Sized L] [FreeVars L.Special] (D : Discipline L)
    {K : L.Telescope} {old new : List (Entry L)} (h : Move old new)
    (hNodup : ((K ++ declared old).map Prod.fst).Nodup) (hOld : D.Scoped K old) :
    D.Scoped K new := by
  cases h with
  | recast =>
      obtain ⟨⟨k, hk, hl, hr⟩, -⟩ := hOld
      exact ⟨⟨k, hk, hr, hl⟩, trivial⟩
  | lower deps g =>
      refine (D.scoped_append).mpr ⟨D.scoped_intros K deps, ?_, trivial⟩
      rw [declared_intros]
      exact D.goal_mono (fun _ _ _ hx => List.mem_append_left _ hx) hOld.1
  | sink he x kind =>
      exact ⟨trivial, D.entry_mono (List.subset_append_left _ _) hOld.1, trivial⟩
  | @pass e c he hFree =>
      refine ⟨D.goal_mono (fun x j hx hMem => ?_) hOld.2.1,
        D.entry_mono (List.subset_append_left _ _) hOld.1, trivial⟩
      rw [Language.Telescope.Declares, List.mem_append, List.mem_append] at hMem
      rcases hMem with (hMem | hMem) | hMem
      · exact List.mem_append_left _ hMem
      · exact absurd hx (hFree _ hMem)
      · exact List.mem_append_right _ hMem
  | lift =>
      refine ⟨D.goal_mono (fun x j _ hMem => ?_) hOld.2.1, trivial⟩
      rw [Language.Telescope.Declares, List.append_assoc] at hMem
      exact hMem
  | @unfold x type l r kind g hSides =>
      have hGoal : D.Equation (Language.Telescope.Declares ((K ++ [(x, kind)]) ++ [])) l r :=
        (D.goal_of_sides hSides).mp hOld.2.1
      rw [List.append_nil] at hGoal
      have hEquation := D.equation_unfold (not_mem_of_nodup hNodup) hOld.1 hGoal
      refine ⟨D.equation_mono (fun y j _ hy => ?_) hEquation,
        D.entry_mono (List.subset_append_left _ _) hOld.1, trivial⟩
      exact List.mem_append_left _ hy
  | @solve x kind l r g hSides hVar hFree =>
      have hGoal : D.Equation (Language.Telescope.Declares ((K ++ [(x, kind)]) ++ [])) l r :=
        (D.goal_of_sides hSides).mp hOld.2.1
      rw [List.append_nil] at hGoal
      exact ⟨D.ty_of_solve (not_mem_of_nodup hNodup) hVar hFree hGoal, trivial⟩
  | drop => trivial
  | @split l r goals h =>
      have hGoal : D.Equation (Language.Telescope.Declares (K ++ [])) l r := hOld.1
      rw [List.append_nil] at hGoal
      exact D.scoped_ofGoals (D.decompose hGoal h)

/-- By induction, a sequence of moves keeps a context well-formed. -/
theorem Moves.wellFormed [Rules L] [Sized L] [FreeVars L.Special] (D : Discipline L)
    {es fs : List (Entry L)} (h : Moves es fs) (hOld : D.WellFormed es) : D.WellFormed fs := by
  refine ⟨?_, (h.declared_perm.map Prod.fst).nodup_iff.mpr hOld.nodup⟩
  induction h with
  | refl => exact hOld.inScope
  | @tail fs gs hMoves hLast ih =>
      have hNodup := ((Moves.declared_perm hMoves).map Prod.fst).nodup_iff.mpr hOld.nodup
      obtain ⟨pre, post, hMove⟩ := hLast
      refine D.scoped_replace hMove.declared_perm.symm.subset (hMove.scoped D ?_) ih
      rw [List.nil_append, ← declared_append]
      rw [← List.append_assoc, declared_append, List.map_append] at hNodup
      exact (List.nodup_append.mp hNodup).1

end HindleyMilner
