import HindleyMilner.Proofs.Classes.Scoping

/-! Kinds of types with classes. Every occurrence of a variable or of a constructor
carries a kind, and the kind of a type is computed from them. So a type has a kind by
itself, and it is a matter of its own that its variables are declared with the kinds
they carry. -/
namespace HindleyMilner.Classes

open Context

namespace Ty

/-- The occurrences of variables with the kinds they carry. -/
def occurrences : Ty → language.Telescope
  | var x k => [(x, k)]
  | con .. => []
  | app f a => f.occurrences ++ a.occurrences

theorem freeVars_eq (t : Ty) : t.freeVars = t.occurrences.map Prod.fst := by
  induction t with
  | var x k => rfl
  | con c k => rfl
  | app f a ihf iha => rw [freeVars, occurrences, List.map_append, ihf, iha]

theorem mem_freeVars_of_mem {t : Ty} {p : Name × Kind} (h : p ∈ t.occurrences) :
    p.1 ∈ t.freeVars := by
  rw [freeVars_eq]
  exact List.mem_map_of_mem h

theorem exists_mem_occurrences {t : Ty} {x : Name} (h : x ∈ t.freeVars) :
    ∃ k, (x, k) ∈ t.occurrences := by
  rw [freeVars_eq] at h
  obtain ⟨p, hp, rfl⟩ := List.mem_map.mp h
  exact ⟨p.2, hp⟩

/-- An occurrence of a variable after a substitution comes from an
occurrence of one before it: it is that one if nothing was put for it, or
occurs in what was put for it. -/
theorem mem_occurrences_subst {τ : Assignment Ty} {t : Ty} {p : Name × Kind}
    (h : p ∈ (t.subst τ).occurrences) :
    ∃ q ∈ t.occurrences, (∃ u, τ q.1 = some u ∧ p ∈ u.occurrences) ∨ (τ q.1 = none ∧ p = q) := by
  induction t with
  | var x k =>
      refine ⟨(x, k), List.mem_singleton.mpr rfl, ?_⟩
      rw [subst] at h
      cases hτ : τ x with
      | some u =>
          rw [hτ] at h
          exact .inl ⟨u, rfl, h⟩
      | none =>
          rw [hτ] at h
          exact .inr ⟨rfl, List.mem_singleton.mp h⟩
  | con c k => cases h
  | app f a ihf iha =>
      rcases List.mem_append.mp h with h | h
      · obtain ⟨q, hq, hSource⟩ := ihf h
        exact ⟨q, List.mem_append_left _ hq, hSource⟩
      · obtain ⟨q, hq, hSource⟩ := iha h
        exact ⟨q, List.mem_append_right _ hq, hSource⟩

/-- Every occurrence of a variable carries a kind of the scope. -/
def Annotated (K : language.Scope) (t : Ty) : Prop := ∀ p ∈ t.occurrences, K p.1 p.2

/-- Substituting types whose variables carry their kinds keeps this
true of all variables. -/
theorem Annotated.subst {K K' : language.Scope} {τ : Assignment Ty} {t : Ty}
    (hτ : ∀ x j, x ∈ t.freeVars → K x j →
      (∃ u, τ x = some u ∧ u.Annotated K') ∨ (τ x = none ∧ K' x j)) (h : t.Annotated K) :
    (t.subst τ).Annotated K' := by
  intro p hp
  obtain ⟨q, hq, hSource⟩ := mem_occurrences_subst hp
  rcases hτ q.1 q.2 (mem_freeVars_of_mem hq) (h q hq) with ⟨u, hu, hAnnotated⟩ | ⟨hNone, hK⟩
  · rcases hSource with ⟨u', hu', hp⟩ | ⟨hNone, -⟩
    · rw [hu] at hu'
      cases hu'
      exact hAnnotated p hp
    · rw [hu] at hNone
      cases hNone
  · rcases hSource with ⟨u', hu', -⟩ | ⟨-, rfl⟩
    · rw [hNone] at hu'
      cases hu'
    · exact hK

end Ty

/-- The discipline that occurrences carry the kinds of declarations, whatever
the kinds of types. -/
def labelling : Discipline language where
  Ty K t _ := t.Annotated K
  Equated _ := True
  Special _ g := g.elim
  ty_declared {K t k} h x hx := by
    obtain ⟨j, hj⟩ := Ty.exists_mem_occurrences hx
    exact ⟨j, h (x, j) hj⟩
  ty_mono hK h p hp := hK _ _ (Ty.mem_freeVars_of_mem hp) (h p hp)
  special_mono {_ _ g} := g.elim
  ty_subst := Ty.Annotated.subst
  ty_solve _ _ _ hr := hr
  decompose {K l r goals} hEquation h g hg := by
    obtain ⟨k, -, hl, hr⟩ := hEquation
    rcases decompose_eq_ok h with rfl | ⟨f, a, f', a', rfl, rfl, rfl⟩
    · cases hg
    · simp only [List.mem_cons, List.not_mem_nil, or_false] at hg
      rcases hg with rfl | rfl
      · exact ⟨k, trivial, fun p hp => hl p (List.mem_append_left _ hp),
          fun p hp => hr p (List.mem_append_left _ hp)⟩
      · exact ⟨k, trivial, fun p hp => hl p (List.mem_append_right _ hp),
          fun p hp => hr p (List.mem_append_right _ hp)⟩
  equated_value := trivial
  ty_var h p hp := by
    rw [List.mem_singleton.mp hp]
    exact h
  ty_arrow ha hb p hp := (List.mem_append.mp hp).elim (ha p) (hb p)
  ty_literal h := nomatch h

/-- Every step keeps the kinds that variables carry. -/
theorem stepsRefine_labelling : StepsRefine labelling (Model.onePoint language) :=
  equationsOnly.stepsRefine _ _

abbrev Signature := Name → Kind

/-- A type has a kind, and its constructors are used at their own kinds. -/
inductive HasKind (σ : Signature) : Ty → Kind → Prop where
  | var (x : Name) (k : Kind) : HasKind σ (.var x k) k
  | con (c : Name) : HasKind σ (.con c (σ c)) (σ c)
  | app {f a : Ty} {j k : Kind} (hf : HasKind σ f (.arrow j k)) (ha : HasKind σ a j) :
      HasKind σ (.app f a) k

namespace HasKind

variable {σ : Signature} {t : Ty} {j k : Kind}

/-- A type that has a kind for a signature is found to have this kind. -/
theorem kind_eq (h : HasKind σ t k) : t.kind = .ok k := by
  induction h with
  | var x k => rfl
  | con c => rfl
  | app _ _ ihf iha => simp [Ty.kind, ihf, iha, bind, Except.bind]

/-- A type has at most one kind. -/
theorem unique (h : HasKind σ t j) (h' : HasKind σ t k) : j = k := by
  have hSame := h.kind_eq.symm.trans h'.kind_eq
  exact Except.ok.inj hSame

/-- Functions between data types are data, where the arrow takes two of them. -/
theorem fn {a b : Ty} (hArrow : σ Ty.arrowName = .constructor 2) (ha : HasKind σ a .data)
    (hb : HasKind σ b .data) : HasKind σ (.fn a b) .data := by
  have hCon : HasKind σ (.con Ty.arrowName (.constructor 2)) (.constructor 2) :=
    hArrow ▸ HasKind.con Ty.arrowName
  exact .app (.app hCon ha) hb

/-- Substitution keeps the kind of a type if every variable is replaced by a
type of the kind it carries. -/
theorem subst {τ : Assignment Ty} (h : HasKind σ t k)
    (hτ : ∀ p ∈ t.occurrences, ∀ u, τ p.1 = some u → HasKind σ u p.2) :
    HasKind σ (t.subst τ) k := by
  induction h with
  | var x k =>
      rw [Ty.subst]
      cases hx : τ x with
      | some u => exact hτ (x, k) List.mem_cons_self u hx
      | none => exact .var x k
  | con c => exact .con c
  | app _ _ ihf iha =>
      exact .app (ihf fun p hp => hτ p (List.mem_append_left _ hp))
        (iha fun p hp => hτ p (List.mem_append_right _ hp))

end HasKind

section

variable {σ : Signature} {K : language.Telescope} (hNodup : (K.map Prod.fst).Nodup)

/-- Replacing one variable by a type over the same declarations
keeps a type over them. -/
theorem Ty.Annotated.subst1 {x : Name} {type t : Ty} (hType : type.Annotated K.Declares)
    (h : t.Annotated K.Declares) : (subst1 x type t).Annotated K.Declares := by
  refine Ty.Annotated.subst (fun y j _ hy => ?_) h
  by_cases hEq : y = x
  · exact .inl ⟨type, if_pos hEq, hType⟩
  · exact .inr ⟨if_neg hEq, hy⟩

include hNodup

/-- A variable may be replaced by a type of the kind that it is declared with. -/
theorem HasKind.subst1 {x : Name} {type t : Ty} {kind k : Kind} (hx : (x, kind) ∈ K)
    (hType : HasKind σ type kind) (hAnnotated : t.Annotated K.Declares) (h : HasKind σ t k) :
    HasKind σ (subst1 x type t) k := by
  refine h.subst fun p hp u hu => ?_
  by_cases hEq : p.1 = x
  · have hKind : p.2 = kind := Name.eq_of_nodup hNodup (hEq ▸ hAnnotated p hp) hx
    rw [Assignment.single, if_pos hEq] at hu
    cases hu
    rw [hKind]
    exact hType
  · rw [Assignment.single, if_neg hEq] at hu
    cases hu

/-- Types of the kinds of their variables are put for them one after the other. -/
theorem HasKind.unwind {defs : List (Name × Ty)} (hDefs : ∀ d ∈ defs, ∃ kind, (d.1, kind) ∈ K ∧
      d.2.Annotated K.Declares ∧ HasKind σ d.2 kind) {t : Ty} {k : Kind}
    (hAnnotated : t.Annotated K.Declares) (h : HasKind σ t k) :
    HasKind σ (unwind (L := language) defs t) k ∧
      (unwind (L := language) defs t).Annotated K.Declares := by
  induction defs with
  | nil => exact ⟨h, hAnnotated⟩
  | cons d defs ih =>
      obtain ⟨hKind, hRest⟩ := ih fun d hd => hDefs d (List.mem_cons_of_mem _ hd)
      obtain ⟨kind, hx, hType, hTypeKind⟩ := hDefs d List.mem_cons_self
      exact ⟨HasKind.subst1 hNodup hx hTypeKind hRest hKind, hType.subst1 hRest⟩

end

end HindleyMilner.Classes
