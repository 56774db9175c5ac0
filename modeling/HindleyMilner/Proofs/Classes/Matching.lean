import HindleyMilner.Proofs.Classes.Kinding
import HindleyMilner.Proofs.Classes.Reduction

/-! Matching types. Constructors are compared by name, so a match makes its pattern equal
to the target where every constructor is used at one kind. Instantiating the target keeps
a match, as long as variables are replaced by types of the kinds they carry. -/
namespace HindleyMilner.Classes

namespace Ty

/-- Every constructor is used at the kind of the signature. -/
def Over (σ : Signature) : Ty → Prop
  | var .. => True
  | con c k => k = σ c
  | app f a => f.Over σ ∧ a.Over σ

theorem hasKind_iff {t : Ty} {k : Kind} : t.hasKind k = true ↔ t.kind = .ok k := by
  rw [hasKind]
  cases t.kind with
  | error e => simp
  | ok found => simp

/-- An assignment replaces the variables of a type by types of the kinds they
carry. -/
def Respects (τ : Assignment Ty) (t : Ty) : Prop :=
  ∀ p ∈ t.occurrences, ∀ u, τ p.1 = some u → u.kind = .ok p.2

theorem respects_app {τ : Assignment Ty} {f a : Ty} :
    Respects τ (app f a) ↔ Respects τ f ∧ Respects τ a := List.forall_mem_append

/-- Then the type keeps its kind. -/
theorem kind_subst {τ : Assignment Ty} {t : Ty} (h : Respects τ t) : (t.subst τ).kind = t.kind := by
  induction t with
  | var x k =>
      rw [subst]
      cases hx : τ x with
      | some u => exact h (x, k) List.mem_cons_self u hx
      | none => rfl
  | con c k => rfl
  | app f a ihf iha =>
      obtain ⟨hf, ha⟩ := respects_app.mp h
      rw [subst, kind, kind, ihf hf, iha ha]

/-- Only what is assigned to the variables of a type matters for it. -/
theorem subst_congr {τ τ' : Assignment Ty} {t : Ty} (h : ∀ x ∈ t.freeVars, τ x = τ' x) :
    t.subst τ = t.subst τ' := by
  induction t with
  | var x k => rw [subst, subst, h x List.mem_cons_self]
  | con c k => rfl
  | app f a ihf iha =>
      rw [subst, subst, ihf fun x hx => h x (List.mem_append_left _ hx),
        iha fun x hx => h x (List.mem_append_right _ hx)]

/-- Putting types over a signature into a type over it stays over it. -/
theorem over_subst {σ : Signature} {τ : Assignment Ty} {t : Ty} (h : t.Over σ)
    (hτ : ∀ x ∈ t.freeVars, ∀ u, τ x = some u → u.Over σ) : (t.subst τ).Over σ := by
  induction t with
  | var x k =>
      rw [subst]
      cases hx : τ x with
      | some u => exact hτ x List.mem_cons_self u hx
      | none => trivial
  | con c k => exact h
  | app f a ihf iha =>
      exact ⟨ihf h.1 fun x hx => hτ x (List.mem_append_left _ hx),
        iha h.2 fun x hx => hτ x (List.mem_append_right _ hx)⟩

/-- The type with other kinds on its variables and constructors. -/
def relabel (onVar onCon : Kind → Kind) : Ty → Ty
  | var x k => var x (onVar k)
  | con c k => con c (onCon k)
  | app f a => app (f.relabel onVar onCon) (a.relabel onVar onCon)

/-- Equality of types up to the kinds that their constructors carry. -/
def EqualButConstructors (t u : Ty) : Prop :=
  t.relabel id (fun _ => .data) = u.relabel id (fun _ => .data)

/-- Equality of types up to the kinds that their variables and
constructors carry. -/
def EqualButKinds (t u : Ty) : Prop :=
  t.relabel (fun _ => .data) (fun _ => .data) = u.relabel (fun _ => .data) (fun _ => .data)

/-- Types that differ in nothing but kinds are equal if variables and
constructors are used at one kind each. -/
theorem eq_of_relabel_eq {σ : Signature} {K : language.Scope} {onVar onCon : Kind → Kind}
    (hK : ∀ x j k, K x j → K x k → onVar j = onVar k → j = k) {t u : Ty}
    (h : t.relabel onVar onCon = u.relabel onVar onCon) (ht : t.Annotated K) (hu : u.Annotated K)
    (htOver : t.Over σ) (huOver : u.Over σ) : t = u := by
  induction t generalizing u with
  | var x j =>
      cases u with
      | var y k =>
          obtain ⟨rfl, hKind⟩ := var.inj h
          rw [hK x j k (ht (x, j) List.mem_cons_self) (hu (x, k) List.mem_cons_self) hKind]
      | _ => cases h
  | con c j =>
      cases u with
      | con d k =>
          obtain ⟨rfl, -⟩ := con.inj h
          rw [htOver, huOver]
      | _ => cases h
  | app f a ihf iha =>
      cases u with
      | app g b =>
          obtain ⟨hFunction, hArgument⟩ := app.inj h
          obtain ⟨hf, ha⟩ := List.forall_mem_append.mp ht
          obtain ⟨hg, hb⟩ := List.forall_mem_append.mp hu
          rw [ihf hFunction hf hg htOver.1 huOver.1, iha hArgument ha hb htOver.2 huOver.2]
      | _ => cases h

end Ty

namespace Subst

/-- Two substitutions can be merged where they agree. -/
theorem isSome_merge_iff {s t : Subst} :
    (s.merge t).isSome ↔
      ∀ x u v, s.toAssignment x = some u → t.toAssignment x = some v → u = v := by
  have hAll : (t.map.toList.all fun p => s.map[p.1]?.all (· = p.2)) = true ↔
      ∀ x u v, s.toAssignment x = some u → t.toAssignment x = some v → u = v := by
    simp only [List.all_eq_true, Prod.forall, Std.ExtTreeMap.mem_toList_iff_getElem?_eq_some,
      toAssignment, Option.all_eq_true, decide_eq_true_eq]
    exact ⟨fun h x u v hu hv => h x v hv u hu, fun h x v hv u hu => h x u v hu hv⟩
  rw [← hAll, merge, Option.isSome_ite]

/-- A merge extends both of its parts. -/
theorem toAssignment_of_merge {s t m : Subst} (h : s.merge t = some m) {x : Name} {u : Ty}
    (hu : s.toAssignment x = some u ∨ t.toAssignment x = some u) : m.toAssignment x = some u := by
  have hAgree := isSome_merge_iff.mp (Option.isSome_of_eq_some h) x
  rw [toAssignment_merge h]
  cases ht : t.toAssignment x with
  | none =>
      rw [ht] at hu
      exact hu.resolve_right fun hNone => by cases hNone
  | some v =>
      rcases hu with hu | hu
      · rw [hAgree u v hu ht]
        rfl
      · rw [ht] at hu
        cases hu
        rfl

end Subst

namespace Ty

namespace Matched

variable {pattern target : Ty} {m : Subst}

/-- A match binds every variable of the pattern to a type of its kind. -/
theorem kind_of_mem (h : Matched pattern target m) {p : Name × Kind}
    (hp : p ∈ pattern.occurrences) :
    ∃ u, m.toAssignment p.1 = some u ∧ u.kind = .ok p.2 := by
  induction h with
  | @var x k t hKind =>
      rw [List.mem_singleton.mp hp]
      exact ⟨t, Subst.toAssignment_single_eq_some.mpr ⟨rfl, rfl⟩, hasKind_iff.mp hKind⟩
  | con => cases hp
  | app _ _ hMerge ihFunction ihArgument =>
      rcases List.mem_append.mp hp with hp | hp
      · obtain ⟨u, hu, hKind⟩ := ihFunction hp
        exact ⟨u, Subst.toAssignment_of_merge hMerge (.inl hu), hKind⟩
      · obtain ⟨u, hu, hKind⟩ := ihArgument hp
        exact ⟨u, Subst.toAssignment_of_merge hMerge (.inr hu), hKind⟩

/-- A part of a match stays as it is in the whole. -/
theorem subst_of_merge {part : Subst} (h : Matched pattern target part)
    (hPart : ∀ x u, part.toAssignment x = some u → m.toAssignment x = some u) :
    pattern.subst m.toAssignment = pattern.subst part.toAssignment := by
  apply subst_congr
  intro x hx
  obtain ⟨u, hu⟩ := h.binds.1 x hx
  rw [hu, hPart x u hu]

/-- What a match binds variables to are parts of the target: a property that
passes from applications to their parts passes from the target to them. -/
theorem of_target {P : Ty → Prop} (hParts : ∀ f a, P (Ty.app f a) → P f ∧ P a)
    (h : Matched pattern target m) (hTarget : P target) {x : Name} {u : Ty}
    (hu : m.toAssignment x = some u) : P u := by
  induction h with
  | var hKind =>
      obtain ⟨-, rfl⟩ := Subst.toAssignment_single_eq_some.mp hu
      exact hTarget
  | con =>
      rw [Subst.toAssignment_empty] at hu
      cases hu
  | app _ _ hMerge ihFunction ihArgument =>
      obtain ⟨hFunction, hArgument⟩ := hParts _ _ hTarget
      rw [Subst.toAssignment_merge hMerge, Option.or_eq_some_iff] at hu
      rcases hu with hu | ⟨-, hu⟩
      · exact ihArgument hArgument hu
      · exact ihFunction hFunction hu

/-- A match makes the pattern equal to the target, but for the kinds of
constructors, which are not compared. -/
theorem equalButConstructors (h : Matched pattern target m) :
    (pattern.subst m.toAssignment).EqualButConstructors target := by
  induction h with
  | var hKind =>
      rw [Ty.subst, Subst.toAssignment_single, if_pos rfl]
      rfl
  | con => rfl
  | app hFunction hArgument hMerge ihFunction ihArgument =>
      have hLeft := hFunction.subst_of_merge fun x u hu =>
        Subst.toAssignment_of_merge hMerge (.inl hu)
      have hRight := hArgument.subst_of_merge fun x u hu =>
        Subst.toAssignment_of_merge hMerge (.inr hu)
      rw [Ty.subst, hLeft, hRight]
      exact congrArg₂ Ty.app ihFunction ihArgument

/-- So both are equal where every constructor is used at one kind. -/
theorem subst_eq {σ : Signature} (h : Matched pattern target m) (hPattern : pattern.Over σ)
    (hTarget : target.Over σ) : pattern.subst m.toAssignment = target := by
  have hOver : (pattern.subst m.toAssignment).Over σ :=
    over_subst hPattern fun x _ u hu => h.of_target (fun _ _ hParts => hParts) hTarget hu
  exact eq_of_relabel_eq (K := fun _ _ => True) (fun _ _ _ _ _ hSame => hSame)
    h.equalButConstructors (fun _ _ => trivial) (fun _ _ => trivial) hOver hTarget

/-- An instance of the target is matched too, and what the variables of the
pattern are bound to is instantiated in the same way. -/
theorem subst {τ : Assignment Ty} (h : Matched pattern target m) (hτ : Respects τ target) :
    ∃ m', Matched pattern (target.subst τ) m' ∧
      ∀ x, m'.toAssignment x = (m.toAssignment x).map (Ty.subst τ) := by
  induction h with
  | @var x k t hKind =>
      have hKind' : (t.subst τ).hasKind k = true := by
        rw [hasKind_iff, kind_subst hτ, ← hasKind_iff]
        exact hKind
      refine ⟨_, .var hKind', fun y => ?_⟩
      rw [Subst.toAssignment_single, Subst.toAssignment_single]
      split <;> rfl
  | con c j k =>
      refine ⟨_, .con c j k, fun x => ?_⟩
      rw [Subst.toAssignment_empty]
      rfl
  | @app f a g b s t m _ _ hMerge ihFunction ihArgument =>
      obtain ⟨hg, hb⟩ := respects_app.mp hτ
      obtain ⟨s', hs', hMapS⟩ := ihFunction hg
      obtain ⟨t', ht', hMapT⟩ := ihArgument hb
      have hAgree := Subst.isSome_merge_iff.mp (Option.isSome_of_eq_some hMerge)
      have hSome : (s'.merge t').isSome := by
        apply Subst.isSome_merge_iff.mpr
        intro x u v hu hv
        rw [hMapS] at hu
        rw [hMapT] at hv
        obtain ⟨u₀, hu₀, rfl⟩ := Option.map_eq_some_iff.mp hu
        obtain ⟨v₀, hv₀, rfl⟩ := Option.map_eq_some_iff.mp hv
        rw [hAgree x u₀ v₀ hu₀ hv₀]
      obtain ⟨m', hm'⟩ := Option.isSome_iff_exists.mp hSome
      refine ⟨m', .app hs' ht' hm', fun x => ?_⟩
      rw [Subst.toAssignment_merge hm', Subst.toAssignment_merge hMerge, hMapS, hMapT]
      cases t.toAssignment x <;> rfl

/-- A match binds no variable but those of the pattern. -/
theorem mem_freeVars (h : Matched pattern target m) {x : Name} {u : Ty}
    (hu : m.toAssignment x = some u) : x ∈ pattern.freeVars := by
  induction h with
  | var hKind => exact List.mem_singleton.mpr (Subst.toAssignment_single_eq_some.mp hu).1
  | con =>
      rw [Subst.toAssignment_empty] at hu
      cases hu
  | app _ _ hMerge ihFunction ihArgument =>
      rw [Subst.toAssignment_merge hMerge, Option.or_eq_some_iff] at hu
      rcases hu with hu | ⟨-, hu⟩
      · exact List.mem_append_right _ (ihArgument hu)
      · exact List.mem_append_left _ (ihFunction hu)

end Matched

/-- An assignment takes every variable of a type to its image, of the kind that
the variable carries. -/
def Takes (τ : Assignment Ty) (image : Name → Ty) (t : Ty) : Prop :=
  t.Annotated fun x k => (var x k).subst τ = image x ∧ (image x).kind = .ok k

/-- A type is matched with its instances, and its variables are bound to their
images. The two parts of an application bind a variable they share to its one
image, so that their matches can be merged. -/
theorem exists_matched {pattern : Ty} {τ : Assignment Ty} {image : Name → Ty}
    (h : Takes τ image pattern) :
    ∃ m, Matched pattern (pattern.subst τ) m ∧
      ∀ x ∈ pattern.freeVars, m.toAssignment x = some (image x) := by
  induction pattern with
  | var x k =>
      obtain ⟨hImage, hKind⟩ := h (x, k) List.mem_cons_self
      have hKind' : ((var x k).subst τ).hasKind k = true := by
        rw [hasKind_iff, hImage]
        exact hKind
      refine ⟨_, .var hKind', fun y hy => ?_⟩
      rw [List.mem_singleton.mp hy, Subst.toAssignment_single, if_pos rfl, hImage]
  | con c k => exact ⟨.empty, .con c k k, List.forall_mem_nil _⟩
  | app f a ihf iha =>
      obtain ⟨hf, ha⟩ := List.forall_mem_append.mp h
      obtain ⟨s, hs, hImageS⟩ := ihf hf
      obtain ⟨t, ht, hImageT⟩ := iha ha
      -- Both parts bind a variable to its one image.
      have hSome : (s.merge t).isSome := by
        apply Subst.isSome_merge_iff.mpr
        intro x u v hu hv
        rw [hImageS x (hs.mem_freeVars hu)] at hu
        rw [hImageT x (ht.mem_freeVars hv)] at hv
        exact Option.some.inj (hu.symm.trans hv)
      obtain ⟨m, hm⟩ := Option.isSome_iff_exists.mp hSome
      refine ⟨m, .app hs ht hm, List.forall_mem_append.mpr ⟨fun x hx => ?_, fun x hx => ?_⟩⟩
      · exact Subst.toAssignment_of_merge hm (.inl (hImageS x hx))
      · exact Subst.toAssignment_of_merge hm (.inr (hImageT x hx))

/-- Matching finds types for the variables of the pattern, of the kinds they
carry, that make it equal to the target. It does so wherever there are such
types, and finds no others. -/
theorem matchWith_finds_assignment (pattern target : Ty) :
    (∀ s, pattern.matchWith target = some s →
      (∀ x, (s.toAssignment x).isSome ↔ x ∈ pattern.freeVars) ∧
      (∀ p ∈ pattern.occurrences, ∃ u, s.toAssignment p.1 = some u ∧ u.kind = .ok p.2) ∧
      (s.apply pattern).EqualButConstructors target) ∧
    ∀ (q : Assignment Ty) (image : Name → Ty), Takes q image pattern →
      pattern.subst q = target →
      ∃ s, pattern.matchWith target = some s ∧
        ∀ x ∈ pattern.freeVars, s.toAssignment x = some (image x) := by
  constructor
  · intro s h
    have hMatched := matched_of_matchWith h
    refine ⟨fun x => ⟨fun hx => ?_, fun hx => ?_⟩, fun p hp => hMatched.kind_of_mem hp,
      hMatched.equalButConstructors⟩
    · obtain ⟨u, hu⟩ := Option.isSome_iff_exists.mp hx
      exact hMatched.mem_freeVars hu
    · obtain ⟨u, hu⟩ := hMatched.binds.1 x hx
      exact Option.isSome_of_eq_some hu
  · rintro q image hTakes rfl
    obtain ⟨m, hm, hImage⟩ := exists_matched hTakes
    exact ⟨m, hm.matchWith, hImage⟩

def containerPattern : Ty :=
  app (app (con "pair" (.constructor 2)) (app (var "m" (.constructor 1)) (var "a" .data)))
    (var "a" .data)

def containerTarget : Ty :=
  app (app (con "pair" (.constructor 2)) (app (con "list" (.constructor 1)) (con "int" .data)))
    (con "int" .data)

/-- A variable for constructors is matched as well, and one that is not in the
pattern is not bound. -/
theorem matchWith_finds_assignment_container :
    ∃ s, containerPattern.matchWith containerTarget = some s ∧
      s.toAssignment "m" = some (con "list" (.constructor 1)) ∧
      s.toAssignment "a" = some (con "int" .data) ∧
      (s.toAssignment "b").isSome = false ∧
      (s.apply containerPattern).EqualButConstructors containerTarget := by
  let image : Name → Ty := fun x => if x = "m" then con "list" (.constructor 1) else con "int" .data
  have hTakes : Takes (fun x => some (image x)) image containerPattern := by
    unfold Takes Annotated
    decide
  obtain ⟨s, hMatch, hImage⟩ :=
    (matchWith_finds_assignment containerPattern containerTarget).2 _ image hTakes rfl
  obtain ⟨hDomain, -, hEqual⟩ := (matchWith_finds_assignment _ _).1 s hMatch
  refine ⟨s, hMatch, hImage "m" (by decide), hImage "a" (by decide), ?_, hEqual⟩
  have hOther : ¬(s.toAssignment "b").isSome := by
    rw [hDomain]
    decide
  simpa using hOther

end Ty

end HindleyMilner.Classes
