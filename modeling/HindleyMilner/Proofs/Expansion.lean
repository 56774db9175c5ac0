import HindleyMilner.Proofs.Classes.Scoping
import HindleyMilner.Proofs.Normalization
import HindleyMilner.Proofs.Simple.Reading

/-! What definitions expand to. Applying a context substitutes its definitions one after the
other, the last one first; that is to substitute at once the definitions of the normalized
context. If definitions mention earlier variables only, those mention no defined variable, so
there is nothing left to expand in them. -/
namespace HindleyMilner

open Context

/-- Replace by one assignment and then by another. -/
def Assignment.andThen {τ : Type} [Substitute τ τ] (σ ρ : Assignment τ) : Assignment τ :=
  fun x => ((σ x).map (subst ρ)).or (ρ x)

/-- Substitution changes assigned variables and nothing else. -/
class LawfulSubstitute (τ α : Type) [FreeVars τ] [Substitute τ τ] [FreeVars α] [Substitute τ α] :
    Prop where
  subst_of_unassigned : ∀ {σ : Assignment τ} {a : α}, (∀ x ∈ freeVars a, σ x = none) → subst σ a = a
  subst_subst : ∀ (σ ρ : Assignment τ) (a : α), subst ρ (subst σ a) = subst (σ.andThen ρ) a
  mem_freeVars_subst : ∀ {σ : Assignment τ} {a : α} {y : Name}, y ∈ freeVars (subst σ a) →
    ∃ x ∈ freeVars a, (∃ u, σ x = some u ∧ y ∈ freeVars u) ∨ (σ x = none ∧ y = x)

export LawfulSubstitute (subst_of_unassigned)

section

variable {τ : Type} [FreeVars τ] [Substitute τ τ]

instance : LawfulSubstitute τ Empty where
  subst_of_unassigned _ := rfl
  subst_subst _ _ _ := rfl
  mem_freeVars_subst {_ a _} _ := a.elim

variable {π : Type} [FreeVars π] [Substitute τ π] [LawfulSubstitute τ π]

instance : LawfulSubstitute τ (List π) where
  subst_of_unassigned {σ ps} h := by
    have hSame : ∀ p ∈ ps, subst σ p = p := fun p hp =>
      subst_of_unassigned fun x hx => h x (List.mem_flatMap_of_mem hp hx)
    exact (List.map_congr_left hSame).trans (List.map_id ps)
  subst_subst σ ρ ps := by
    simp only [subst, List.map_map, List.map_inj_left]
    exact fun p _ => LawfulSubstitute.subst_subst σ ρ p
  mem_freeVars_subst {σ ps y} hy := by
    obtain ⟨q, hq, hy⟩ := List.mem_flatMap.mp hy
    obtain ⟨p, hp, rfl⟩ := List.mem_map.mp hq
    obtain ⟨x, hx, hSource⟩ := LawfulSubstitute.mem_freeVars_subst hy
    exact ⟨x, List.mem_flatMap_of_mem hp hx, hSource⟩

instance [LawfulSubstitute τ τ] : LawfulSubstitute τ (Qualified τ π) where
  subst_of_unassigned {σ q} h := by
    have hHead : subst σ q.head = q.head :=
      subst_of_unassigned fun x hx => h x (List.mem_append_left _ hx)
    have hPredicates : subst σ q.predicates = q.predicates :=
      subst_of_unassigned fun x hx => h x (List.mem_append_right _ hx)
    change (⟨subst σ q.predicates, subst σ q.head⟩ : Qualified τ π) = q
    rw [hHead, hPredicates]
  subst_subst σ ρ q :=
    congrArg₂ Qualified.mk (LawfulSubstitute.subst_subst σ ρ q.predicates)
      (LawfulSubstitute.subst_subst σ ρ q.head)
  mem_freeVars_subst {σ q y} hy := by
    rcases List.mem_append.mp hy with hy | hy
    · obtain ⟨x, hx, hSource⟩ := LawfulSubstitute.mem_freeVars_subst hy
      exact ⟨x, List.mem_append_left _ hx, hSource⟩
    · obtain ⟨x, hx, hSource⟩ := LawfulSubstitute.mem_freeVars_subst hy
      exact ⟨x, List.mem_append_right _ hx, hSource⟩

end

instance : LawfulSubstitute Simple.Ty Simple.Ty where
  subst_of_unassigned {σ t} h := by
    have hSame : t.subst σ = t.subst fun x => some (.var x) := by
      apply Simple.Ty.subst_congr
      intro x hx
      rw [h x hx]
      rfl
    exact hSame.trans (Simple.Ty.subst_id t)
  subst_subst σ ρ t := by
    refine (Simple.Ty.subst_subst ρ σ t).trans (Simple.Ty.subst_congr fun x _ => ?_)
    cases hx : σ x with
    | some u => simp [Assignment.andThen, hx, subst]
    | none => simp [Assignment.andThen, hx, Simple.Ty.subst]
  mem_freeVars_subst {σ t y} hy := by
    obtain ⟨x, hx, hSource⟩ := Simple.Ty.mem_freeVars_subst.mp hy
    refine ⟨x, hx, ?_⟩
    cases hσ : σ x with
    | some u =>
        rw [hσ] at hSource
        exact .inl ⟨u, rfl, hSource⟩
    | none =>
        rw [hσ] at hSource
        exact .inr ⟨rfl, List.mem_singleton.mp hSource⟩

instance : LawfulSubstitute Classes.Ty Classes.Ty where
  subst_of_unassigned {σ t} h := by
    induction t with
    | var x k =>
        change (σ x).getD _ = _
        rw [h x List.mem_cons_self]
        rfl
    | con c k => rfl
    | app f a ihf iha =>
        exact congrArg₂ Classes.Ty.app (ihf fun x hx => h x (List.mem_append_left _ hx))
          (iha fun x hx => h x (List.mem_append_right _ hx))
  subst_subst σ ρ t := by
    induction t with
    | var x k => cases hx : σ x <;> simp [subst, Classes.Ty.subst, Assignment.andThen, hx]
    | con c k => rfl
    | app f a ihf iha => exact congrArg₂ Classes.Ty.app ihf iha
  mem_freeVars_subst := Classes.Ty.mem_freeVars_subst

instance : LawfulSubstitute Classes.Ty Classes.Predicate where
  subst_of_unassigned {σ p} h := by
    have hArgument : subst σ p.argument = p.argument := subst_of_unassigned h
    exact congrArg (Classes.Predicate.mk p.className) hArgument
  subst_subst σ ρ p :=
    congrArg (Classes.Predicate.mk p.className) (LawfulSubstitute.subst_subst σ ρ p.argument)
  mem_freeVars_subst := Classes.Ty.mem_freeVars_subst

variable {L : Language}

theorem definitions_define (x : Name) (type : L.Ty) (kind : L.Kind) (es : List (Entry L)) :
    definitions (.define x type kind :: es) = (x, type) :: definitions es := rfl

/-- An entry that defines nothing can be left out. -/
theorem definitions_cons_of_ne {e : Entry L} (h : ∀ x type kind, e ≠ .define x type kind)
    (es : List (Entry L)) : definitions (e :: es) = definitions es := by
  cases e with
  | define x type kind => exact absurd rfl (h x type kind)
  | _ => rfl

/-- Normalizing expands definitions and defines the same variables in the same
order. -/
theorem names_normalizeEntries (defined : List (Name × L.Ty)) (es : List (Entry L)) :
    (definitions (normalizeEntries defined es)).map Prod.fst = (definitions es).map Prod.fst := by
  fun_induction normalizeEntries defined es with
  | case1 => rfl
  | case2 defined x type kind es type' ih =>
      rw [definitions_define, definitions_define, List.map_cons, List.map_cons, ih]
  | case3 defined e es hOther ih =>
      rw [definitions_cons_of_ne hOther, definitions_cons_of_ne hOther, ih]

section

variable {α : Type} [FreeVars α] [Substitute L.Ty α] [LawfulSubstitute L.Ty α]

/-- A definition is substituted before those that it mentions, or with them
after it is expanded. -/
theorem subst_subst1 (defined : List (Name × L.Ty)) (x : Name) (type : L.Ty) (a : α) :
    subst (fun y => defined.lookup y) (subst1 x type a) =
      subst (fun y => ((x, subst (fun y => defined.lookup y) type) :: defined).lookup y) a := by
  rw [subst1, LawfulSubstitute.subst_subst]
  congr 1
  funext y
  rw [List.lookup_cons]
  by_cases hy : y = x
  · simp [Assignment.andThen, Assignment.single, hy]
  · simp [Assignment.andThen, Assignment.single, hy, beq_false_of_ne hy]

/-- Unwinding definitions from the last to the first and then substituting
earlier ones is substituting the expanded definitions all at once. The induction
is on the entries, and each definition joins the earlier ones expanded. -/
theorem subst_unwind (defined : List (Name × L.Ty)) (es : List (Entry L)) (a : α) :
    subst (fun y => defined.lookup y) (unwind (definitions es) a) =
      subst (fun y => ((definitions (normalizeEntries defined es)).reverse ++ defined).lookup y)
        a := by
  fun_induction normalizeEntries defined es with
  | case1 => rfl
  | case2 defined x type kind es type' ih =>
      rw [definitions_define, definitions_define, List.reverse_cons, List.append_assoc,
        List.singleton_append]
      exact (subst_subst1 defined x type _).trans ih
  | case3 defined e es hOther ih =>
      rw [definitions_cons_of_ne hOther, definitions_cons_of_ne hOther]
      exact ih

/-- Applying a context substitutes at once the definitions of the
normalized context. -/
theorem apply_eq_subst (ctx : Context L) (a : α) :
    ctx.apply a = subst (fun y => (definitions ctx.normalize.entries).reverse.lookup y) a := by
  have hUnwind := subst_unwind [] ctx.entries a
  rw [List.append_nil] at hUnwind
  have hNothing : subst (fun y => ([] : List (Name × L.Ty)).lookup y) (ctx.apply a) = ctx.apply a :=
    subst_of_unassigned fun _ _ => rfl
  exact hNothing.symm.trans hUnwind

end

/-- No definition mentions a variable that it or a later one defines. -/
def InOrder (defs : List (Name × L.Ty)) : Prop :=
  (∀ d ∈ defs, d.1 ∉ freeVars d.2) ∧ defs.Pairwise fun d later => later.1 ∉ freeVars d.2

def Avoids (defs : List (Name × L.Ty)) (xs : List Name) : Prop :=
  ∀ d ∈ defs, ∀ x ∈ freeVars d.2, x ∉ xs

section

variable [LawfulSubstitute L.Ty L.Ty] {xs : List Name} {defined : List (Name × L.Ty)}
  {es : List (Entry L)}

/-- A variable of an expanded definition either comes from an earlier
expansion, or it is mentioned and not defined earlier, and in order it
is not defined later. -/
theorem avoids_normalizeEntries (hOrder : InOrder (definitions es)) (hDefined : Avoids defined xs)
    (hCover : ∀ x ∈ xs, x ∈ defined.map Prod.fst ∨ x ∈ (definitions es).map Prod.fst) :
    Avoids (definitions (normalizeEntries defined es)) xs := by
  fun_induction normalizeEntries defined es with
  | case1 => exact List.forall_mem_nil _
  | case2 defined x type kind es type' ih =>
      rw [definitions_define] at hOrder hCover
      obtain ⟨hLater, hPairwise⟩ := List.pairwise_cons.mp hOrder.2
      have hType : ∀ y ∈ freeVars type', y ∉ xs := by
        intro y hy hMem
        obtain ⟨z, hz, ⟨u, hLookup, hu⟩ | ⟨hLookup, rfl⟩⟩ := LawfulSubstitute.mem_freeVars_subst hy
        · exact hDefined _ (Name.mem_of_lookup hLookup) y hu hMem
        · rcases hCover y hMem with hEarlier | hHere
          · obtain ⟨u, hu⟩ := Name.exists_lookup hEarlier
            rw [hLookup] at hu
            cases hu
          · obtain ⟨d, hd, rfl⟩ := List.mem_map.mp hHere
            rcases List.mem_cons.mp hd with rfl | hd
            · exact hOrder.1 _ List.mem_cons_self hz
            · exact hLater d hd hz
      have hExtended : Avoids ((x, type') :: defined) xs :=
        List.forall_mem_cons.mpr ⟨hType, hDefined⟩
      rw [definitions_define]
      refine List.forall_mem_cons.mpr ⟨hType, ih ⟨?_, hPairwise⟩ hExtended fun y hy => ?_⟩
      · exact fun d hd => hOrder.1 d (List.mem_cons_of_mem _ hd)
      · have hCovered := hCover y hy
        simp only [List.map_cons, List.mem_cons] at hCovered ⊢
        tauto
  | case3 defined e es hOther ih =>
      rw [definitions_cons_of_ne hOther] at hOrder hCover ⊢
      exact ih hOrder hDefined hCover

/-- Definitions that mention no defined variable are left alone. -/
theorem normalizeEntries_of_avoids (hAvoids : Avoids (definitions es) xs)
    (hDefined : defined.map Prod.fst ⊆ xs) (hDefs : (definitions es).map Prod.fst ⊆ xs) :
    normalizeEntries defined es = es := by
  fun_induction normalizeEntries defined es with
  | case1 => rfl
  | case2 defined x type kind es type' ih =>
      rw [definitions_define] at hAvoids hDefs
      obtain ⟨hType, hAvoids⟩ := List.forall_mem_cons.mp hAvoids
      obtain ⟨hx, hDefs⟩ := List.cons_subset.mp hDefs
      have hSame : type' = type := subst_of_unassigned fun y hy =>
        Name.lookup_of_not_mem fun hMem => hType y hy (hDefined hMem)
      rw [ih hAvoids (List.cons_subset.mpr ⟨hx, hDefined⟩) hDefs, hSame]
  | case3 defined e es hOther ih =>
      rw [definitions_cons_of_ne hOther] at hAvoids hDefs
      rw [ih hAvoids hDefined hDefs]

end

namespace Context

def defined (ctx : Context L) : List Name := (definitions ctx.entries).map Prod.fst

/-- A context expands a value for good: no defined variable is left in it, and
the normalized context expands it to the same. -/
structure Expands {α : Type} [FreeVars α] [Substitute L.Ty α] (ctx : Context L) (a : α) :
    Prop where
  normalize_apply : ctx.normalize.apply a = ctx.apply a
  not_defined : ∀ x ∈ freeVars (ctx.apply a), x ∉ ctx.defined
  apply_apply : ctx.apply (ctx.apply a) = ctx.apply a

variable [LawfulSubstitute L.Ty L.Ty] {ctx : Context L} (h : InOrder (definitions ctx.entries))

include h

/-- No definition of a normalized context mentions a variable that
the context defines. -/
theorem avoids_normalize : Avoids (definitions ctx.normalize.entries) ctx.defined :=
  avoids_normalizeEntries h (List.forall_mem_nil _) fun _ hx => .inr hx

/-- So normalizing twice is normalizing once. -/
theorem normalize_normalize : ctx.normalize.normalize = ctx.normalize := by
  have hNames : (definitions ctx.normalize.entries).map Prod.fst ⊆ ctx.defined := by
    rw [normalize, names_normalizeEntries]
    exact List.Subset.refl _
  exact congrArg Context.mk
    (normalizeEntries_of_avoids (avoids_normalize h) (List.nil_subset _) hNames)

variable {α : Type} [FreeVars α] [Substitute L.Ty α] [LawfulSubstitute L.Ty α]

/-- What the context is applied to mentions none of its defined
variables afterwards. -/
theorem not_mem_defined {a : α} {x : Name} (hx : x ∈ freeVars (ctx.apply a)) :
    x ∉ ctx.defined := by
  rw [apply_eq_subst] at hx
  obtain ⟨z, hz, ⟨u, hLookup, hu⟩ | ⟨hLookup, rfl⟩⟩ := LawfulSubstitute.mem_freeVars_subst hx
  · exact avoids_normalize h _ (List.mem_reverse.mp (Name.mem_of_lookup hLookup)) x hu
  · intro hDefined
    rw [defined, ← names_normalizeEntries [], ← List.mem_reverse, ← List.map_reverse] at hDefined
    obtain ⟨u, hu⟩ := Name.exists_lookup hDefined
    rw [normalize, hu] at hLookup
    cases hLookup

theorem expands (a : α) : ctx.Expands a where
  normalize_apply := by rw [apply_eq_subst, normalize_normalize h, apply_eq_subst ctx]
  not_defined _ := not_mem_defined h
  apply_apply := by
    rw [apply_eq_subst ctx (ctx.apply a)]
    apply subst_of_unassigned
    intro x hx
    apply Name.lookup_of_not_mem
    rw [List.map_reverse, List.mem_reverse]
    intro hMem
    refine not_mem_defined h hx ?_
    rwa [defined, ← names_normalizeEntries []]

end Context

/-- Every definition mentions only variables that are declared before it, where
those of the given list are declared before all entries. -/
def DefinedBefore (xs : List Name) : List (Entry L) → Prop
  | [] => True
  | e :: es => (∀ d ∈ e.definition?, freeVars d.2 ⊆ xs) ∧
      DefinedBefore (xs ++ e.declared.map Prod.fst) es

/-- Definitions are in order if variables are declared once and before they are mentioned. A
variable that a later entry defines has not been declared yet where an earlier definition stands.
-/
theorem inOrder_of_definedBefore (xs : List Name) {es : List (Entry L)}
    (hNodup : (xs ++ (declared es).map Prod.fst).Nodup) (h : DefinedBefore xs es) :
    InOrder (definitions es) := by
  induction es generalizing xs with
  | nil => exact ⟨List.forall_mem_nil _, List.Pairwise.nil⟩
  | cons e es ih =>
      rw [declared_cons, List.map_append, ← List.append_assoc] at hNodup
      obtain ⟨hOwn, hPairwise⟩ := ih _ hNodup h.2
      cases e with
      | define x type kind =>
          have hMentions : freeVars type ⊆ xs := h.1 (x, type) rfl
          rw [List.append_assoc] at hNodup
          have hDisjoint := (List.nodup_append.mp hNodup).2.2
          refine ⟨List.forall_mem_cons.mpr ⟨fun hx => ?_, hOwn⟩,
            List.pairwise_cons.mpr ⟨fun later hLater hx => ?_, hPairwise⟩⟩
          · exact hDisjoint x (hMentions hx) x List.mem_cons_self rfl
          · refine hDisjoint _ (hMentions hx) _ (List.mem_append_right _ ?_) rfl
            exact mem_declared_of_definitions (List.mem_map_of_mem hLater)
      | _ => exact ⟨hOwn, hPairwise⟩

/-- Where no definition mentions a variable that it or a later one defines, as
where variables are declared once and before they are mentioned, a context
expands types and qualified types for good, and normalizing it does not change
what it means. No definition of the normalized context mentions a defined
variable, so it is normalized already. -/
theorem normalize_keeps_meaning :
    (∀ {ctx : Context Simple.language}, InOrder (definitions ctx.entries) →
      (∀ t : Simple.language.Ty, ctx.Expands t) ∧
      (∀ q : Simple.language.Qualified, ctx.Expands q) ∧
      Avoids (definitions ctx.normalize.entries) ctx.defined ∧
      ctx.normalize.normalize = ctx.normalize) ∧
    ∀ {ctx : Context Classes.language}, InOrder (definitions ctx.entries) →
      (∀ t : Classes.language.Ty, ctx.Expands t) ∧
      (∀ q : Classes.language.Qualified, ctx.Expands q) ∧
      Avoids (definitions ctx.normalize.entries) ctx.defined ∧
      ctx.normalize.normalize = ctx.normalize := by
  have hSimple : LawfulSubstitute Simple.language.Ty Simple.language.Ty :=
    inferInstanceAs (LawfulSubstitute Simple.Ty Simple.Ty)
  have hSimplePred : LawfulSubstitute Simple.language.Ty Simple.language.Pred :=
    inferInstanceAs (LawfulSubstitute Simple.Ty Empty)
  have hClasses : LawfulSubstitute Classes.language.Ty Classes.language.Ty :=
    inferInstanceAs (LawfulSubstitute Classes.Ty Classes.Ty)
  have hClassesPred : LawfulSubstitute Classes.language.Ty Classes.language.Pred :=
    inferInstanceAs (LawfulSubstitute Classes.Ty Classes.Predicate)
  constructor
  · intro ctx h
    exact ⟨expands h, expands h, avoids_normalize h, normalize_normalize h⟩
  · intro ctx h
    exact ⟨expands h, expands h, avoids_normalize h, normalize_normalize h⟩

/-- Definitions that share others, below and above bindings. -/
def Simple.sharingContext : Context Simple.language :=
  ⟨[.intro "a" .type, .define "b" (.arrow (.var "a") (.var "a")) .type,
    .bind "f" (.mono (.var "b")), .define "c" (.arrow (.var "b") (.var "b")) .type, .marker,
    .define "d" (.arrow (.var "c") (.var "b")) .type]⟩

/-- A definition of a type constructor, used in another definition. -/
def Classes.constructorContext : Context Classes.language :=
  ⟨[.declare ⟨"C", []⟩, .define "m" (.con "list" (.constructor 1)) (.constructor 1),
    .intro "a" .data, .define "b" (.app (.var "m" (.constructor 1)) (.var "a" .data)) .data]⟩

theorem normalize_keeps_meaning_shared :
    (Simple.sharingContext.apply (Simple.Ty.var "c") =
        .arrow (.arrow (.var "a") (.var "a")) (.arrow (.var "a") (.var "a")) ∧
      (∀ t : Simple.language.Ty, Simple.sharingContext.Expands t) ∧
      (∀ q : Simple.language.Qualified, Simple.sharingContext.Expands q) ∧
      Avoids (definitions Simple.sharingContext.normalize.entries) ["b", "c", "d"] ∧
      Simple.sharingContext.normalize.normalize = Simple.sharingContext.normalize) ∧
    Classes.constructorContext.apply (Classes.Ty.var "b" .data) =
        .app (.con "list" (.constructor 1)) (.var "a" .data) ∧
      (∀ t : Classes.language.Ty, Classes.constructorContext.Expands t) ∧
      (∀ q : Classes.language.Qualified, Classes.constructorContext.Expands q) ∧
      Avoids (definitions Classes.constructorContext.normalize.entries) ["m", "b"] ∧
      Classes.constructorContext.normalize.normalize = Classes.constructorContext.normalize := by
  have hSimple : InOrder (definitions Simple.sharingContext.entries) := by
    apply inOrder_of_definedBefore [] (by decide +kernel)
    simp [DefinedBefore, Simple.sharingContext, Entry.definition?, Entry.declared, freeVars,
      Simple.Ty.freeVars]
  have hClasses : InOrder (definitions Classes.constructorContext.entries) := by
    apply inOrder_of_definedBefore [] (by decide +kernel)
    simp [DefinedBefore, Classes.constructorContext, Entry.definition?, Entry.declared, freeVars,
      Classes.Ty.freeVars]
  exact ⟨⟨rfl, normalize_keeps_meaning.1 hSimple⟩, rfl, normalize_keeps_meaning.2 hClasses⟩

end HindleyMilner
