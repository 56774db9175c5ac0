import HindleyMilner.Inference.Generalization
import HindleyMilner.Solver.Measure

/-! Where a context declares its type variables. Bindings, markers and
declarations of the language stay where they are while constraints are solved;
variables may only move down past them, never up. -/
namespace HindleyMilner

variable {L : Language}

namespace Entry

/-- The type variables that an entry declares. A constraint declares the
variables it carries. -/
def declared : Entry L → L.Telescope
  | intro x kind => [(x, kind)]
  | define x _ kind => [(x, kind)]
  | constraint c => c.deps
  | _ => []

/-- Whether the solver leaves an entry in its place. -/
def isFixed : Entry L → Bool
  | bind .. => true
  | marker => true
  | declare _ => true
  | _ => false

def binding? : Entry L → Option (Name × L.Scheme)
  | bind x scheme => some (x, scheme)
  | _ => none

/-- Whether an entry stands for a type variable. -/
def isVariable : Entry L → Bool
  | intro .. => true
  | define .. => true
  | _ => false

/-- What introduces or defines a variable is not fixed. -/
theorem isFixed_of_isVariable {e : Entry L} (he : e.isVariable = true) : e.isFixed = false := by
  cases e with
  | intro x kind => rfl
  | define x type kind => rfl
  | _ => cases he

/-- An entry that declares a variable introduces it, unless it defines it or is
a constraint that carries it. -/
theorem eq_intro_of_mem_declared {e : Entry L} (hNot : e.isConstraint = false)
    (hDefinition : e.definition? = none) {p : Name × L.Kind} (hp : p ∈ e.declared) :
    e = intro p.1 p.2 := by
  cases e with
  | intro x kind => rw [List.mem_singleton.mp hp]
  | define x type kind => cases hDefinition
  | constraint c => cases hNot
  | _ => cases hp

end Entry

namespace Context

def declared (es : List (Entry L)) : L.Telescope := es.flatMap Entry.declared

def fixed (es : List (Entry L)) : List (Entry L) := es.filter Entry.isFixed

/-- The bindings of term variables, the nearest first. -/
def bindings (es : List (Entry L)) : List (Name × L.Scheme) :=
  (es.filterMap Entry.binding?).reverse

/-- The variables declared before the fixed entry with the given number. -/
def declaredBelow : Nat → List (Entry L) → L.Telescope
  | _, [] => []
  | n, e :: es =>
      if e.isFixed then
        match n with
        | 0 => []
        | n + 1 => declaredBelow n es
      else e.declared ++ declaredBelow n es

theorem declared_cons (e : Entry L) (es : List (Entry L)) :
    declared (e :: es) = e.declared ++ declared es := rfl

theorem declared_append (es fs : List (Entry L)) :
    declared (es ++ fs) = declared es ++ declared fs := List.flatMap_append

theorem declared_intros (deps : L.Telescope) : declared deps.intros = deps := by
  induction deps with
  | nil => rfl
  | cons d deps ih =>
      change declared (.intro d.1 d.2 :: Language.Telescope.intros deps) = _
      rw [declared_cons, ih]
      rfl

theorem fixed_append (es fs : List (Entry L)) : fixed (es ++ fs) = fixed es ++ fixed fs :=
  List.filter_append _ _

theorem fixed_intros (deps : L.Telescope) : fixed deps.intros = [] := by
  induction deps with
  | nil => rfl
  | cons d deps ih => exact ih

/-- A goal that carries no variables declares none. -/
theorem declared_ofGoals (goals : List (Goal L)) : declared (goals.map Entry.ofGoal) = [] := by
  induction goals with
  | nil => rfl
  | cons g goals ih => exact ih

theorem fixed_ofGoals (goals : List (Goal L)) : fixed (goals.map Entry.ofGoal) = [] := by
  induction goals with
  | nil => rfl
  | cons g goals ih => exact ih

/-- The definitions of some entries are read off the entries that define. -/
theorem mem_definitions {es : List (Entry L)} {x : Name} {u : L.Ty} :
    (x, u) ∈ definitions es ↔ ∃ k, .define x u k ∈ es := by
  constructor
  · intro h
    obtain ⟨e, he, hDefinition⟩ := List.mem_filterMap.mp h
    cases e with
    | define y type kind =>
        cases hDefinition
        exact ⟨kind, he⟩
    | _ => cases hDefinition
  · rintro ⟨k, h⟩
    exact List.mem_filterMap.mpr ⟨_, h, rfl⟩

theorem mem_declared_of_definitions {es : List (Entry L)} {x : Name}
    (h : x ∈ (definitions es).map Prod.fst) : x ∈ (declared es).map Prod.fst := by
  obtain ⟨d, hd, rfl⟩ := List.mem_map.mp h
  obtain ⟨k, hDefine⟩ := mem_definitions.mp hd
  have hMem : (d.1, k) ∈ declared es :=
    List.mem_flatMap.mpr ⟨_, hDefine, List.mem_singleton.mpr rfl⟩
  exact List.mem_map_of_mem (f := Prod.fst) hMem

theorem isFixed_of_fixed_nil {es : List (Entry L)} (h : fixed es = []) {e : Entry L}
    (he : e ∈ es) : e.isFixed = false := by
  simpa using List.filter_eq_nil_iff.mp h e he

/-- The bindings of some entries are those of the entries that bind. -/
theorem mem_bindings {es : List (Entry L)} {x : Name} {s : L.Scheme} :
    (x, s) ∈ bindings es ↔ .bind x s ∈ es := by
  rw [bindings, List.mem_reverse, List.mem_filterMap]
  constructor
  · rintro ⟨e, he, hBinding⟩
    cases e with
    | bind y t =>
        cases hBinding
        exact he
    | _ => cases hBinding
  · exact fun h => ⟨_, h, rfl⟩

/-- The nearest binding comes first, so the bindings of later entries come
before those of earlier ones. -/
theorem bindings_append (es fs : List (Entry L)) :
    bindings (es ++ fs) = bindings fs ++ bindings es := by
  rw [bindings, List.filterMap_append, List.reverse_append]
  rfl

/-- Bindings are fixed entries, so they depend on these alone. -/
theorem bindings_fixed (es : List (Entry L)) : bindings (fixed es) = bindings es := by
  have hKeep : ∀ e : Entry L, (if e.isFixed then some e else none).bind Entry.binding? =
      e.binding? := by
    intro e
    cases e <;> rfl
  rw [bindings, fixed, ← List.filterMap_eq_filter, List.filterMap_filterMap]
  simp only [Option.guard, hKeep]
  rfl

theorem bindings_of_fixed_nil {es : List (Entry L)} (h : fixed es = []) : bindings es = [] := by
  rw [← bindings_fixed, h]
  rfl

/-- An entry that is not fixed adds what it declares, however many fixed
entries are to be passed. -/
theorem declaredBelow_cons {e : Entry L} (he : e.isFixed = false) (n : Nat)
    (es : List (Entry L)) : declaredBelow n (e :: es) = e.declared ++ declaredBelow n es := by
  simp [declaredBelow, he]

/-- Nothing is declared below the first fixed entry when it is the first of all. -/
theorem declaredBelow_zero {e : Entry L} (he : e.isFixed = true) (es : List (Entry L)) :
    declaredBelow 0 (e :: es) = [] := by
  simp [declaredBelow, he]

/-- Passing one fixed entry leaves one fewer to pass. -/
theorem declaredBelow_succ {e : Entry L} (he : e.isFixed = true) (n : Nat)
    (es : List (Entry L)) : declaredBelow (n + 1) (e :: es) = declaredBelow n es := by
  simp [declaredBelow, he]

theorem fixed_cons {e : Entry L} (he : e.isFixed = true) (es : List (Entry L)) :
    fixed (e :: es) = e :: fixed es := List.filter_cons_of_pos he

theorem fixed_cons_of_not {e : Entry L} (he : e.isFixed = false) (es : List (Entry L)) :
    fixed (e :: es) = fixed es := List.filter_cons_of_neg (by simp [he])

theorem declared_of_isFixed {e : Entry L} (he : e.isFixed = true) : e.declared = [] := by
  cases e with
  | intro x kind => cases he
  | define x type kind => cases he
  | constraint c => cases he
  | _ => rfl

/-- Where a fixed entry is among the first entries, what comes after
them is not below it. -/
theorem declaredBelow_append_of_lt {es : List (Entry L)} {n : Nat} (h : n < (fixed es).length)
    (fs : List (Entry L)) : declaredBelow n (es ++ fs) = declaredBelow n es := by
  induction es generalizing n with
  | nil => cases h
  | cons e es ih =>
      rw [List.cons_append]
      cases he : e.isFixed with
      | true =>
          rw [fixed_cons he, List.length_cons] at h
          cases n with
          | zero => rw [declaredBelow_zero he, declaredBelow_zero he]
          | succ n => rw [declaredBelow_succ he, declaredBelow_succ he, ih (by omega)]
      | false =>
          rw [fixed_cons_of_not he] at h
          rw [declaredBelow_cons he, declaredBelow_cons he, ih h]

/-- Where the first entries have too few fixed ones, all that they declare is
below the one that is meant, and so is what later entries declare below it. -/
theorem declaredBelow_append_of_le {es : List (Entry L)} {n : Nat} (h : (fixed es).length ≤ n)
    (fs : List (Entry L)) :
    declaredBelow n (es ++ fs) = declared es ++ declaredBelow (n - (fixed es).length) fs := by
  induction es generalizing n with
  | nil => rfl
  | cons e es ih =>
      rw [List.cons_append, declared_cons]
      cases he : e.isFixed with
      | true =>
          rw [fixed_cons he, List.length_cons] at h ⊢
          obtain ⟨m, rfl⟩ : ∃ m, n = m + 1 := ⟨n - 1, by omega⟩
          rw [declaredBelow_succ he, declared_of_isFixed he, Nat.add_sub_add_right,
            List.nil_append]
          exact ih (by omega)
      | false =>
          rw [fixed_cons_of_not he] at h ⊢
          rw [declaredBelow_cons he, ih h, List.append_assoc]

/-- Beyond the last fixed entry everything is declared. -/
theorem declaredBelow_of_le {es : List (Entry L)} {n : Nat} (h : (fixed es).length ≤ n) :
    declaredBelow n es = declared es := by
  have hAppend := declaredBelow_append_of_le h []
  rwa [List.append_nil, declaredBelow, List.append_nil] at hAppend

theorem declaredBelow_subset (n : Nat) (es : List (Entry L)) :
    declaredBelow n es ⊆ declared es := by
  induction es generalizing n with
  | nil => exact List.nil_subset _
  | cons e es ih =>
      rw [declared_cons]
      cases he : e.isFixed with
      | true =>
          cases n with
          | zero =>
              rw [declaredBelow_zero he]
              exact List.nil_subset _
          | succ n =>
              rw [declaredBelow_succ he]
              exact List.subset_append_of_subset_right _ (ih n)
      | false =>
          rw [declaredBelow_cons he]
          apply List.append_subset.mpr
          exact ⟨List.subset_append_left _ _, List.subset_append_of_subset_right _ (ih n)⟩

/-- Entries that may stand where others stood: the fixed ones are the same, and
what was declared below one of them still is. -/
structure Extends (es fs : List (Entry L)) : Prop where
  fixed_eq : fixed fs = fixed es
  declaredBelow_subset : ∀ n, declaredBelow n es ⊆ declaredBelow n fs

namespace Extends

theorem refl (es : List (Entry L)) : Extends es es := ⟨rfl, fun _ _ h => h⟩

/-- Without fixed entries, all that matters is what is declared. -/
theorem of_fixed_nil {es fs : List (Entry L)} (hes : fixed es = []) (hfs : fixed fs = [])
    (h : declared es ⊆ declared fs) : Extends es fs := by
  refine ⟨hfs.trans hes.symm, fun n => ?_⟩
  rw [declaredBelow_of_le (by simp [hes]), declaredBelow_of_le (by simp [hfs])]
  exact h

theorem trans {es fs gs : List (Entry L)} (h : Extends es fs) (h' : Extends fs gs) :
    Extends es gs :=
  ⟨h'.fixed_eq.trans h.fixed_eq,
    fun n _ hp => h'.declaredBelow_subset n (h.declaredBelow_subset n hp)⟩

/-- No variable is lost in an extension. -/
theorem declared_subset {es fs : List (Entry L)} (h : Extends es fs) :
    declared es ⊆ declared fs := by
  have hBelow := h.declaredBelow_subset (fixed es).length
  have hLength : (fixed fs).length ≤ (fixed es).length := Nat.le_of_eq (congrArg _ h.fixed_eq)
  rw [declaredBelow_of_le (Nat.le_refl _), declaredBelow_of_le hLength] at hBelow
  exact hBelow

/-- Bindings are fixed, so an extension has the same. -/
theorem bindings_eq {es fs : List (Entry L)} (h : Extends es fs) : bindings fs = bindings es := by
  rw [← bindings_fixed, h.fixed_eq, bindings_fixed]

/-- Entries may be replaced in the middle of a context. Below a fixed entry
that comes before them nothing changes, and below one that comes after them
no less is declared. -/
theorem middle (pre post : List (Entry L)) {es fs : List (Entry L)} (h : Extends es fs) :
    Extends (pre ++ (es ++ post)) (pre ++ (fs ++ post)) := by
  have hLength : (fixed fs).length = (fixed es).length := congrArg _ h.fixed_eq
  refine ⟨by simp only [fixed_append, h.fixed_eq], fun n => ?_⟩
  rcases Nat.lt_or_ge n (fixed pre).length with hPre | hPre
  · rw [declaredBelow_append_of_lt hPre, declaredBelow_append_of_lt hPre]
    exact List.Subset.refl _
  · rw [declaredBelow_append_of_le hPre, declaredBelow_append_of_le hPre]
    refine List.append_subset.mpr
      ⟨List.subset_append_left _ _, List.subset_append_of_subset_right _ ?_⟩
    rcases Nat.lt_or_ge (n - (fixed pre).length) (fixed es).length with hMiddle | hMiddle
    · rw [declaredBelow_append_of_lt hMiddle, declaredBelow_append_of_lt (hLength ▸ hMiddle)]
      exact h.declaredBelow_subset _
    · rw [declaredBelow_append_of_le hMiddle, declaredBelow_append_of_le (hLength ▸ hMiddle),
        hLength]
      exact List.append_subset.mpr ⟨List.subset_append_of_subset_left _ h.declared_subset,
        List.subset_append_right _ _⟩

/-- Variables may be added on top. -/
theorem append {es fs gs : List (Entry L)} (h : Extends es fs) (hFixed : fixed gs = []) :
    Extends es (fs ++ gs) := by
  refine ⟨by rw [fixed_append, hFixed, List.append_nil, h.fixed_eq], fun n p hp => ?_⟩
  have hMem := h.declaredBelow_subset n hp
  by_cases hn : n < (fixed fs).length
  · rwa [declaredBelow_append_of_lt hn]
  · rw [declaredBelow_of_le (by omega)] at hMem
    rw [declaredBelow_append_of_le (by omega)]
    exact List.mem_append_left _ hMem

/-- A fixed entry at the end can be found again, with what was below it still
below it. -/
theorem exists_split {es fs : List (Entry L)} {e : Entry L} (he : e.isFixed = true)
    (h : Extends (es ++ [e]) fs) :
    ∃ pre post, fs = pre ++ e :: post ∧ Extends es pre ∧ fixed post = [] := by
  have hFixed : fixed fs = fixed es ++ e :: [] := by
    rw [h.fixed_eq, fixed_append]
    exact congrArg _ (List.filter_cons_of_pos he)
  obtain ⟨pre, rest, rfl, hPre, hRest⟩ := List.filter_eq_append_iff.mp hFixed
  obtain ⟨mid, post, rfl, hMid, -, hPost⟩ := List.filter_eq_cons_iff.mp hRest
  have hMidFixed : fixed mid = [] := List.filter_eq_nil_iff.mpr hMid
  refine ⟨pre ++ mid, post, by simp, ⟨?_, fun n p hp => ?_⟩, hPost⟩
  · rw [fixed_append, hMidFixed, List.append_nil]
    exact hPre
  · have hLength : (fixed (pre ++ mid)).length = (fixed es).length := by
      rw [fixed_append, hMidFixed, List.append_nil]
      exact congrArg List.length hPre
    by_cases hn : n < (fixed es).length
    · have hMem : p ∈ declaredBelow n (pre ++ (mid ++ e :: post)) := by
        apply h.declaredBelow_subset n
        rwa [declaredBelow_append_of_lt hn]
      rwa [← List.append_assoc, declaredBelow_append_of_lt (by omega)] at hMem
    · rw [declaredBelow_of_le (by omega)] at hp
      have hMem : p ∈ declaredBelow (fixed es).length (pre ++ (mid ++ e :: post)) := by
        apply h.declaredBelow_subset
        rw [declaredBelow_append_of_le (Nat.le_refl _)]
        exact List.mem_append_left _ hp
      rw [← List.append_assoc, declaredBelow_append_of_le (by omega), hLength, Nat.sub_self,
        declaredBelow_zero he, List.append_nil] at hMem
      rwa [declaredBelow_of_le (by omega)]

end Extends

/-- A binding that is found later is nearer, so what stands before it is kept. -/
theorem splitBinding_cons_of_some {x : Name} {es rest : List (Entry L)} {s : L.Scheme}
    (h : splitBinding x es = some (s, rest)) (e : Entry L) :
    splitBinding x (e :: es) = some (s, e :: rest) := by
  simp only [splitBinding, h]

/-- Where there is no later binding of the variable, the first entry is the only
one that may bind it. -/
theorem splitBinding_cons_of_none {x : Name} {es : List (Entry L)}
    (h : splitBinding x es = none) (e : Entry L) :
    splitBinding x (e :: es) =
      (e.binding?.bind fun p => if p.1 = x then some (p.2, es) else none) := by
  cases e <;> simp only [splitBinding, h] <;> rfl

theorem splitBinding_of_bindings_nil {x : Name} {es : List (Entry L)} (h : bindings es = []) :
    splitBinding x es = none := by
  induction es with
  | nil => rfl
  | cons e es ih =>
      rw [← List.singleton_append, bindings_append, List.append_eq_nil_iff] at h
      have hNone : e.binding? = none := by
        cases he : e.binding? with
        | none => rfl
        | some p => simp [bindings, he] at h
      rw [splitBinding_cons_of_none (ih h.1), hNone]
      rfl

/-- A binding above which nothing is fixed is the one that is found, and taking
it out leaves the entries around it. -/
theorem splitBinding_append {x : Name} {s : L.Scheme} {post : List (Entry L)}
    (h : fixed post = []) (pre : List (Entry L)) :
    splitBinding x (pre ++ .bind x s :: post) = some (s, pre ++ post) := by
  induction pre with
  | nil =>
      have hNone : splitBinding x post = none :=
        splitBinding_of_bindings_nil (bindings_of_fixed_nil h)
      rw [List.nil_append, splitBinding_cons_of_none hNone]
      exact if_pos rfl
  | cons e pre ih => exact splitBinding_cons_of_some ih e

theorem removeBinding_append {x : Name} {s : L.Scheme} {post : List (Entry L)}
    (h : fixed post = []) (pre : List (Entry L)) :
    removeBinding ⟨pre ++ .bind x s :: post⟩ x = .ok (s, ⟨pre ++ post⟩) := by
  rw [removeBinding, splitBinding_append h]

theorem splitBinding_subset {x : Name} {s : L.Scheme} {es rest : List (Entry L)}
    (h : splitBinding x es = some (s, rest)) : rest ⊆ es := by
  induction es generalizing rest with
  | nil => cases h
  | cons e es ih =>
      cases hSplit : splitBinding x es with
      | some found =>
          rw [splitBinding_cons_of_some hSplit] at h
          cases h
          exact List.cons_subset_cons e (ih hSplit)
      | none =>
          rw [splitBinding_cons_of_none hSplit] at h
          obtain ⟨b, -, hFound⟩ := Option.bind_eq_some_iff.mp h
          split at hFound
          · cases hFound
            exact List.subset_cons_self e es
          · cases hFound

theorem removeBinding_subset {x : Name} {ctx : Context L} {removed : L.Scheme × Context L}
    (h : ctx.removeBinding x = .ok removed) : removed.2.entries ⊆ ctx.entries := by
  rw [removeBinding] at h
  cases hSplit : splitBinding x ctx.entries with
  | some found =>
      rw [hSplit] at h
      cases h
      exact splitBinding_subset hSplit
  | none =>
      rw [hSplit] at h
      cases h

/-- Looking a variable up in a context is looking it up in the list of its
bindings, of which the nearest comes first. -/
theorem lookup_eq_bindings (es : List (Entry L)) (x : Name) :
    lookup ⟨es⟩ x = (bindings es).lookup x := by
  induction es with
  | nil => rfl
  | cons e es ih =>
      rw [← List.singleton_append, bindings_append, List.lookup_append, ← ih, lookup, lookup,
        List.singleton_append]
      cases hSplit : splitBinding x es with
      | some found => rw [splitBinding_cons_of_some hSplit e]; rfl
      | none =>
          rw [splitBinding_cons_of_none hSplit, Option.map_none, Option.none_or]
          cases e with
          | bind y s =>
              by_cases hy : y = x
              · subst hy
                simp [bindings, Entry.binding?]
              · have hBeq : (x == y) = false := beq_eq_false_iff_ne.mpr (Ne.symm hy)
                simp [bindings, Entry.binding?, hy, hBeq, List.lookup_cons]
          | _ => rfl

/-- Entries that are neither fixed nor constraints are taken off one by one,
down to the marker. -/
theorem skimFrom_append {above : List (Entry L)} (hFixed : ∀ e ∈ above, e.isFixed = false)
    (hSettled : ∀ e ∈ above, e.isConstraint = false) (below taken : List (Entry L)) :
    skimFrom (above ++ .marker :: below) taken =
      .ok (⟨below.reverse⟩, above.reverse ++ taken) := by
  induction above generalizing taken with
  | nil => rfl
  | cons e above ih =>
      have hRest := ih (fun f hf => hFixed f (List.mem_cons_of_mem _ hf))
        (fun f hf => hSettled f (List.mem_cons_of_mem _ hf)) (e :: taken)
      have hNotFixed := hFixed e List.mem_cons_self
      have hNotConstraint := hSettled e List.mem_cons_self
      rw [List.reverse_cons, List.append_assoc, List.singleton_append, ← hRest]
      cases e with
      | intro x kind => rfl
      | define x type kind => rfl
      | constraint c => cases hNotConstraint
      | _ => cases hNotFixed

/-- Above the last marker, variables alone can be taken off. -/
theorem skim_append {pre post : List (Entry L)} (hFixed : fixed post = [])
    (hSettled : Settled post) : skim ⟨pre ++ .marker :: post⟩ = .ok (⟨pre⟩, post) := by
  have hSkim := @skimFrom_append L post.reverse
    (fun e he => isFixed_of_fixed_nil hFixed (List.mem_reverse.mp he))
    (fun e he => hSettled e (List.mem_reverse.mp he)) pre.reverse []
  rw [List.reverse_reverse, List.reverse_reverse, List.append_nil] at hSkim
  rw [skim, List.reverse_append, List.reverse_cons, List.append_assoc, List.singleton_append]
  exact hSkim

/-- Taking entries off loses none: those taken, the marker and those that remain
are the entries there were. -/
theorem skimFrom_eq_ok {stack taken above : List (Entry L)} {rest : Context L}
    (h : skimFrom stack taken = .ok (rest, above)) :
    stack.reverse ++ taken = rest.entries ++ .marker :: above := by
  induction stack generalizing taken with
  | nil => cases h
  | cons e stack ih =>
      rw [List.reverse_cons, List.append_assoc, List.singleton_append]
      cases e with
      | marker =>
          cases h
          rfl
      | intro x kind => exact ih h
      | define x type kind => exact ih h
      | _ => cases h

/-- What is skimmed off stood above a marker, and the rest below it. -/
theorem skim_eq_ok {ctx rest : Context L} {above : List (Entry L)}
    (h : ctx.skim = .ok (rest, above)) : ctx.entries = rest.entries ++ .marker :: above := by
  have hSkim := skimFrom_eq_ok h
  rwa [List.reverse_reverse, List.append_nil] at hSkim

end Context

end HindleyMilner
