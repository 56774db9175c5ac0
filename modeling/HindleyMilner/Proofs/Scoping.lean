import HindleyMilner.Proofs.Refinement

/-! Scoping. A state is well-formed when every type variable is declared once, before
it is used, and is none of the names that are still to be drawn. That is one
discipline among others, so whatever refines states keeps them well-formed. -/
namespace HindleyMilner

open Context

variable {L : Language}

namespace Entry

variable [Sized L] [FreeVars L.Special]

def freeVars : Entry L → List Name
  | define _ type _ => FreeVars.freeVars type
  | bind _ scheme => FreeVars.freeVars scheme
  | constraint c => c.goal.freeVars
  | _ => []

/-- The variables that an entry may use although nothing below it declares them. -/
def carried : Entry L → L.Telescope
  | constraint c => c.deps
  | _ => []

omit [Sized L] [FreeVars L.Special] in
/-- What a constraint carries is declared where it stands. -/
theorem carried_subset (e : Entry L) : e.carried ⊆ e.declared := by
  cases e with
  | constraint c => exact List.Subset.refl _
  | _ => exact List.nil_subset _

end Entry

/-- Every type variable is declared once and before it is used, and no variable
in use has yet to be drawn. -/
structure State.WellFormed [Sized L] [FreeVars L.Special] (s : State L) : Prop where
  nodup : ((declared s.context.entries).map Prod.fst).Nodup
  inScope : ∀ below e above, s.context.entries = below ++ e :: above →
    ∀ x ∈ e.freeVars, x ∈ (declared below ++ e.carried).map Prod.fst
  drawn : ∀ x, s.supply.Pending x → x ∉ (declared s.context.entries).map Prod.fst ∧
    ∀ e ∈ s.context.entries, x ∉ e.freeVars

section

variable [Sized L] [FreeVars L.Special]

/-- Whether every entry uses variables that are given or declared before it. -/
def inScopeFrom (names : List Name) : List (Entry L) → Bool
  | [] => true
  | e :: es =>
      e.freeVars.all (fun x => x ∈ names ++ e.carried.map Prod.fst) &&
        inScopeFrom (names ++ e.declared.map Prod.fst) es

/-- The check of scopes, which goes through the entries once, says that an entry
mentions variables declared before it or carried by it. -/
theorem inScopeFrom_iff {names : List Name} {es : List (Entry L)} :
    inScopeFrom names es = true ↔ ∀ below e above, es = below ++ e :: above →
      ∀ x ∈ e.freeVars, x ∈ names ++ (declared below ++ e.carried).map Prod.fst := by
  induction es generalizing names with
  | nil => simp [inScopeFrom]
  | cons e es ih =>
      simp only [inScopeFrom, Bool.and_eq_true, List.all_eq_true, decide_eq_true_eq, ih]
      constructor
      · rintro ⟨hHead, hRest⟩ below f above hSplit
        cases below with
        | nil =>
            cases hSplit
            exact hHead
        | cons first below =>
            cases hSplit
            simpa only [declared_cons, List.map_append, List.append_assoc] using
              hRest below f above rfl
      · intro h
        refine ⟨h [] e es rfl, fun below f above hSplit => ?_⟩
        have hLater := h (e :: below) f above (congrArg _ hSplit)
        simpa only [declared_cons, List.map_append, List.append_assoc] using hLater

/-- A state is well-formed if variables are declared once, mentioned
after they are declared, and if nothing that it mentions or declares
has yet to be drawn. -/
theorem State.wellFormed_iff {s : State L} :
    s.WellFormed ↔ ((declared s.context.entries).map Prod.fst).Nodup ∧
      inScopeFrom [] s.context.entries = true ∧
      (∀ x ∈ (declared s.context.entries).map Prod.fst, ¬s.supply.Pending x) ∧
      ∀ e ∈ s.context.entries, ∀ x ∈ e.freeVars, ¬s.supply.Pending x := by
  simp only [inScopeFrom_iff, List.nil_append]
  constructor
  · rintro ⟨hNodup, hScope, hDrawn⟩
    exact ⟨hNodup, hScope, fun x hx hPending => (hDrawn x hPending).1 hx,
      fun e he x hx hPending => (hDrawn x hPending).2 e he hx⟩
  · rintro ⟨hNodup, hScope, hDeclared, hFree⟩
    exact ⟨hNodup, hScope, fun x hPending =>
      ⟨fun hx => hDeclared x hx hPending, fun e he hx => hFree e he x hx hPending⟩⟩

instance (s : State L) : Decidable s.WellFormed := decidable_of_iff' _ State.wellFormed_iff

end

/-- What became of a state while its constraints were worked on:
bindings, markers and declarations are as they were, variables are
declared at their kinds, and those declared before one of these entries
are not declared after it. -/
structure State.Keeps (s t : State L) : Prop where
  fixed_eq : fixed t.context.entries = fixed s.context.entries
  declared_subset : declared s.context.entries ⊆ declared t.context.entries
  stays_below : ∀ below e above below' above',
    s.context.entries = below ++ e :: above → t.context.entries = below' ++ e :: above' →
    e.isFixed = true → (fixed below').length = (fixed below).length →
    ∀ x ∈ (declared below).map Prod.fst, x ∉ (declared above').map Prod.fst

/-- A language whose rules bring in no type variables of their own. -/
class Lexical (L : Language) [Rules L] [Sized L] [FreeVars L.Special] : Prop where
  asVar_var : ∀ x k, L.asVar? (L.var x k) = some x
  mem_freeVars : ∀ {t : L.Ty} {x : Name}, L.asVar? t = some x → x ∈ freeVars t
  freeVars_var : ∀ {x : Name} {k : L.Kind}, ∀ y ∈ freeVars (L.var x k), y = x
  freeVars_arrow : ∀ {a b : L.Ty}, freeVars (L.arrow a b) ⊆ freeVars a ++ freeVars b
  freeVars_subst : ∀ {σ : Assignment L.Ty} {t : L.Ty}, ∀ y ∈ freeVars (subst σ t),
    ∃ x ∈ freeVars t, (∃ u, σ x = some u ∧ y ∈ freeVars u) ∨ (σ x = none ∧ y = x)
  freeVars_decompose : ∀ {l r : L.Ty} {goals : List (Goal L)}, Rules.decompose l r = .ok goals →
    ∀ g ∈ goals, g.freeVars ⊆ freeVars l ++ freeVars r
  freeVars_literal : ∀ {value : Binary64} {t : L.Ty}, Rules.literal value = .ok t →
    freeVars t = []

/-- Types that are equated part by part mention the variables of their parts. -/
theorem mem_of_mem_sides {x : Name} {a b c d : List Name} (h : x ∈ a ++ c ∨ x ∈ b ++ d) :
    x ∈ (a ++ b) ++ (c ++ d) := by
  simp only [List.mem_append] at h ⊢
  grind

/-- Every variable that occurs is declared. -/
def Sorting.scoping (L : Language) [FreeVars L.Special] : Sorting L where
  Ty K t _ := ∀ x ∈ freeVars t, ∃ k, K x k
  Equated _ := True
  Special K g := ∀ x ∈ freeVars g, ∃ k, K x k

section

variable [Sized L] [FreeVars L.Special]

omit [Sized L] in
/-- An equation makes sense, as far as scopes go, if its variables are declared. -/
theorem Sorting.equation_scoping {K : L.Scope} {l r : L.Ty} :
    (Sorting.scoping L).Equation K l r ↔ ∀ x ∈ freeVars l ++ freeVars r, ∃ k, K x k := by
  constructor
  · rintro ⟨k, -, hl, hr⟩ x hx
    exact (List.mem_append.mp hx).elim (hl x) (hr x)
  · intro h
    exact ⟨L.valueKind, trivial, fun x hx => h x (List.mem_append_left _ hx),
      fun x hx => h x (List.mem_append_right _ hx)⟩

theorem Sorting.goal_scoping {K : L.Scope} {g : HindleyMilner.Goal L} :
    (Sorting.scoping L).Goal K g ↔ ∀ x ∈ g.freeVars, ∃ k, K x k := by
  cases hSides : g.sides with
  | some sides =>
      rw [Goal.freeVars_of_sides hSides, Sorting.goal_of_sides _ hSides, equation_scoping]
  | none =>
      cases g with
      | eq l r => cases hSides
      | special g =>
          have hNone : Sized.specialSides g = none := hSides
          simp only [Goal, Goal.freeVars, hNone]
          rfl

end

variable [Rules L] [Sized L] [FreeVars L.Special] [Lexical L]

def Discipline.scoping (L : Language) [Rules L] [Sized L] [FreeVars L.Special] [Lexical L] :
    Discipline L where
  toSorting := .scoping L
  ty_declared h := h
  ty_mono h hTy x hx := by
    obtain ⟨k, hk⟩ := hTy x hx
    exact ⟨k, h x k hx hk⟩
  special_mono h hSpecial x hx := by
    obtain ⟨k, hk⟩ := hSpecial x hx
    exact ⟨k, h x k hx hk⟩
  ty_subst h hTy y hy := by
    obtain ⟨x, hx, hSource⟩ := Lexical.freeVars_subst y hy
    obtain ⟨j, hj⟩ := hTy x hx
    rcases h x j hx hj with ⟨u, hu, hTyped⟩ | ⟨hNone, hK⟩
    · rcases hSource with ⟨u', hu', hy⟩ | ⟨hNone, -⟩
      · rw [hu] at hu'
        cases hu'
        exact hTyped y hy
      · rw [hu] at hNone
        cases hNone
    · rcases hSource with ⟨u', hu', -⟩ | ⟨-, rfl⟩
      · rw [hNone] at hu'
        cases hu'
      · exact ⟨j, hK⟩
  ty_solve _ _ _ h := h
  decompose hEquation h g hg := by
    rw [Sorting.equation_scoping] at hEquation
    rw [Sorting.goal_scoping]
    intro x hx
    exact hEquation x (Lexical.freeVars_decompose h g hg hx)
  equated_value := trivial
  ty_var {K x k} h y hy := by
    rw [Lexical.freeVars_var y hy]
    exact ⟨k, h⟩
  ty_arrow ha hb x hx := (List.mem_append.mp (Lexical.freeVars_arrow hx)).elim (ha x) (hb x)
  ty_literal h x hx := by
    rw [Lexical.freeVars_literal h] at hx
    cases hx

omit [Rules L] [Sized L] [FreeVars L.Special] [Lexical L] in
theorem mem_names_iff {K : L.Telescope} {x : Name} :
    x ∈ K.map Prod.fst ↔ ∃ k, K.Declares x k := by
  simp [Language.Telescope.Declares]

omit [Rules L] [FreeVars L.Special] [Lexical L] in
/-- Entries make sense one after another if each does with the variables that
are declared before it. -/
theorem Sorting.scoped_iff (S : Sorting L) {K : L.Telescope} {es : List (HindleyMilner.Entry L)} :
    S.Scoped K es ↔
      ∀ below e above, es = below ++ e :: above → S.Entry (K ++ declared below) e := by
  constructor
  · rintro h below e above rfl
    exact (S.scoped_append.mp h).2.1
  · intro h
    induction es generalizing K with
    | nil => trivial
    | cons e es ih =>
        constructor
        · have hHead := h [] e es rfl
          have hNil : declared ([] : List (HindleyMilner.Entry L)) = [] := rfl
          rwa [hNil, List.append_nil] at hHead
        · apply ih
          rintro below f above rfl
          have hLater := h (e :: below) f above rfl
          rwa [declared_cons, ← List.append_assoc] at hLater

/-- The free variables of every scheme are declared below it. -/
def SchemesInScope (es : List (Entry L)) : Prop := ∀ below x scheme above,
  es = below ++ .bind x scheme :: above → ∀ y ∈ freeVars scheme, y ∈ (declared below).map Prod.fst

omit [Rules L] [Sized L] [FreeVars L.Special] [Lexical L] in
/-- A scheme may be bound above the variables that are free in it. -/
theorem SchemesInScope.push {es : List (Entry L)} (h : SchemesInScope es) {e : Entry L}
    (he : ∀ x scheme, e = .bind x scheme → ∀ y ∈ freeVars scheme, y ∈ (declared es).map Prod.fst) :
    SchemesInScope (es ++ [e]) := by
  intro below x scheme above hSplit
  rcases List.eq_nil_or_concat above with rfl | ⟨rest, last, rfl⟩
  · obtain ⟨rfl, hLast⟩ := List.append_inj' hSplit rfl
    exact he x scheme (List.singleton_inj.mp hLast)
  · rw [List.concat_eq_append, ← List.cons_append, ← List.append_assoc] at hSplit
    exact h below x scheme rest (List.append_inj' hSplit rfl).1

omit [Rules L] [Sized L] [FreeVars L.Special] [Lexical L] in
/-- The free variables of a bound scheme are declared. -/
theorem SchemesInScope.mem_declared {es : List (Entry L)} (h : SchemesInScope es) {x : Name}
    {scheme : L.Scheme} (hMem : (x, scheme) ∈ bindings es) :
    ∀ y ∈ freeVars scheme, y ∈ (declared es).map Prod.fst := by
  intro y hy
  obtain ⟨below, above, rfl⟩ := List.append_of_mem (mem_bindings.mp hMem)
  rw [declared_append, List.map_append]
  exact List.mem_append_left _ (h below x scheme above rfl y hy)

omit [Rules L] [Sized L] [FreeVars L.Special] [Lexical L] in
/-- A quantified variable has a kind. -/
theorem Scheme.exists_lookup (scheme : L.Scheme) {x : Name}
    (h : x ∈ scheme.quantified.map Prod.fst) :
    ∃ k, scheme.quantified.reverse.lookup x = some k := by
  apply Name.exists_lookup
  rw [List.map_reverse]
  exact List.mem_reverse.mpr h

omit [Rules L] [Sized L] [Lexical L] in
/-- A scheme makes sense, as far as scopes go, if its free variables are
declared. -/
theorem Sorting.scheme_scoping {K : L.Telescope} {scheme : L.Scheme}
    (h : ∀ y ∈ freeVars scheme, y ∈ K.map Prod.fst) :
    (Sorting.scoping L).Scheme K.Declares scheme := by
  intro x hx
  by_cases hQuantified : x ∈ scheme.quantified.map Prod.fst
  · obtain ⟨k, hk⟩ := scheme.exists_lookup hQuantified
    exact ⟨k, .inl hk⟩
  · have hFree : x ∈ freeVars scheme :=
      List.mem_filter.mpr ⟨List.mem_append_left _ hx, decide_eq_true hQuantified⟩
    obtain ⟨k, hk⟩ := mem_names_iff.mp (h x hFree)
    exact ⟨k, .inr ⟨hQuantified, hk⟩⟩

omit [Rules L] [Lexical L] in
/-- Entries that are no bindings make sense if their variables are declared. -/
theorem Sorting.entry_scoping {K : L.Telescope} {e : HindleyMilner.Entry L}
    (he : e.binding? = none) : (Sorting.scoping L).Entry K e ↔
      ∀ x ∈ e.freeVars, x ∈ (K ++ e.carried).map Prod.fst := by
  cases e with
  | define x type kind =>
      simp only [mem_names_iff, HindleyMilner.Entry.carried, List.append_nil]
      rfl
  | constraint c =>
      simp only [mem_names_iff]
      exact goal_scoping
  | bind x scheme => cases he
  | _ => exact ⟨fun _ _ hx => (nomatch hx), fun _ => trivial⟩

omit [Rules L] [Lexical L] in
/-- In a well-formed state the schemes that are bound mention variables
declared below them. -/
theorem State.WellFormed.schemesInScope {s : State L} (h : s.WellFormed) :
    SchemesInScope s.context.entries := by
  intro below x scheme above hEntries y hy
  have hMem : y ∈ (declared below ++ []).map Prod.fst := h.inScope below _ above hEntries y hy
  rwa [List.append_nil] at hMem

/-- A well-formed state is good for the discipline of scopes. -/
theorem State.WellFormed.good {s : State L} (h : s.WellFormed) :
    (Discipline.scoping L).Good s := by
  refine ⟨⟨(Sorting.scoped_iff _).mpr fun below e above hEntries => ?_, h.nodup⟩, fun p hp hx => ?_⟩
  · cases hBinding : e.binding? with
    | none => exact (Sorting.entry_scoping hBinding).mpr (h.inScope below e above hEntries)
    | some b =>
        cases e with
        | bind x scheme =>
            exact Sorting.scheme_scoping (h.schemesInScope below x scheme above hEntries)
        | _ => cases hBinding
  · exact (h.drawn p.1 hx).1 (List.mem_map_of_mem hp)

/-- A state that is good for the discipline of scopes is well-formed, if its
schemes are in scope. -/
theorem Discipline.Good.toWellFormed {s : State L} (h : (Discipline.scoping L).Good s)
    (hSchemes : SchemesInScope s.context.entries) : s.WellFormed := by
  have hInScope : ∀ below e above, s.context.entries = below ++ e :: above →
      ∀ x ∈ e.freeVars, x ∈ (declared below ++ e.carried).map Prod.fst := by
    intro below e above hEntries
    cases hBinding : e.binding? with
    | none =>
        apply (Sorting.entry_scoping hBinding).mp
        exact (Sorting.scoped_iff _).mp h.wellFormed.inScope below e above hEntries
    | some b =>
        cases e with
        | bind x scheme =>
            change ∀ y ∈ freeVars scheme, y ∈ (declared below ++ []).map Prod.fst
            rw [List.append_nil]
            exact hSchemes below x scheme above hEntries
        | _ => cases hBinding
  have hDeclared : ∀ x, s.supply.Pending x → x ∉ (declared s.context.entries).map Prod.fst := by
    intro x hx hMem
    obtain ⟨p, hp, rfl⟩ := List.mem_map.mp hMem
    exact h.drawn p hp hx
  refine ⟨h.wellFormed.nodup, hInScope, fun x hx => ⟨hDeclared x hx, fun e he hFree => ?_⟩⟩
  -- What an entry uses is declared below it or by the entry itself.
  obtain ⟨below, above, hEntries⟩ := List.append_of_mem he
  apply hDeclared x hx
  refine List.map_subset _ ?_ (hInScope below e above hEntries x hFree)
  rw [hEntries, declared_append, declared_cons]
  exact List.append_subset.mpr ⟨List.subset_append_left _ _,
    List.subset_append_of_subset_right _ (List.subset_append_of_subset_left _ e.carried_subset)⟩

omit [Lexical L] in
/-- Whether an entry makes sense depends on its own variables alone, so scopes
that give these the same kinds are as good as each other. -/
theorem Discipline.entry_of_scope (D : Discipline L) {K K' : L.Telescope} {e : Entry L}
    (h : ∀ x j, x ∈ e.freeVars → (x, j) ∈ K ++ e.carried → (x, j) ∈ K' ++ e.carried)
    (hEntry : D.Entry K e) : D.Entry K' e := by
  have hFixed : e.carried = [] → ∀ x j, x ∈ e.freeVars → (x, j) ∈ K → (x, j) ∈ K' := by
    intro hCarried x j hx hMem
    have hMem' := h x j hx (List.mem_append_left _ hMem)
    rwa [hCarried, List.append_nil] at hMem'
  cases e with
  | define x type kind => exact D.ty_mono (hFixed rfl) hEntry
  | bind x scheme =>
      refine D.ty_mono (fun y j hy hWithin => hWithin.imp_right fun hOuter => ?_) hEntry
      have hFree : y ∈ freeVars scheme :=
        List.mem_filter.mpr ⟨List.mem_append_left _ hy, decide_eq_true hOuter.1⟩
      exact ⟨hOuter.1, hFixed rfl y j hFree hOuter.2⟩
  | constraint c => exact D.goal_mono h hEntry
  | _ => trivial

omit [Lexical L] in
/-- What makes sense with the variables below it makes sense with all of them. -/
theorem Discipline.entry_of_mem {D : Discipline L} {es : List (Entry L)} (h : D.WellFormed es)
    {e : Entry L} (he : e ∈ es) : D.Entry (declared es) e := by
  obtain ⟨below, above, hEntries⟩ := List.append_of_mem he
  refine D.entry_mono ?_ (D.scoped_iff.mp h.inScope below e above hEntries)
  rw [List.nil_append, hEntries, declared_append]
  exact List.subset_append_left _ _

omit [Lexical L] in
/-- What makes sense with all variables of a well-formed state makes sense
with those below it. -/
theorem State.WellFormed.entry_below {s : State L} (h : s.WellFormed) {D : Discipline L}
    {below above : List (Entry L)} {e : Entry L}
    (hEntries : s.context.entries = below ++ e :: above)
    (hEntry : D.Entry (declared s.context.entries) e) : D.Entry (declared below) e := by
  refine D.entry_of_scope (fun x j hx hMem => ?_) hEntry
  have hAll : declared s.context.entries =
      declared below ++ (e.declared ++ declared above) := by
    rw [hEntries, declared_append, declared_cons]
  have hBelow : declared below ++ e.carried ⊆ declared s.context.entries := by
    rw [hAll]
    exact List.append_subset.mpr ⟨List.subset_append_left _ _,
      List.subset_append_of_subset_right _ (List.subset_append_of_subset_left _ e.carried_subset)⟩
  have hDeclared : (x, j) ∈ declared s.context.entries := by
    rcases List.mem_append.mp hMem with hMem | hMem
    · exact hMem
    · exact hBelow (List.mem_append_right _ hMem)
  -- The name is declared below the entry, and it has one kind.
  obtain ⟨k, hk⟩ := mem_names_iff.mp (h.inScope below e above hEntries x hx)
  rw [Name.eq_of_nodup h.nodup hDeclared (hBelow hk)]
  exact hk

omit [Lexical L] in
/-- A well-formed state is good for a discipline if its entries make sense with
all of its variables. -/
theorem State.WellFormed.good_of_entries {s : State L} (h : s.WellFormed) {D : Discipline L}
    (hEntries : ∀ e ∈ s.context.entries, D.Entry (declared s.context.entries) e) : D.Good s := by
  refine ⟨⟨D.scoped_iff.mpr fun below e above hSplit => ?_, h.nodup⟩, fun p hp hPending => ?_⟩
  · apply h.entry_below hSplit
    apply hEntries
    rw [hSplit]
    exact List.mem_append_right _ List.mem_cons_self
  · exact (h.drawn p.1 hPending).1 (List.mem_map_of_mem hp)

namespace Context.Extends

omit [Rules L] [Sized L] [FreeVars L.Special] [Lexical L]

/-- What was declared below a fixed entry is declared below it. -/
theorem declared_below {es fs : List (Entry L)} (h : Extends es fs) {e e' : Entry L}
    {below above below' above' : List (Entry L)} (hes : es = below ++ e :: above)
    (hfs : fs = below' ++ e' :: above') (he : e.isFixed = true) (he' : e'.isFixed = true)
    (hLength : (fixed below').length = (fixed below).length) :
    declared below ⊆ declared below' := by
  have hBelow := h.declaredBelow_subset (fixed below).length
  rw [hes, hfs, declaredBelow_append_of_le (Nat.le_refl _),
    declaredBelow_append_of_le (Nat.le_of_eq hLength),
    hLength, Nat.sub_self, declaredBelow_zero he, declaredBelow_zero he', List.append_nil,
    List.append_nil] at hBelow
  exact hBelow

/-- A fixed entry stood where others stood before it. -/
theorem exists_fixed {es fs : List (Entry L)} (h : Extends es fs) {e : Entry L}
    {below above : List (Entry L)} (hfs : fs = below ++ e :: above) (he : e.isFixed = true) :
    ∃ below' above', es = below' ++ e :: above' ∧
      (fixed below').length = (fixed below).length := by
  have hFixed : fixed es = fixed below ++ e :: fixed above := by
    rw [← h.fixed_eq, hfs, fixed_append, fixed_cons he]
  obtain ⟨pre, rest, rfl, hPre, hRest⟩ := List.filter_eq_append_iff.mp hFixed
  obtain ⟨mid, post, rfl, hMid, -, -⟩ := List.filter_eq_cons_iff.mp hRest
  refine ⟨pre ++ mid, post, by simp, ?_⟩
  rw [fixed_append, show fixed mid = [] from List.filter_eq_nil_iff.mpr hMid, List.append_nil]
  exact congrArg List.length hPre

/-- An extension keeps schemes in scope, since what was declared below
a binding still is. -/
theorem schemesInScope {es fs : List (Entry L)} (h : Extends es fs) (hes : SchemesInScope es) :
    SchemesInScope fs := by
  intro below x scheme above hfs y hy
  obtain ⟨below', above', hSplit, hLength⟩ := h.exists_fixed hfs rfl
  apply List.map_subset _ (h.declared_below hSplit hfs rfl rfl hLength.symm)
  exact hes below' x scheme above' hSplit y hy

end Context.Extends

/-- The algebra with one type of each kind. -/
def TypeAlgebra.onePoint (κ : Type) (value : κ) : TypeAlgebra κ value where
  Ty _ := Unit
  var _ _ := ()
  arrow _ _ := ()
  literal? := some ()
  freeVars _ := []
  subst := fun _ {_} t => t
  subst_var _ _ _ := rfl
  subst_arrow _ _ _ := rfl
  subst_literal _ _ _ := rfl
  subst_congr _ := rfl
  subst_subst _ _ _ _ := rfl
  subst_id _ := rfl

/-- The model in which all types are equal. -/
def Model.onePoint (L : Language) [Rules L] [Sized L] [FreeVars L.Special] [Lexical L] :
    Model L where
  algebra := .onePoint L.Kind L.valueKind
  denote _ _ := ()
  Special _ _ := True
  asVar_var := Lexical.asVar_var
  denote_var _ _ := rfl
  denote_arrow _ _ := rfl
  denote_subst _ _ _ := rfl
  freeVars_denote _ hp := nomatch hp
  decompose _ _ := rfl
  literal _ := rfl
  finish _ := rfl

/-- In the model of one type all values are equal, so it fits every discipline. -/
theorem Model.compatible_onePoint (D : Discipline L) : (Model.onePoint L).Compatible D :=
  fun _ _ hp => nomatch hp

/-- For the same reason it satisfies everything. -/
theorem Model.satisfies_onePoint (θ : (Model.onePoint L).Valuation) (es : List (Entry L)) :
    (Model.onePoint L).Satisfies θ es := by
  intro e _
  cases e with
  | define x type kind => exact fun _ => rfl
  | constraint c =>
      obtain ⟨deps, goal⟩ := c
      cases goal with
      | eq l r => rfl
      | special g =>
          simp only [Reading.Holds, Reading.Solves]
          split
          · rfl
          · trivial
  | _ => trivial

/-- All constraints are equations, and variables walk. -/
structure EquationsOnly (L : Language) [Rules L] : Prop where
  special : L.Special → False
  flexRigid : ∀ {supply : Supply} {deps : L.Telescope} {eq : FlexRigid L}
    {made : Supply × List (Constraint L)}, Rules.flexRigid supply deps eq ≠ .ok (some made)

omit [Lexical L] in
/-- Where all constraints are equations, a step is made of moves and draws no
names. -/
theorem EquationsOnly.step_moves (hOnly : EquationsOnly L) {s t : State L} (h : s.step = .ok t) :
    t.supply = s.supply ∧ Moves s.context.entries t.context.entries := by
  rcases State.step_eq_ok h with rfl | ⟨⟨deps, goal⟩, f, rfl, -, hSolve⟩
  · exact ⟨rfl, .refl⟩
  · cases goal with
    | special g => exact (hOnly.special g).elim
    | eq l r =>
        rcases Focus.solveEq_moves hSolve with hMoves | ⟨eq, -, -, -, supply, made, hRules, -⟩
        · exact hMoves
        · exact absurd hRules hOnly.flexRigid

omit [Lexical L] in
/-- So there every step refines, whatever the discipline and the model. -/
theorem EquationsOnly.stepsRefine (hOnly : EquationsOnly L) (D : Discipline L) (M : Model L) :
    StepsRefine D M := by
  intro s t hs hStep
  obtain ⟨hSupply, hMoves⟩ := hOnly.step_moves hStep
  exact .of_moves hs hSupply hMoves

/-- The variables of the first constraint are declared below it or carried by it. -/
theorem Discipline.Good.goal_scope {f : Focus L} {c : Constraint L}
    (h : (Discipline.scoping L).Good (f.resume [.constraint c])) :
    ∀ x ∈ c.goal.freeVars, x ∈ (declared f.below.reverse ++ c.deps).map Prod.fst := by
  have hGoal := ((Discipline.scoping L).scoped_append.mp h.wellFormed.inScope).2.1
  exact (Sorting.entry_scoping rfl).mp hGoal

/-- No variable of the first constraint has yet to be drawn. -/
theorem Discipline.Good.goal_drawn {f : Focus L} {c : Constraint L}
    (h : (Discipline.scoping L).Good (f.resume [.constraint c])) :
    ∀ x ∈ c.goal.freeVars, ¬f.supply.Pending x := by
  intro x hx
  obtain ⟨p, hp, rfl⟩ := List.mem_map.mp (h.goal_scope x hx)
  apply h.drawn p
  change p ∈ declared (f.below.reverse ++ (.constraint c :: f.above))
  rw [declared_append, declared_cons, ← List.append_assoc]
  exact List.mem_append_left _ hp

/-- A refinement keeps states well-formed and keeps what they
declare in its place. -/
theorem Refines.keeps {M : Model L} {s t : State L} (hs : s.WellFormed)
    (h : Refines (Discipline.scoping L) M s t) : t.WellFormed ∧ s.Keeps t := by
  refine ⟨h.good.toWellFormed (h.toExtends.schemesInScope hs.schemesInScope), h.toExtends.fixed_eq,
    h.toExtends.declared_subset, fun below e above below' above' hSource hTarget he hLength => ?_⟩
  intro x hx hAbove
  have hBelow := List.map_subset Prod.fst
    (h.toExtends.declared_below hSource hTarget he he hLength) hx
  have hNodup := h.good.wellFormed.nodup
  rw [hTarget, declared_append, declared_cons, declared_of_isFixed he, List.map_append,
    List.nodup_append] at hNodup
  exact hNodup.2.2 x hBelow x hAbove rfl

end HindleyMilner
