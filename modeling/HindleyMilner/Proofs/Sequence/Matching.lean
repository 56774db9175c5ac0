import HindleyMilner.Proofs.Sequence.Expansion
import HindleyMilner.Sequence.Matching
import Mathlib.Data.List.Forall2

/-! Matching with a tail. A match binds each variable of a pattern's tail to the run of types it
matched. Putting those runs back one after the other gives every combination of their elements,
so it gives the target back exactly if there is one variable or at most one element to match. -/
namespace HindleyMilner.Sequence

namespace Bindings

/-- What the second of two matches binds goes before what the first binds, which
makes no difference where they agree. -/
theorem getElem?_merge {s t m : Bindings} (h : s.merge t = some m) (x : Name) :
    m[x]? = t[x]?.or s[x]? := by
  obtain ⟨-, h⟩ := Option.ite_none_right_eq_some.mp h
  cases h
  exact Std.ExtTreeMap.getElem?_union

/-- Bindings that can be merged agree. -/
theorem eq_of_merge {s t m : Bindings} (h : s.merge t = some m) {x : Name} {u v : Ty}
    (hu : s[x]? = some u) (hv : t[x]? = some v) : u = v := by
  obtain ⟨hAll, -⟩ := Option.ite_none_right_eq_some.mp h
  have hAgree := List.all_eq_true.mp hAll (x, v)
    (Std.ExtTreeMap.mem_toList_iff_getElem?_eq_some.mpr hv)
  rw [hu] at hAgree
  simpa using hAgree

/-- A merged match binds a variable to a type if one of the two does. -/
theorem getElem?_of_merge {s t m : Bindings} (h : s.merge t = some m) {x : Name} {u : Ty} :
    m[x]? = some u ↔ s[x]? = some u ∨ t[x]? = some u := by
  rw [getElem?_merge h, Option.or_eq_some_iff]
  constructor
  · rintro (hu | ⟨-, hu⟩)
    · exact .inr hu
    · exact .inl hu
  · rintro (hu | hu)
    · cases ht : t[x]? with
      | none => exact .inr ⟨rfl, hu⟩
      | some v => exact .inl (congrArg some (eq_of_merge h hu ht).symm)
    · exact .inl hu

/-- Inserting a value for each of some variables binds these, and
leaves other bindings. -/
theorem getElem?_insertMany {f : Name → Ty} (vars : List Name) (s : Bindings) (x : Name) :
    (s.insertMany (vars.map fun y => (y, f y)))[x]? = if x ∈ vars then some (f x) else s[x]? := by
  induction vars generalizing s with
  | nil => simp
  | cons y vars ih =>
      rw [List.map_cons, Std.ExtTreeMap.insertMany_cons, ih, Std.ExtTreeMap.getElem?_insert]
      by_cases hx : x ∈ vars
      · simp [hx]
      · simp only [if_neg hx, Std.LawfulEqCmp.compare_eq_iff_eq]
        by_cases hEq : y = x
        · simp [hEq]
        · simp [hx, hEq, Ne.symm hEq]

/-- Each variable of a tail is bound to the run of the types that it was bound
to in the matches of the other elements. -/
theorem getElem?_runs (vars : List Name) (found : List Bindings) (x : Name) :
    (runs vars found)[x]? =
      if x ∈ vars then some (.seq (found.filterMap fun s => s[x]?)) else none := by
  rw [runs, Std.ExtTreeMap.ofList_eq_insertMany_empty, getElem?_insertMany]
  simp

/-- Every variable is bound to a type without sequences that has only
the given variables. -/
def ValuesIn (vars : List Name) (s : Bindings) : Prop :=
  ∀ (x : Name) (u : Ty), s[x]? = some u → u.RunFree ∧ u.freeVars ⊆ vars

/-- The types bound by merged matches use no other variables. -/
theorem ValuesIn.merge {vars : List Name} {s t m : Bindings} (hs : s.ValuesIn vars)
    (ht : t.ValuesIn vars) (h : s.merge t = some m) : m.ValuesIn vars := by
  intro x u hu
  rcases (getElem?_of_merge h).mp hu with hu | hu
  · exact hs x u hu
  · exact ht x u hu

theorem ValuesIn.mono {vars vars' : List Name} {s : Bindings} (hs : s.ValuesIn vars)
    (h : vars ⊆ vars') : s.ValuesIn vars' :=
  fun x u hu => ⟨(hs x u hu).1, List.Subset.trans (hs x u hu).2 h⟩

/-- The bindings in any order. -/
theorem mem_iff_of_perm {s : Bindings} {order : List (Name × Ty)} (h : order.Perm s.toList)
    {b : Name × Ty} : b ∈ order ↔ s[b.1]? = some b.2 := by
  rw [h.mem_iff, ← Std.ExtTreeMap.mem_toList_iff_getElem?_eq_some]

/-- A variable is bound once, in whatever order the bindings are listed. -/
theorem nodup_of_perm {s : Bindings} {order : List (Name × Ty)} (h : order.Perm s.toList) :
    (order.map Prod.fst).Nodup := by
  have hKeys : s.keys.Nodup := by
    unfold List.Nodup
    exact Std.ExtTreeMap.distinct_keys.imp fun h => by simpa using h
  rw [(h.map Prod.fst).nodup_iff, Std.ExtTreeMap.map_fst_toList_eq_keys]
  exact hKeys

end Bindings

namespace Ty

mutual

/-- Every constructor is used at the kind that is given for its name. -/
def Over (κ : Name → Kind) : Ty → Prop
  | var .. => True
  | con c k => k = κ c
  | app f a => f.Over κ ∧ a.Over κ
  | seq elements => OverAll κ elements
  | dotted elements tail => OverAll κ elements ∧ tail.Over κ

def OverAll (κ : Name → Kind) : List Ty → Prop
  | [] => True
  | t :: ts => t.Over κ ∧ OverAll κ ts

end

theorem overAll_iff {κ : Name → Kind} {ts : List Ty} : OverAll κ ts ↔ ∀ t ∈ ts, t.Over κ := by
  induction ts with
  | nil => simp [OverAll]
  | cons t ts ih => simp [OverAll, ih]

/-- What a match of a type without sequences binds: exactly the variables of the
pattern, to types that make it the target. -/
structure Matches (p t : Ty) (s : Bindings) : Prop where
  mem_iff : ∀ x : Name, (∃ u, s[x]? = some u) ↔ x ∈ p.freeVars
  values : s.ValuesIn t.freeVars
  replace_eq : p.replace (fun x => s[x]?) = t

/-- More bindings make the same of a pattern. -/
theorem Matches.replace_of_extends {p t : Ty} {s s' : Bindings} (h : p.Matches t s)
    (hp : p.RunFree) (hExtends : ∀ (x : Name) u, s[x]? = some u → s'[x]? = some u) :
    p.replace (fun x => s'[x]?) = t := by
  rw [← h.replace_eq]
  refine hp.replace_congr fun x hx => ?_
  obtain ⟨u, hu⟩ := (h.mem_iff x).mpr hx
  rw [hu, hExtends x u hu]

/-- An application matches applications only, side by side, with bindings
that can be merged. -/
theorem matchWith_app {f a t : Ty} {s : Bindings} (h : (app f a).matchWith t = .ok (some s)) :
    ∃ g b left right, t = app g b ∧ f.matchWith g = .ok (some left) ∧
      a.matchWith b = .ok (some right) ∧ left.merge right = some s := by
  cases t with
  | app g b =>
      rw [matchWith] at h
      obtain ⟨left, hLeft, h⟩ := bind_eq_ok.mp h
      cases left with
      | none => cases h
      | some left =>
          obtain ⟨right, hRight, h⟩ := bind_eq_ok.mp h
          cases right with
          | none => cases h
          | some right => exact ⟨g, b, left, right, rfl, hLeft, hRight, Except.ok.inj h⟩
  | _ => cases h

/-- A variable matches what it is bound to. -/
theorem matches_insert {t : Ty} (x : Name) (k : Kind) (ht : t.RunFree) :
    (var x k).Matches t ((∅ : Bindings).insert x t) := by
  have hGet : ∀ y : Name, ((∅ : Bindings).insert x t)[y]? = if x = y then some t else none := by
    intro y
    rw [Std.ExtTreeMap.getElem?_insert]
    simp
  refine ⟨fun y => ?_, fun y u hu => ?_, ?_⟩
  · rw [hGet]
    by_cases hEq : x = y <;> simp [hEq, freeVars, eq_comm]
  · rw [hGet] at hu
    split at hu
    · cases hu
      exact ⟨ht, List.Subset.refl _⟩
    · cases hu
  · rw [Ty.replace, hGet, if_pos rfl, Option.getD_some]

/-- A successful match makes the pattern the target, where constructors are
used at one kind. Names of constructors are compared and kinds are not,
hence the condition. -/
theorem RunFree.matches_of_matchWith {κ : Name → Kind} {p t : Ty} {s : Bindings} (hp : p.RunFree)
    (ht : t.RunFree) (hpOver : p.Over κ) (htOver : t.Over κ)
    (h : p.matchWith t = .ok (some s)) : p.Matches t s := by
  induction hp generalizing t s with
  | var x k =>
      rw [matchWith] at h
      split at h
      · cases h
        exact matches_insert x k ht
      · cases h
  | con c k =>
      cases ht with
      | con d l =>
          rw [matchWith] at h
          obtain ⟨hName, h⟩ := Option.ite_none_right_eq_some.mp (Except.ok.inj h)
          cases h
          refine ⟨fun y => by simp [freeVars], fun y u hu => by simp at hu, ?_⟩
          rw [Ty.replace, hpOver, htOver, hName]
      | _ => cases h
  | app hf ha ihf iha =>
      obtain ⟨g, b, left, right, rfl, hLeft, hRight, hMerge⟩ := matchWith_app h
      cases ht with
      | app hg hb =>
          have hFunction := ihf hg hpOver.1 htOver.1 hLeft
          have hArgument := iha hb hpOver.2 htOver.2 hRight
          refine ⟨fun y => ?_, ?_, ?_⟩
          · simp only [Bindings.getElem?_of_merge hMerge, exists_or, hFunction.mem_iff,
              hArgument.mem_iff, freeVars, List.mem_append]
          · exact (hFunction.values.mono (List.subset_append_left _ _)).merge
              (hArgument.values.mono (List.subset_append_right _ _)) hMerge
          · rw [Ty.replace,
              hFunction.replace_of_extends hf fun y u hu =>
                (Bindings.getElem?_of_merge hMerge).mpr (.inl hu),
              hArgument.replace_of_extends ha fun y u hu =>
                (Bindings.getElem?_of_merge hMerge).mpr (.inr hu)]

/-- What matching a run of patterns adds to the bindings made so far. -/
structure MatchesEach (ps ts : List Ty) (matched s : Bindings) : Prop where
  mem_iff : ∀ x : Name, (∃ u, s[x]? = some u) ↔ (∃ u, matched[x]? = some u) ∨ x ∈ freeVarsAll ps
  keeps : ∀ (x : Name) u, matched[x]? = some u → s[x]? = some u
  values : ∀ vars, freeVarsAll ts ⊆ vars → matched.ValuesIn vars → s.ValuesIn vars
  replace_eq : ps.map (fun p => p.replace fun x => s[x]?) = ts.take ps.length

/-- The first element is matched, its bindings are merged with those of the
earlier ones, and then the others are matched. -/
theorem matchEach_cons {p t : Ty} {ps ts : List Ty} {matched s : Bindings}
    (h : matchEach (p :: ps) (t :: ts) matched = .ok (some s)) :
    ∃ bindings merged, p.matchWith t = .ok (some bindings) ∧
      matched.merge bindings = some merged ∧ matchEach ps ts merged = .ok (some s) := by
  rw [matchEach] at h
  obtain ⟨bindings, hBindings, h⟩ := bind_eq_ok.mp h
  cases bindings with
  | none => cases h
  | some bindings =>
      cases hMerge : matched.merge bindings with
      | none =>
          simp only [hMerge] at h
          cases h
      | some merged =>
          simp only [hMerge] at h
          exact ⟨bindings, merged, hBindings, hMerge, h⟩

/-- A run of patterns that matches a run binds exactly their variables, beside
those that were bound before, and makes each pattern its target. The induction
is on the patterns, where earlier bindings are kept by later ones. -/
theorem matchesEach_of_matchEach {κ : Name → Kind} {ps ts : List Ty} {matched s : Bindings}
    (hps : ∀ p ∈ ps, p.RunFree) (hts : ∀ t ∈ ts, t.RunFree) (hpsOver : OverAll κ ps)
    (htsOver : OverAll κ ts) (hLength : ps.length ≤ ts.length)
    (h : matchEach ps ts matched = .ok (some s)) : MatchesEach ps ts matched s := by
  induction ps generalizing ts matched with
  | nil =>
      have hNil : matchEach [] ts matched = .ok (some matched) := by cases ts <;> rfl
      rw [hNil] at h
      cases h
      exact ⟨fun x => by simp [freeVarsAll], fun _ _ => id, fun _ _ => id, rfl⟩
  | cons p ps ih =>
      cases ts with
      | nil => cases hLength
      | cons t ts =>
          obtain ⟨hp, hps⟩ := List.forall_mem_cons.mp hps
          obtain ⟨ht, hts⟩ := List.forall_mem_cons.mp hts
          obtain ⟨bindings, merged, hBindings, hMerge, h⟩ := matchEach_cons h
          have hFirst := hp.matches_of_matchWith ht hpsOver.1 htsOver.1 hBindings
          have hRest := ih hps hts hpsOver.2 htsOver.2 (Nat.le_of_succ_le_succ hLength) h
          have hGet {x : Name} {u : Ty} := Bindings.getElem?_of_merge (x := x) (u := u) hMerge
          refine ⟨fun x => ?_, fun x u hu => ?_, fun vars hVars hMatched => ?_, ?_⟩
          · simp only [hRest.mem_iff, hGet, exists_or, hFirst.mem_iff, freeVarsAll,
              List.mem_append, or_assoc]
          · exact hRest.keeps x u (hGet.mpr (.inl hu))
          · obtain ⟨hHead, hTail⟩ := List.append_subset.mp hVars
            exact hRest.values vars hTail (hMatched.merge (hFirst.values.mono hHead) hMerge)
          · rw [List.map_cons, hRest.replace_eq, List.length_cons, List.take_succ_cons,
              hFirst.replace_of_extends hp fun x u hu =>
                hRest.keeps x u (hGet.mpr (.inr hu))]

/-- Matching a tail with several types is matching it with each of them, and one
match is found for each. -/
theorem matchAll_eq_ok {pattern : Ty → Except TypeError (Option Bindings)} {ts : List Ty}
    {found : List Bindings} (h : matchAll pattern ts = .ok (some found)) :
    List.Forall₂ (fun t s => pattern t = .ok (some s)) ts found := by
  induction ts generalizing found with
  | nil =>
      cases h
      exact .nil
  | cons t ts ih =>
      obtain ⟨bindings, hBindings, h⟩ := bind_eq_ok.mp h
      cases bindings with
      | none => cases h
      | some bindings =>
          obtain ⟨rest, hRest, h⟩ := bind_eq_ok.mp h
          cases rest with
          | none => cases h
          | some rest =>
              cases h
              exact .cons hBindings (ih hRest)

/-- A match with a tail consists of a match of the listed elements, matches of
the tail with each of the others, and bindings that agree. -/
theorem matchWith_dotted {ps ts : List Ty} {tail : Ty} {s : Bindings}
    (h : (dotted ps tail).matchWith (seq ts) = .ok (some s)) :
    ps.length ≤ ts.length ∧ ∃ fixed found, matchEach ps ts ∅ = .ok (some fixed) ∧
      List.Forall₂ (fun t b => tail.matchWith t = .ok (some b)) (ts.drop ps.length) found ∧
      fixed.merge (Bindings.runs tail.freeVars found) = some s := by
  rw [matchWith] at h
  by_cases hLength : ts.length < ps.length
  · rw [if_pos hLength] at h
    cases h
  · rw [if_neg hLength] at h
    obtain ⟨fixed, hFixed, h⟩ := bind_eq_ok.mp h
    cases fixed with
    | none => cases h
    | some fixed =>
        obtain ⟨found, hFound, h⟩ := bind_eq_ok.mp h
        cases found with
        | none => cases h
        | some found =>
            exact ⟨Nat.le_of_not_lt hLength, fixed, found, hFixed, matchAll_eq_ok hFound,
              Except.ok.inj h⟩

/-- What a match with a tail binds: the variables of the listed patterns
to types that make them the first elements, and each variable of the tail
to the run of types that it is bound to in the matches of the tail with
the other elements. -/
structure MatchesTail (ps ts : List Ty) (tail : Ty) (s fixed : Bindings) (found : List Bindings) :
    Prop where
  length_le : ps.length ≤ ts.length
  listed : MatchesEach ps ts ∅ fixed
  others : List.Forall₂ (tail.Matches · ·) (ts.drop ps.length) found
  merge_eq : fixed.merge (Bindings.runs tail.freeVars found) = some s

/-- In each of these matches the tail becomes its target. -/
theorem matches_of_matchAll {κ : Name → Kind} {p : Ty} {ts : List Ty} {found : List Bindings}
    (hp : p.RunFree) (hpOver : p.Over κ) (hts : ∀ t ∈ ts, t.RunFree ∧ t.Over κ)
    (h : List.Forall₂ (fun t s => p.matchWith t = .ok (some s)) ts found) :
    List.Forall₂ p.Matches ts found := by
  induction h with
  | nil => exact .nil
  | cons hMatch _ ih =>
      obtain ⟨⟨ht, htOver⟩, hts⟩ := List.forall_mem_cons.mp hts
      exact .cons (hp.matches_of_matchWith ht hpOver htOver hMatch) (ih hts)

/-- What is found for a sequence with a tail consists of bindings from the
listed elements, one match of the tail for each of the others, and the runs
that these make up. -/
theorem exists_matchesTail {κ : Name → Kind} {ps ts : List Ty} {tail : Ty} {s : Bindings}
    (hps : ∀ p ∈ ps, p.RunFree) (hTail : tail.RunFree) (hts : ∀ t ∈ ts, t.RunFree)
    (hOver : (dotted ps tail).Over κ) (htsOver : (seq ts).Over κ)
    (h : (dotted ps tail).matchWith (seq ts) = .ok (some s)) :
    ∃ fixed found, MatchesTail ps ts tail s fixed found := by
  obtain ⟨hLength, fixed, found, hFixed, hFound, hMerge⟩ := matchWith_dotted h
  have hListed := matchesEach_of_matchEach hps hts hOver.1 htsOver hLength hFixed
  refine ⟨fixed, found, hLength, hListed, ?_, hMerge⟩
  refine matches_of_matchAll hTail hOver.2 (fun t ht => ?_) hFound
  have hMem : t ∈ ts := List.mem_of_mem_drop ht
  exact ⟨hts t hMem, overAll_iff.mp htsOver t hMem⟩

/-- The types that the matches of a tail bind one of its variables to. -/
def run (found : List Bindings) (x : Name) : List Ty := found.filterMap fun b => b[x]?

/-- The run of a variable has what each match has bound it to. -/
theorem run_cons {b : Bindings} {found : List Bindings} {x : Name} {u : Ty} (hu : b[x]? = some u) :
    run (b :: found) x = u :: run found x :=
  List.filterMap_cons_some (f := fun b : Bindings => b[x]?) hu

/-- A variable of the tail has as many types in its run as there are
elements for the tail. -/
theorem length_run {p : Ty} {ts : List Ty} {found : List Bindings} {x : Name}
    (h : List.Forall₂ p.Matches ts found) (hx : x ∈ p.freeVars) :
    (run found x).length = ts.length := by
  induction h with
  | nil => rfl
  | @cons t b ts found hMatch _ ih =>
      obtain ⟨u, hu⟩ := (hMatch.mem_iff x).mpr hx
      rw [run_cons hu, List.length_cons, List.length_cons, ih]

/-- These types are without sequences and use the variables of the targets. -/
theorem values_run {p : Ty} {ts : List Ty} {found : List Bindings} {x : Name} {u : Ty}
    (h : List.Forall₂ p.Matches ts found) (hu : u ∈ run found x) :
    u.RunFree ∧ u.freeVars ⊆ freeVarsAll ts := by
  induction h with
  | nil => cases hu
  | @cons t b ts found hMatch _ ih =>
      obtain ⟨c, hc, hBound⟩ := List.mem_filterMap.mp hu
      rcases List.mem_cons.mp hc with rfl | hc
      · obtain ⟨hFree, hVars⟩ := hMatch.values x u hBound
        exact ⟨hFree, List.Subset.trans hVars (List.subset_append_left _ _)⟩
      · obtain ⟨hFree, hVars⟩ := ih (List.mem_filterMap.mpr ⟨c, hc, hBound⟩)
        exact ⟨hFree, List.Subset.trans hVars (List.subset_append_right _ _)⟩

/-- A pattern with a single variable becomes the targets when the types of the
run are put for the variable. -/
theorem map_put_run {p : Ty} {ts : List Ty} {found : List Bindings} {x : Name} (hp : p.RunFree)
    (hx : x ∈ p.freeVars) (hOnly : ∀ y ∈ p.freeVars, y = x)
    (h : List.Forall₂ p.Matches ts found) : (run found x).map (fun v => p.put x v) = ts := by
  induction h with
  | nil => rfl
  | @cons t b ts found hMatch _ ih =>
      obtain ⟨u, hu⟩ := (hMatch.mem_iff x).mpr hx
      have hFirst : p.put x u = t := by
        rw [← hMatch.replace_eq]
        refine hp.replace_congr fun y hy => ?_
        rw [hOnly y hy, hu, Assignment.single, if_pos rfl]
      rw [run_cons hu, List.map_cons, hFirst, ih]

namespace MatchesTail

variable {ps ts : List Ty} {tail : Ty} {s fixed : Bindings} {found : List Bindings}
  (h : MatchesTail ps ts tail s fixed found)

include h

/-- A binding comes from the listed elements or is the run of a
variable of the tail. -/
theorem getElem?_iff {x : Name} {u : Ty} :
    s[x]? = some u ↔ fixed[x]? = some u ∨ (x ∈ tail.freeVars ∧ u = seq (run found x)) := by
  rw [Bindings.getElem?_of_merge h.merge_eq, Bindings.getElem?_runs]
  by_cases hx : x ∈ tail.freeVars
  · simp [hx, run, eq_comm]
  · simp [hx]

theorem valuesIn_fixed : fixed.ValuesIn (freeVarsAll ts) :=
  h.listed.values _ (List.Subset.refl _) fun x u hu => by simp at hu

theorem exists_of_mem {x : Name} (hx : x ∈ freeVarsAll ps) : ∃ u, fixed[x]? = some u :=
  (h.listed.mem_iff x).mpr (.inr hx)

/-- The listed elements bind their own variables alone. -/
theorem mem_of_fixed {x : Name} {u : Ty} (hu : fixed[x]? = some u) : x ∈ freeVarsAll ps := by
  rcases (h.listed.mem_iff x).mp ⟨u, hu⟩ with ⟨v, hv⟩ | hx
  · simp at hv
  · exact hx

/-- Every bound type may be put for its variable. -/
theorem replacement {x : Name} {u : Ty} (hu : s[x]? = some u) : u.Replacement := by
  rcases h.getElem?_iff.mp hu with hu | ⟨-, rfl⟩
  · exact .one (h.valuesIn_fixed x u hu).1
  · exact .run fun v hv => (values_run h.others hv).1

/-- The parts of a bound type use the variables of the targets. -/
theorem freeVars_parts {x : Name} {u v : Ty} (hu : s[x]? = some u) (hv : v ∈ u.parts) :
    v.freeVars ⊆ freeVarsAll ts := by
  rcases h.getElem?_iff.mp hu with hu | ⟨-, rfl⟩
  · obtain ⟨hFree, hVars⟩ := h.valuesIn_fixed x u hu
    rw [hFree.parts_eq, List.mem_singleton] at hv
    exact hv ▸ hVars
  · refine List.Subset.trans (values_run h.others hv).2 fun y hy => ?_
    obtain ⟨t, ht, hy⟩ := mem_freeVarsAll.mp hy
    exact mem_freeVarsAll.mpr ⟨t, List.mem_of_mem_drop ht, hy⟩

variable {order : List (Name × Ty)} (hOrder : order.Perm s.toList)

include hOrder

/-- In every order of the bindings there is the run of each variable of the tail. -/
theorem mem_order_of_tail {x : Name} (hx : x ∈ tail.freeVars) : (x, seq (run found x)) ∈ order :=
  (Bindings.mem_iff_of_perm hOrder).mpr (h.getElem?_iff.mpr (.inr ⟨hx, rfl⟩))

/-- And it is the only one for that variable. -/
theorem eq_run_of_tail {b : Name × Ty} (hb : b ∈ order) (hx : b.1 ∈ tail.freeVars) :
    b.2 = seq (run found b.1) := by
  have hBound := (Bindings.mem_iff_of_perm hOrder).mp hb
  rw [h.getElem?_iff.mpr (.inr ⟨hx, rfl⟩)] at hBound
  exact (Option.some.inj hBound).symm

theorem replacement_of_mem {b : Name × Ty} (hb : b ∈ order) : b.2.Replacement :=
  h.replacement ((Bindings.mem_iff_of_perm hOrder).mp hb)

/-- As many bindings concern the tail as it has different variables. This is the
exponent in the number of types that the tail becomes. -/
theorem countP_order :
    (order.countP fun b => b.1 ∈ tail.freeVars) = (Name.distinct tail.freeVars).length := by
  have hCount : (order.countP fun b => b.1 ∈ tail.freeVars) =
      ((order.map Prod.fst).filter (· ∈ tail.freeVars)).length := by
    rw [← List.countP_eq_length_filter, List.countP_map]
    rfl
  rw [hCount]
  apply List.Perm.length_eq
  refine (List.perm_ext_iff_of_nodup ((Bindings.nodup_of_perm hOrder).filter _)
    (Name.nodup_distinct _)).mpr fun x => ?_
  rw [List.mem_filter, Name.mem_distinct, decide_eq_true_eq]
  refine and_iff_right_of_imp fun hx => ?_
  exact List.mem_map_of_mem (f := Prod.fst) (h.mem_order_of_tail hOrder hx)

variable (hDisjoint : (dotted ps tail).freeVars.Disjoint (seq ts).freeVars)

include hDisjoint

/-- The patterns have no variable in common with the targets, so no type that is
put for a variable brings back a variable. -/
theorem apart_order : Apart order := by
  intro b hb v hv c hc hMem
  refine hDisjoint ?_ (h.freeVars_parts ((Bindings.mem_iff_of_perm hOrder).mp hb) hv hMem)
  apply List.mem_append.mpr
  exact (h.getElem?_iff.mp ((Bindings.mem_iff_of_perm hOrder).mp hc)).imp h.mem_of_fixed And.left

/-- The listed patterns become the first elements: their variables are
bound to single types, and putting these in one after the other is
putting them in at once. -/
theorem expand_listed (hps : ∀ p ∈ ps, p.RunFree) : expand order ps = ts.take ps.length := by
  have hEach : ∀ p ∈ ps, expand order [p] = [p.replace fun x => fixed[x]?] := by
    intro p hp
    have hVars : ∀ x ∈ p.freeVars, ∃ u, fixed[x]? = some u := fun x hx =>
      h.exists_of_mem (mem_freeVarsAll.mpr ⟨p, hp, hx⟩)
    refine expand_of_single (hps p hp) (fun b hb => h.replacement_of_mem hOrder hb)
      (h.apart_order hOrder hDisjoint) (fun b hb hx => ?_) fun x hx hNone => ?_
    · obtain ⟨u, hu⟩ := hVars b.1 hx
      obtain ⟨hFree, hValues⟩ := h.valuesIn_fixed b.1 u hu
      have hEq : some b.2 = some u :=
        ((Bindings.mem_iff_of_perm hOrder).mp hb).symm.trans (h.getElem?_iff.mpr (.inl hu))
      refine ⟨u, by rw [Option.some.inj hEq, hFree.parts_eq], hu, fun y hy => ?_⟩
      cases hFixed : fixed[y]? with
      | none => rfl
      | some v =>
          exact absurd (hValues hy) (hDisjoint (List.mem_append_left _ (h.mem_of_fixed hFixed)))
    · obtain ⟨u, hu⟩ := hVars x hx
      have hMem : (x, u) ∈ order :=
        (Bindings.mem_iff_of_perm hOrder).mpr (h.getElem?_iff.mpr (.inl hu))
      exact absurd rfl (hNone (x, u) hMem)
  rw [expand_eq_flatMap, List.flatMap_def, List.map_congr_left hEach, ← h.listed.replace_eq,
    ← List.flatMap_def, ← List.map_eq_flatMap]

/-- The tail becomes as many types as there are ways to choose one of the other
elements for each of its variables. -/
theorem length_expand_tail (hTail : tail.RunFree) :
    (expand order [tail]).length =
      (ts.length - ps.length) ^ (Name.distinct tail.freeVars).length := by
  rw [← h.countP_order hOrder]
  refine length_expand hTail (fun b hb => h.replacement_of_mem hOrder hb)
    (h.apart_order hOrder hDisjoint) (Bindings.nodup_of_perm hOrder) fun b hb hx => ?_
  rw [h.eq_run_of_tail hOrder hb hx, parts, length_run h.others hx, List.length_drop]

/-- With one variable in the tail, its run gives the other elements back. -/
theorem expand_tail_of_one (hTail : tail.RunFree)
    (hOne : (Name.distinct tail.freeVars).length = 1) :
    expand order [tail] = ts.drop ps.length := by
  obtain ⟨x, hDistinct⟩ := List.length_eq_one_iff.mp hOne
  have hMem : ∀ y, y ∈ tail.freeVars ↔ y = x := fun y => by
    rw [← Name.mem_distinct, hDistinct, List.mem_singleton]
  have hx : x ∈ tail.freeVars := (hMem x).mpr rfl
  rw [expand_of_one hTail hx (fun y => (hMem y).mp) (h.apart_order hOrder hDisjoint)
    (Bindings.nodup_of_perm hOrder) (h.mem_order_of_tail hOrder hx)]
  exact map_put_run hTail hx (fun y => (hMem y).mp) h.others

/-- So it is with a single element for the tail, whose variables are
bound to one type each. -/
theorem expand_tail_of_single (hTail : tail.RunFree) {t : Ty}
    (hOther : ts.drop ps.length = [t]) : expand order [tail] = [t] := by
  obtain ⟨b, hMatch, hFound⟩ : ∃ b, tail.Matches t b ∧ found = [b] := by
    have hOthers := h.others
    rw [hOther] at hOthers
    cases hOthers with
    | cons hMatch hRest =>
        cases hRest
        exact ⟨_, hMatch, rfl⟩
  rw [← hMatch.replace_eq]
  refine expand_of_single hTail (fun c hc => h.replacement_of_mem hOrder hc)
    (h.apart_order hOrder hDisjoint) (fun c hc hx => ?_) fun x hx hNone => ?_
  · obtain ⟨u, hu⟩ := (hMatch.mem_iff c.1).mpr hx
    have hParts : c.2.parts = [u] := by
      rw [h.eq_run_of_tail hOrder hc hx, hFound, run_cons hu]
      rfl
    have hBound := (Bindings.mem_iff_of_perm hOrder).mp hc
    refine ⟨u, hParts, hu, fun y hy => ?_⟩
    cases hValue : b[y]? with
    | none => rfl
    | some v =>
        have hTailVar : y ∈ tail.freeVars := (hMatch.mem_iff y).mp ⟨v, hValue⟩
        have hPart : u ∈ c.2.parts := hParts ▸ List.mem_cons_self
        exact absurd (h.freeVars_parts hBound hPart hy)
          (hDisjoint (List.mem_append_right _ hTailVar))
  · exact absurd rfl (hNone _ (h.mem_order_of_tail hOrder hx))

/-- The tail becomes the other elements exactly if it has one variable or there
is at most one of them. -/
theorem expand_tail_eq_iff (hTail : tail.RunFree) (hVar : tail.freeVars ≠ []) :
    expand order [tail] = ts.drop ps.length ↔
      (Name.distinct tail.freeVars).length = 1 ∨ ts.length ≤ ps.length + 1 := by
  have hLength := h.length_expand_tail hOrder hDisjoint hTail
  have hSome : 0 < (Name.distinct tail.freeVars).length := by
    obtain ⟨x, hx⟩ := List.exists_mem_of_ne_nil _ hVar
    exact List.length_pos_of_mem (Name.mem_distinct.mpr hx)
  constructor
  · intro hEq
    rw [hEq, List.length_drop] at hLength
    by_contra hNot
    obtain ⟨hVars, hMany⟩ := not_or.mp hNot
    have hPow : (ts.length - ps.length) ^ 1 <
        (ts.length - ps.length) ^ (Name.distinct tail.freeVars).length :=
      Nat.pow_lt_pow_right (by omega) (by omega)
    rw [Nat.pow_one] at hPow
    omega
  · rintro (hOne | hFew)
    · exact h.expand_tail_of_one hOrder hDisjoint hTail hOne
    · have hDrop : (ts.drop ps.length).length ≤ 1 := by
        rw [List.length_drop]
        omega
      rcases Nat.le_one_iff_eq_zero_or_eq_one.mp hDrop with hNone | hSingle
      · rw [List.length_drop] at hNone
        rw [hNone, Nat.zero_pow hSome] at hLength
        rw [List.length_eq_zero_iff.mp hLength, List.drop_eq_nil_of_le (by omega)]
      · obtain ⟨t, ht⟩ := List.length_eq_one_iff.mp hSingle
        rw [ht, h.expand_tail_of_single hOrder hDisjoint hTail ht]

end MatchesTail

/-- Putting the bindings of a match back, one after the other and in any
order, always gives a sequence without a tail. It is the target exactly if the
tail of the pattern has one variable or has matched at most one element:
otherwise the tail has become one type for each way to choose an element for
each of its variables. -/
theorem substEach_matchWith {κ : Name → Kind} {patterns elements : List Ty} {tail : Ty}
    {s : Bindings} {order : List (Name × Ty)} (hPatterns : ∀ p ∈ patterns, p.RunFree)
    (hTail : tail.RunFree) (hElements : ∀ t ∈ elements, t.RunFree) (hVar : tail.freeVars ≠ [])
    (hPattern : (dotted patterns tail).Over κ) (hTarget : (seq elements).Over κ)
    (hDisjoint : (dotted patterns tail).freeVars.Disjoint (seq elements).freeVars)
    (hMatch : (dotted patterns tail).matchWith (seq elements) = .ok (some s))
    (hOrder : order.Perm s.toList) :
    ∃ result, (dotted patterns tail).substEach order = .ok (seq result) ∧
      result.length = patterns.length +
        (elements.length - patterns.length) ^ (Name.distinct tail.freeVars).length ∧
      (result = elements ↔ (Name.distinct tail.freeVars).length = 1 ∨
        elements.length ≤ patterns.length + 1) := by
  obtain ⟨fixed, found, h⟩ :=
    exists_matchesTail hPatterns hTail hElements hPattern hTarget hMatch
  obtain ⟨x, hx⟩ := List.exists_mem_of_ne_nil _ hVar
  have hResult : (dotted patterns tail).substEach order =
      .ok (seq (expand order (patterns ++ [tail]))) := by
    refine substEach_dotted hPatterns hTail
      (fun b hb => h.replacement_of_mem hOrder hb) (fun b hb hb' => ?_)
      ⟨_, h.mem_order_of_tail hOrder hx, hx⟩
    rw [h.eq_run_of_tail hOrder hb hb']
    rfl
  refine ⟨_, hResult, ?_, ?_⟩
  · rw [expand_append, List.length_append, h.expand_listed hOrder hDisjoint hPatterns,
      List.length_take_of_le h.length_le, h.length_expand_tail hOrder hDisjoint hTail]
  · rw [expand_append, h.expand_listed hOrder hDisjoint hPatterns,
      ← h.expand_tail_eq_iff hOrder hDisjoint hTail hVar]
    nth_rewrite 2 [← List.take_append_drop patterns.length elements]
    exact List.append_right_inj _

def exampleKinds : Name → Kind
  | "pair" => .arrow .data (.arrow .data .data)
  | "list" => .arrow .data .data
  | "maybe" => .arrow .data .data
  | _ => .data

def exampleCon (c : Name) : Ty := con c (exampleKinds c)

/-- The tail `pair b b`. -/
def twinTail : Ty := app (app (exampleCon "pair") (var "b" .data)) (var "b" .data)

/-- The sequence `[int, pair x x, pair y y]`. -/
def twinElements : List Ty :=
  let twin (c : Name) : Ty := app (app (exampleCon "pair") (exampleCon c)) (exampleCon c)
  [exampleCon "int", twin "x", twin "y"]

theorem substEach_matchWith_twins :
    ∃ s, (dotted [var "a" .data] twinTail).matchWith (seq twinElements) = .ok (some s) ∧
      (dotted [var "a" .data] twinTail).substEach s.toList.reverse = .ok (seq twinElements) := by
  have hRun : ((dotted [var "a" .data] twinTail).matchWith (seq twinElements)).map
      (Option.map Std.ExtTreeMap.toList) =
        .ok (some [("a", exampleCon "int"), ("b", seq [exampleCon "x", exampleCon "y"])]) := by
    decide +kernel
  obtain ⟨found, hFound, hList⟩ := map_eq_ok.mp hRun
  obtain ⟨s, rfl, -⟩ := Option.map_eq_some_iff.mp hList
  have hPattern : (dotted [var "a" .data] twinTail).Over exampleKinds :=
    ⟨⟨trivial, trivial⟩, ⟨rfl, trivial⟩, trivial⟩
  have hTarget : (seq twinElements).Over exampleKinds :=
    ⟨rfl, ⟨⟨rfl, rfl⟩, rfl⟩, ⟨⟨rfl, rfl⟩, rfl⟩, trivial⟩
  obtain ⟨result, hResult, -, hEq⟩ := substEach_matchWith (by decide) (by decide) (by decide)
    (by decide) hPattern hTarget (List.disjoint_nil_right _) hFound s.toList.reverse_perm
  have hSame : result = twinElements := hEq.mpr (.inl (by decide +kernel))
  exact ⟨s, hFound, hSame ▸ hResult⟩

/-- The tail `f a` with two variables. -/
def pairedTail : Ty := app (var "f" (.arrow .data .data)) (var "a" .data)

/-- The sequence `[list int, maybe bool]`. -/
def pairedElements : List Ty :=
  [app (exampleCon "list") (exampleCon "int"), app (exampleCon "maybe") (exampleCon "bool")]

/-- A match with two variables in the tail is not put back: `[f a...]` has
matched two types and becomes four. -/
theorem not_substEach_matchWith :
    ¬∀ (κ : Name → Kind) (patterns elements : List Ty) (tail : Ty) (s : Bindings)
      (order : List (Name × Ty)), (∀ p ∈ patterns, p.RunFree) → tail.RunFree →
      (∀ t ∈ elements, t.RunFree) → tail.freeVars ≠ [] → (dotted patterns tail).Over κ →
      (seq elements).Over κ →
      (dotted patterns tail).freeVars.Disjoint (seq elements).freeVars →
      (dotted patterns tail).matchWith (seq elements) = .ok (some s) → order.Perm s.toList →
      (dotted patterns tail).substEach order = .ok (seq elements) := by
  intro hAll
  have hRun : ((dotted [] pairedTail).matchWith (seq pairedElements)).map
      (Option.map Std.ExtTreeMap.toList) =
        .ok (some [("a", seq [exampleCon "int", exampleCon "bool"]),
          ("f", seq [exampleCon "list", exampleCon "maybe"])]) := by
    decide +kernel
  obtain ⟨found, hFound, hList⟩ := map_eq_ok.mp hRun
  obtain ⟨s, rfl, hToList⟩ := Option.map_eq_some_iff.mp hList
  have hPutBack := hAll exampleKinds [] pairedElements pairedTail s s.toList
    (List.forall_mem_nil _) (by decide) (by decide) (by decide)
    ⟨trivial, trivial, trivial⟩ ⟨⟨rfl, rfl⟩, ⟨rfl, rfl⟩, trivial⟩ (List.disjoint_nil_right _) hFound
    (List.Perm.refl _)
  rw [hToList] at hPutBack
  revert hPutBack
  decide +kernel

end Ty

end HindleyMilner.Sequence
