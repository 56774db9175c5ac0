import HindleyMilner.Proofs.Classes.Consequence
import HindleyMilner.Proofs.Classes.Overlap

/-! What reducing predicates leaves. All that is left is headed by type variables, all that
was given follows from it, and no part of it follows from the rest, although a predicate is
dropped while others are still there that go later. So nothing is left to do when what is
left is reduced again. -/
namespace HindleyMilner.Classes

variable {ctx : ClassContext}

/-- All that is found is on type variables, if what had been found was. -/
theorem isHeadNormal_of_normalizeFrom {limit : Nat} {found pending normal : List Predicate}
    (h : normalizeFrom ctx limit found pending = .ok normal)
    (hFound : ∀ p ∈ found, p.isHeadNormal = true) : ∀ p ∈ normal, p.isHeadNormal = true := by
  fun_induction normalizeFrom ctx limit found pending with
  | case1 limit found =>
      cases h
      simpa using hFound
  | case2 => cases h
  | case3 limit found p pending hNormal ih =>
      exact ih h (List.forall_mem_cons.mpr ⟨hNormal, hFound⟩)
  | case4 => cases h
  | case5 => cases h
  | case6 limit found p pending hNormal goals hGoals ih => exact ih h hFound

/-- Predicates follow from their head normal forms. Where a
predicate was replaced by what an instance needs, it follows from
these through that instance. -/
theorem follows_of_normalizeFrom {limit : Nat} {found pending normal : List Predicate}
    (h : normalizeFrom ctx limit found pending = .ok normal) :
    ∀ p ∈ found ++ pending, Follows ctx normal p := by
  fun_induction normalizeFrom ctx limit found pending with
  | case1 limit found =>
      cases h
      intro p hp
      exact .given (by simpa using hp)
  | case2 => cases h
  | case3 limit found p pending hNormal ih =>
      exact fun q hq => ih h q (List.perm_middle.subset hq)
  | case4 => cases h
  | case5 => cases h
  | case6 limit found p pending hNormal goals hGoals ih =>
      obtain ⟨hFound, hRest⟩ := List.forall_mem_append.mp (ih h)
      obtain ⟨hNeeded, hPending⟩ := List.forall_mem_append.mp hRest
      exact List.forall_mem_append.mpr
        ⟨hFound, List.forall_mem_cons.mpr ⟨.step hGoals hNeeded, hPending⟩⟩

/-- Head normal forms are left as they are. -/
theorem normalizeFrom_of_isHeadNormal {limit : Nat} {found pending : List Predicate}
    (hNormal : ∀ p ∈ pending, p.isHeadNormal = true) (hLimit : pending.length ≤ limit) :
    normalizeFrom ctx limit found pending = .ok (found.reverse ++ pending) := by
  induction pending generalizing limit found with
  | nil => simp [normalizeFrom]
  | cons p pending ih =>
      obtain ⟨hp, hRest⟩ := List.forall_mem_cons.mp hNormal
      obtain ⟨limit, rfl⟩ : ∃ n, limit = n + 1 := ⟨limit - 1, by simp at hLimit; omega⟩
      rw [normalizeFrom, if_pos hp, ih hRest (by simpa using hLimit)]
      simp

/-- What was dropped follows from what is kept in the end. It followed
from predicates some of which may have been dropped later, and these
follow by induction. -/
theorem follows_of_simplifyFrom {limit : Nat} {kept ps simple : List Predicate}
    (h : simplifyFrom ctx limit kept ps = .ok simple) :
    ∀ p ∈ kept ++ ps, Follows ctx simple p := by
  induction ps generalizing kept with
  | nil =>
      cases h
      exact fun p hp => .given (by simpa using hp)
  | cons p ps ih =>
      obtain ⟨implied, hImplied, h⟩ := bind_eq_ok.mp h
      cases implied with
      | false =>
          have hAll := ih h
          simpa using hAll
      | true =>
          have hAll := ih h
          -- The others imply it now, and what is kept in the end implies the others.
          have hp : Follows ctx simple p := by
            have hNow : Follows ctx (ps ++ kept) p := follows_iff_entails.mpr ⟨limit, hImplied⟩
            exact hNow.cut fun q hq => hAll q (List.perm_append_comm.subset hq)
          obtain ⟨hKept, hRest⟩ := List.forall_mem_append.mp hAll
          exact List.forall_mem_append.mpr ⟨hKept, List.forall_mem_cons.mpr ⟨hp, hRest⟩⟩

/-- A predicate among others was kept: a search among predicates that include
these, and that all follow from them and it, answered no. -/
def Essential (ctx : ClassContext) (limit : Nat) (others : List Predicate) (q : Predicate) : Prop :=
  ∃ around, entails ctx around limit q = .ok false ∧ others ⊆ around ∧
    ∀ p ∈ around, Follows ctx (q :: others) p

/-- A search that answers no was not asked for a given predicate. -/
theorem not_mem_of_entails {given : List Predicate} {limit : Nat} {q : Predicate}
    (h : entails ctx given limit q = .ok false) : q ∉ given :=
  fun hMem => not_follows_of_entails h (.given hMem)

namespace Essential

variable {limit : Nat} {others : List Predicate} {q : Predicate}
  (h : Essential ctx limit others q)

include h

/-- What is essential does not follow from the others. -/
theorem not_follows : ¬Follows ctx others q := by
  obtain ⟨around, hSearch, hOthers, -⟩ := h
  exact fun hFollows => not_follows_of_entails hSearch (hFollows.mono hOthers)

theorem not_mem : q ∉ others := fun hMem => h.not_follows (.given hMem)

/-- Whether a predicate is essential does not depend on the order of the others. -/
theorem perm {others' : List Predicate} (hPerm : others.Perm others') :
    Essential ctx limit others' q := by
  obtain ⟨around, hSearch, hOthers, hAround⟩ := h
  refine ⟨around, hSearch, fun p hp => hOthers (hPerm.symm.subset hp), fun p hp => ?_⟩
  exact (hAround p hp).mono (hPerm.cons q).subset

end Essential

/-- What is kept while predicates are dropped comes after what was kept before,
and each of it was looked for among predicates that include all others. -/
theorem exists_of_simplifyFrom {limit : Nat} {kept ps simple : List Predicate}
    (h : simplifyFrom ctx limit kept ps = .ok simple) :
    ∃ rest, simple = kept ++ rest ∧ rest ⊆ ps ∧ ∀ q ∈ rest, ∃ around,
      entails ctx around limit q = .ok false ∧ simple.erase q ⊆ around ∧ around ⊆ kept ++ ps := by
  induction ps generalizing kept with
  | nil =>
      cases h
      exact ⟨[], by simp, List.nil_subset _, List.forall_mem_nil _⟩
  | cons p ps ih =>
      obtain ⟨implied, hImplied, h⟩ := bind_eq_ok.mp h
      cases implied with
      | true =>
          obtain ⟨rest, hSimple, hRest, hAll⟩ := ih h
          refine ⟨rest, hSimple, List.subset_cons_of_subset _ hRest, fun q hq => ?_⟩
          obtain ⟨around, hSearch, hErase, hAround⟩ := hAll q hq
          have hMore : kept ++ ps ⊆ kept ++ p :: ps :=
            List.append_subset.mpr ⟨List.subset_append_left _ _,
              List.subset_append_of_subset_right _ (List.subset_cons_self _ _)⟩
          exact ⟨around, hSearch, hErase, List.Subset.trans hAround hMore⟩
      | false =>
          obtain ⟨rest, rfl, hRest, hAll⟩ := ih h
          have hNew : p ∉ kept := fun hMem =>
            not_mem_of_entails hImplied (List.mem_append_right _ hMem)
          refine ⟨p :: rest, by simp, List.cons_subset_cons _ hRest, ?_⟩
          refine List.forall_mem_cons.mpr ⟨⟨ps ++ kept, hImplied, ?_, by simp⟩, ?_⟩
          · rw [List.append_assoc, List.erase_append_right _ hNew, List.singleton_append,
              List.erase_cons_head]
            exact List.append_subset.mpr ⟨List.subset_append_right _ _,
              List.subset_append_of_subset_left _ hRest⟩
          · simpa using hAll

/-- All that is left after predicates are dropped is essential. -/
theorem essential_of_simplify {limit : Nat} {ps simple : List Predicate}
    (h : simplify ctx limit ps = .ok simple) :
    ∀ q ∈ simple, Essential ctx limit (simple.erase q) q := by
  obtain ⟨rest, rfl, hRest, hAll⟩ := exists_of_simplifyFrom h
  intro q hq
  obtain ⟨around, hSearch, hErase, hAround⟩ := hAll q hq
  refine ⟨around, hSearch, hErase, fun p hp => ?_⟩
  have hFollows := follows_of_simplifyFrom h p (hAround hp)
  exact hFollows.mono (List.perm_cons_erase hq).subset

/-- Predicates that are all essential are all different, since a repeated one
follows from its copy. -/
theorem nodup_of_essential {limit : Nat} {ps : List Predicate}
    (h : ∀ q ∈ ps, Essential ctx limit (ps.erase q) q) : ps.Nodup := by
  refine List.nodup_iff_count_le_one.mpr fun q => ?_
  by_cases hq : q ∈ ps
  · have hCount := List.count_eq_zero.mpr (h q hq).not_mem
    rw [List.count_erase_self] at hCount
    omega
  · rw [List.count_eq_zero.mpr hq]
    omega

/-- Every search for what predicates imply comes to an end. -/
def SearchesEnd (ctx : ClassContext) : Prop :=
  ∀ given p, ∃ limit, entails ctx given limit p ≠ .error .exhausted

/-- The ways in which a search goes on, or ends, when it answers no. -/
theorem entailsAll_cons_eq_false {given : List Predicate} {limit : Nat} {p : Predicate}
    {ps : List Predicate} (h : entailsAll ctx given limit (p :: ps) = .ok false) :
    (p ∈ given ∧ ∃ n, entailsAll ctx given n ps = .ok false) ∨
    (p ∉ given ∧ subgoals ctx p = .ok none) ∨
    (p ∉ given ∧ ∃ goals n, subgoals ctx p = .ok (some goals) ∧
      entailsAll ctx given n (goals ++ ps) = .ok false) := by
  cases limit with
  | zero => cases h
  | succ limit =>
      rw [entailsAll] at h
      split at h
      · exact .inl ⟨by assumption, limit, h⟩
      · split at h
        · cases h
        · exact .inr (.inl ⟨by assumption, by assumption⟩)
        · exact .inr (.inr ⟨by assumption, _, limit, by assumption, h⟩)

/-- Among fewer predicates a search meets no fault if it answers no among all,
and if these follow from what it looks for and those that are left. Where it
cannot stop any more, it goes on with what an instance needs; it fails only at
what it looks for, and there it starts anew. The extra predicates are those that
the search among all does not come to. -/
theorem entailsAll_ne_fault {around others : List Predicate} {q : Predicate} {limit : Nat}
    (hSearch : entails ctx around limit q = .ok false) (hOthers : others ⊆ around)
    (hAround : ∀ p ∈ around, Follows ctx (q :: others) p) (e : TypeError) {n m : Nat}
    {pending : List Predicate} (extra rest : List Predicate)
    (hExtra : ∀ p ∈ extra, Follows ctx (q :: others) p)
    (hPending : entailsAll ctx around m pending = .ok false) :
    entailsAll ctx others n (extra ++ (pending ++ rest)) ≠ .error (.fault e) := by
  have hNew : q ∉ around := not_mem_of_entails hSearch
  induction n generalizing m extra pending rest with
  | zero =>
      cases extra ++ (pending ++ rest) with
      | nil => simp [entailsAll]
      | cons p ps => simp [entailsAll]
  | succ n ih =>
      cases extra with
      | cons p extra =>
          obtain ⟨hp, hExtra⟩ := List.forall_mem_cons.mp hExtra
          rw [List.cons_append, entailsAll]
          by_cases hMem : p ∈ others
          · rw [if_pos hMem]
            exact ih extra rest hExtra hPending
          · rw [if_neg hMem]
            cases hp with
            | given hGiven =>
                cases (List.mem_cons.mp hGiven).resolve_right hMem
                rcases entailsAll_cons_eq_false hSearch with
                  ⟨hMem, -⟩ | ⟨-, hNone⟩ | ⟨-, goals, m, hGoals, hFails⟩
                · exact absurd hMem hNew
                · simp [hNone]
                · rw [List.append_nil] at hFails
                  rw [hGoals]
                  exact ih [] _ (List.forall_mem_nil _) hFails
            | step hGoals hNeeded =>
                rw [hGoals]
                have hNext := ih _ rest (List.forall_mem_append.mpr ⟨hNeeded, hExtra⟩) hPending
                rwa [List.append_assoc] at hNext
      | nil =>
          cases pending with
          | nil => simp [entailsAll] at hPending
          | cons p pending =>
              rw [List.nil_append, List.cons_append, entailsAll]
              rcases entailsAll_cons_eq_false hPending with
                ⟨hMem, m, hFails⟩ | ⟨hMem, hNone⟩ | ⟨hMem, goals, m, hGoals, hFails⟩
              · by_cases hLeft : p ∈ others
                · rw [if_pos hLeft]
                  exact ih [] rest (List.forall_mem_nil _) hFails
                · rw [if_neg hLeft]
                  cases hAround p hMem with
                  | given hGiven =>
                      cases (List.mem_cons.mp hGiven).resolve_right hLeft
                      exact absurd hMem hNew
                  | step hGoals hNeeded =>
                      rw [hGoals]
                      exact ih _ rest hNeeded hFails
              · rw [if_neg fun hLeft => hMem (hOthers hLeft), hNone]
                simp
              · rw [if_neg fun hLeft => hMem (hOthers hLeft), hGoals]
                have hNext := ih [] rest (List.forall_mem_nil _) hFails
                rwa [List.nil_append, List.append_assoc] at hNext

/-- A search for what is essential, among the others alone, answers no
if it ends, because the others follow from predicates among which a
search has answered no. -/
theorem Essential.entails_eq_false {limit : Nat} {others : List Predicate} {q : Predicate}
    (h : Essential ctx limit others q) {n : Nat}
    (hEnds : entails ctx others n q ≠ .error .exhausted) : entails ctx others n q = .ok false := by
  cases hResult : entails ctx others n q with
  | ok answer =>
      cases answer with
      | false => rfl
      | true => exact absurd (follows_iff_entails.mpr ⟨n, hResult⟩) h.not_follows
  | error failure =>
      cases failure with
      | exhausted => exact absurd hResult hEnds
      | fault e =>
          obtain ⟨around, hSearch, hOthers, hAround⟩ := h
          have hFault := entailsAll_ne_fault hSearch hOthers hAround e (n := n) [] []
            (List.forall_mem_nil _) hSearch
          exact absurd hResult hFault

/-- Nothing is dropped where every search answers no, so that simplifying twice
is simplifying once. -/
theorem exists_simplifyFrom_eq (kept : List Predicate) {ps : List Predicate}
    (h : ∀ pre q post, ps = pre ++ q :: post →
      ∃ n, entails ctx (post ++ (kept ++ pre)) n q = .ok false) :
    ∃ n, ∀ more ≥ n, simplifyFrom ctx more kept ps = .ok (kept ++ ps) := by
  induction ps generalizing kept with
  | nil => exact ⟨0, fun more _ => by rw [simplifyFrom, List.append_nil]⟩
  | cons p ps ih =>
      obtain ⟨m, hHead⟩ := h [] p ps rfl
      rw [List.append_nil] at hHead
      obtain ⟨n, hRest⟩ := ih (kept ++ [p]) fun pre q post hSplit => by
        simpa using h (p :: pre) q post (by rw [hSplit, List.cons_append])
      refine ⟨max m n, fun more hMore => ?_⟩
      obtain ⟨hm, hn⟩ := Nat.max_le.mp hMore
      have hSearch := entails_mono hm (by rw [hHead]; simp)
      rw [simplifyFrom, hSearch, hHead]
      change simplifyFrom ctx more (kept ++ [p]) ps = _
      rw [hRest more hn, List.append_assoc, List.singleton_append]

/-- Predicates that are all essential are left as they are when they
are simplified again. -/
theorem exists_simplify_eq {limit : Nat} {ps : List Predicate} (hEnds : SearchesEnd ctx)
    (h : ∀ q ∈ ps, Essential ctx limit (ps.erase q) q) :
    ∃ n, ∀ more ≥ n, simplify ctx more ps = .ok ps := by
  refine exists_simplifyFrom_eq [] fun pre q post hSplit => ?_
  have hPerm : (ps.erase q).Perm (post ++ pre) := by
    have hMiddle : ((pre ++ q :: post).erase q).Perm ((q :: (pre ++ post)).erase q) :=
      List.perm_middle.erase q
    rw [List.erase_cons_head, ← hSplit] at hMiddle
    exact hMiddle.trans List.perm_append_comm
  have hMem : q ∈ ps := by simp [hSplit]
  obtain ⟨n, hn⟩ := hEnds (post ++ pre) q
  exact ⟨n, ((h q hMem).perm hPerm).entails_eq_false hn⟩

/-- Reducing predicates leaves head normal forms without repetition. They imply
all that was given, none of them is implied by the others, and reducing them
again changes nothing, where every search comes to an end. -/
theorem reduce_irredundant (hEnds : SearchesEnd ctx) {limit : Nat} {ps reduced : List Predicate}
    (h : reduce ctx limit ps = .ok reduced) :
    (∀ p ∈ reduced, p.isHeadNormal = true) ∧ reduced.Nodup ∧
    (∀ p ∈ ps, ∃ n, ∀ more ≥ n, entails ctx reduced more p = .ok true) ∧
    (∀ q ∈ reduced, ∀ n, entails ctx (reduced.erase q) n q ≠ .ok true) ∧
    ∃ n, ∀ more ≥ n, reduce ctx more reduced = .ok reduced := by
  obtain ⟨normal, hNormal, hSimple⟩ := bind_eq_ok.mp h
  have hEssential := essential_of_simplify hSimple
  have hHeads : ∀ p ∈ reduced, p.isHeadNormal = true := fun p hp =>
    isHeadNormal_of_normalizeFrom hNormal (List.forall_mem_nil _) p
      (subset_of_simplifyFrom hSimple hp)
  refine ⟨hHeads, nodup_of_essential hEssential, fun p hp => ?_, fun q hq n hSearch => ?_, ?_⟩
  · have hFollows : Follows ctx reduced p :=
      (follows_of_normalizeFrom hNormal p hp).cut (follows_of_simplifyFrom hSimple)
    obtain ⟨n, hn⟩ := follows_iff_entails.mp hFollows
    exact ⟨n, fun more hMore => (entails_mono hMore (by rw [hn]; simp)).trans hn⟩
  · exact (hEssential q hq).not_follows (follows_iff_entails.mpr ⟨n, hSearch⟩)
  · obtain ⟨n, hn⟩ := exists_simplify_eq hEnds hEssential
    refine ⟨max n reduced.length, fun more hMore => ?_⟩
    obtain ⟨hn', hLength⟩ := Nat.max_le.mp hMore
    have hSame : headNormalForm ctx more reduced = .ok reduced :=
      normalizeFrom_of_isHeadNormal hHeads hLength
    rw [reduce, hSame]
    exact hn more hn'

/-- A search passes some predicates or ends at them within a number of steps,
whatever else there is to find out. -/
def Concludes (ctx : ClassContext) (given ps : List Predicate) : Prop :=
  Passed ctx given ps ∨ ∃ n answer, answer ≠ .error .exhausted ∧
    ∀ limit pending, entailsAll ctx given (n + limit) (ps ++ pending) = answer

/-- Searches that end one after the other end together. -/
theorem Concludes.append {given ps qs : List Predicate} (hp : Concludes ctx given ps)
    (hq : Concludes ctx given qs) : Concludes ctx given (ps ++ qs) := by
  rcases hp with hp | ⟨m, answer, hAnswer, hm⟩
  · rcases hq with hq | ⟨n, answer, hAnswer, hn⟩
    · exact .inl (hp.append hq)
    · obtain ⟨m, hm⟩ := hp
      refine .inr ⟨m + n, answer, hAnswer, fun limit pending => ?_⟩
      rw [Nat.add_assoc, List.append_assoc, hm, hn]
  · refine .inr ⟨m, answer, hAnswer, fun limit pending => ?_⟩
    rw [List.append_assoc, hm]

/-- A search for several predicates ends if the search for each does. -/
theorem Concludes.of_forall {given ps : List Predicate}
    (h : ∀ p ∈ ps, Concludes ctx given [p]) : Concludes ctx given ps := by
  induction ps with
  | nil => exact .inl .nil
  | cons p ps ih =>
      obtain ⟨hHead, hRest⟩ := List.forall_mem_cons.mp h
      exact hHead.append (ih hRest)

/-- Searches end if there is no endless chain of predicates each of which an
instance needs for the one before. -/
theorem searchesEnd_of_wellFounded
    (h : WellFounded fun g p => ∃ goals, subgoals ctx p = .ok (some goals) ∧ g ∈ goals) :
    SearchesEnd ctx := by
  have hConcludes : ∀ given p, Concludes ctx given [p] := by
    intro given p
    induction p using h.induction with
    | _ p ih =>
        by_cases hMem : p ∈ given
        · exact .inl (.of_mem hMem)
        · cases hGoals : subgoals ctx p with
          | error e =>
              refine .inr ⟨1, .error (.fault e), by simp, fun limit pending => ?_⟩
              rw [Nat.add_comm, List.singleton_append, entailsAll, if_neg hMem, hGoals]
          | ok needed =>
              cases needed with
              | none =>
                  refine .inr ⟨1, .ok false, by simp, fun limit pending => ?_⟩
                  rw [Nat.add_comm, List.singleton_append, entailsAll, if_neg hMem, hGoals]
              | some goals =>
                  rcases Concludes.of_forall fun g hg => ih g ⟨goals, hGoals, hg⟩ with
                    hPassed | ⟨n, answer, hAnswer, hn⟩
                  · exact .inl (.of_subgoals hGoals hPassed)
                  · refine .inr ⟨n + 1, answer, hAnswer, fun limit pending => ?_⟩
                    rw [Nat.add_right_comm, List.singleton_append, entailsAll, if_neg hMem, hGoals]
                    exact hn limit pending
  intro given p
  rcases hConcludes given p with hPassed | ⟨n, answer, hAnswer, hn⟩
  · obtain ⟨n, hn⟩ := hPassed.exists_entails
    exact ⟨n, by rw [hn]; simp⟩
  · refine ⟨n, ?_⟩
    have hRun := hn 0 []
    rw [Nat.add_zero, List.append_nil] at hRun
    rw [entails, hRun]
    exact hAnswer

/-- An instance that makes all members of a class members of another. -/
def inheritInstance : TypeScheme :=
  ⟨[("a", .data)], ⟨[⟨"C", .var "a" .data⟩], .var "a" .data⟩⟩

def inheritedState : ClassState :=
  ⟨.empty, ⟨[.declare ⟨"C", [intInstance, listInstance]⟩, .declare ⟨"D", [inheritInstance]⟩]⟩⟩

/-- The instance for lists needs its elements to be members. -/
theorem instanceGoals_listInstance {t : Ty} {goals : List Predicate}
    (h : instanceGoals t listInstance = some goals) :
    ∃ f a, t = .app f a ∧ goals = [⟨"C", a⟩] := by
  obtain ⟨m, hm, rfl⟩ := Option.map_eq_some_iff.mp h
  cases Ty.matched_of_matchWith hm with
  | @app _ _ f a s r m _ hArgument hMerge =>
      cases hArgument with
      | var hKind =>
          have hBound : m.toAssignment "a" = some a :=
            Subst.toAssignment_of_merge hMerge (.inr (by simp [Subst.toAssignment_single]))
          exact ⟨f, a, rfl, by simp [listInstance, Subst.apply, subst, Ty.subst, hBound]⟩

/-- The inheriting instance needs the type itself to be a member of the other
class. -/
theorem instanceGoals_inheritInstance {t : Ty} {goals : List Predicate}
    (h : instanceGoals t inheritInstance = some goals) : goals = [⟨"C", t⟩] := by
  simp only [instanceGoals, inheritInstance, Ty.matchWith] at h
  split at h
  · cases h
    simp [Subst.apply, subst, Ty.subst, Subst.toAssignment_single]
  · cases h

/-- A predicate of the inheriting class is needed for nothing, and lists
need their elements. -/
theorem searchesEnd_inheritedState : SearchesEnd inheritedState.context := by
  let rank (p : Predicate) : Nat := 2 * p.argument.size + if p.className = "D" then 1 else 0
  refine searchesEnd_of_wellFounded (Subrelation.wf ?_ (measure rank).wf)
  rintro g p ⟨goals, hGoals, hg⟩
  change rank g < rank p
  obtain ⟨d, hd, hName, scheme, hScheme, hGoals⟩ := exists_instance_of_subgoals hGoals
  change d ∈ [⟨"C", [intInstance, listInstance]⟩, ⟨"D", [inheritInstance]⟩] at hd
  simp only [List.mem_cons, List.not_mem_nil, or_false] at hd
  rcases hd with rfl | rfl
  · simp only [List.mem_cons, List.not_mem_nil, or_false] at hScheme
    rcases hScheme with rfl | rfl
    · obtain ⟨m, -, rfl⟩ := Option.map_eq_some_iff.mp hGoals
      cases hg
    · obtain ⟨f, a, hArgument, rfl⟩ := instanceGoals_listInstance hGoals
      cases List.mem_singleton.mp hg
      simp only [rank, hArgument, Ty.size, ← hName]
      omega
  · cases List.mem_singleton.mp hScheme
    cases instanceGoals_inheritInstance hGoals
    cases List.mem_singleton.mp hg
    simp [rank, ← hName]

/-- A list is brought to its elements, and what another class
inherits is dropped. -/
theorem reduce_irredundant_inheritedState :
    reduce inheritedState.context 9
      [⟨"D", .var "b" .data⟩, ⟨"C", listOf (.var "b" .data)⟩, ⟨"D", listOf (.var "c" .data)⟩] =
        .ok [⟨"C", .var "b" .data⟩, ⟨"C", .var "c" .data⟩] ∧
    ∃ n, ∀ more ≥ n, reduce inheritedState.context more
      [⟨"C", .var "b" .data⟩, ⟨"C", .var "c" .data⟩] =
        .ok [⟨"C", .var "b" .data⟩, ⟨"C", .var "c" .data⟩] := by
  have hReduce : reduce inheritedState.context 9
      [⟨"D", .var "b" .data⟩, ⟨"C", listOf (.var "b" .data)⟩, ⟨"D", listOf (.var "c" .data)⟩] =
        .ok [⟨"C", .var "b" .data⟩, ⟨"C", .var "c" .data⟩] := by decide +kernel
  obtain ⟨-, -, -, -, hAgain⟩ := reduce_irredundant searchesEnd_inheritedState hReduce
  exact ⟨hReduce, hAgain⟩

end HindleyMilner.Classes
