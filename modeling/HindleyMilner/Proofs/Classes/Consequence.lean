import HindleyMilner.Proofs.Classes.Reduction

/-! What follows from given predicates. A predicate follows if it is given, or if an
instance applies to it and all that the instance needs follows in turn. A search answers
yes if and only if this is so. -/
namespace HindleyMilner.Classes

/-- A predicate follows from given ones through the instances. -/
inductive Follows (ctx : ClassContext) (given : List Predicate) : Predicate → Prop where
  | given {p : Predicate} (h : p ∈ given) : Follows ctx given p
  | step {p : Predicate} {goals : List Predicate} (hGoals : subgoals ctx p = .ok (some goals))
      (h : ∀ g ∈ goals, Follows ctx given g) : Follows ctx given p

variable {ctx : ClassContext} {given given' : List Predicate} {p : Predicate}

namespace Follows

/-- What follows from predicates that follow from others follows from these. -/
theorem cut (h : Follows ctx given p) (hGiven : ∀ q ∈ given, Follows ctx given' q) :
    Follows ctx given' p := by
  induction h with
  | given h => exact hGiven _ h
  | step hGoals _ ih => exact .step hGoals ih

/-- What follows from some predicates follows from more. -/
theorem mono (h : Follows ctx given p) (hGiven : given ⊆ given') : Follows ctx given' p :=
  h.cut fun _ hq => .given (hGiven hq)

/-- A search that answers yes is right about all it was asked. -/
theorem of_entailsAll {limit : Nat} {ps : List Predicate}
    (h : entailsAll ctx given limit ps = .ok true) : ∀ p ∈ ps, Follows ctx given p := by
  fun_induction entailsAll ctx given limit ps with
  | case1 => exact List.forall_mem_nil _
  | case2 => cases h
  | case3 limit p ps hMem ih => exact List.forall_mem_cons.mpr ⟨.given hMem, ih h⟩
  | case4 => cases h
  | case5 => cases h
  | case6 limit p ps hMem goals hGoals ih =>
      obtain ⟨hNeeded, hOthers⟩ := List.forall_mem_append.mp (ih h)
      exact List.forall_mem_cons.mpr ⟨.step hGoals hNeeded, hOthers⟩

end Follows

/-- A search passes some predicates within a number of steps, whatever else
there is to find out. -/
def Passed (ctx : ClassContext) (given ps : List Predicate) : Prop :=
  ∃ n, ∀ limit pending,
    entailsAll ctx given (n + limit) (ps ++ pending) = entailsAll ctx given limit pending

namespace Passed

theorem nil : Passed ctx given [] :=
  ⟨0, fun limit pending => by rw [Nat.zero_add, List.nil_append]⟩

/-- What a search passes one after the other it passes together. -/
theorem append {ps qs : List Predicate} (hp : Passed ctx given ps) (hq : Passed ctx given qs) :
    Passed ctx given (ps ++ qs) := by
  obtain ⟨m, hm⟩ := hp
  obtain ⟨n, hn⟩ := hq
  refine ⟨m + n, fun limit pending => ?_⟩
  rw [Nat.add_assoc, List.append_assoc, hm, hn]

/-- A search passes a list if it passes every member of it. -/
theorem of_forall {ps : List Predicate} (h : ∀ p ∈ ps, Passed ctx given [p]) :
    Passed ctx given ps := by
  induction ps with
  | nil => exact nil
  | cons p ps ih =>
      obtain ⟨hHead, hRest⟩ := List.forall_mem_cons.mp h
      exact hHead.append (ih hRest)

theorem of_mem (h : p ∈ given) : Passed ctx given [p] := by
  refine ⟨1, fun limit pending => ?_⟩
  rw [Nat.add_comm, List.singleton_append, entailsAll, if_pos h]

/-- A search passes a predicate if it passes what an instance needs for it. -/
theorem of_subgoals {goals : List Predicate} (hGoals : subgoals ctx p = .ok (some goals))
    (h : Passed ctx given goals) : Passed ctx given [p] := by
  by_cases hMem : p ∈ given
  · exact of_mem hMem
  · obtain ⟨n, hn⟩ := h
    refine ⟨n + 1, fun limit pending => ?_⟩
    rw [Nat.add_right_comm, List.singleton_append, entailsAll, if_neg hMem, hGoals]
    exact hn limit pending

/-- A search for a predicate that it passes answers yes. -/
theorem exists_entails (h : Passed ctx given [p]) : ∃ n, entails ctx given n p = .ok true := by
  obtain ⟨n, hn⟩ := h
  refine ⟨n, ?_⟩
  have hRun := hn 0 []
  rw [Nat.add_zero, List.append_nil] at hRun
  rw [entails, hRun]
  simp only [entailsAll]

end Passed

/-- Whatever follows is found, with enough steps, by induction on why it follows. -/
theorem Follows.passed (h : Follows ctx given p) : Passed ctx given [p] := by
  induction h with
  | given h => exact .of_mem h
  | step hGoals _ ih => exact .of_subgoals hGoals (.of_forall ih)

/-- A search that ended keeps its answer when it is given more steps. -/
theorem entails_mono {limit more : Nat} (hMore : limit ≤ more)
    (h : entails ctx given limit p ≠ .error .exhausted) :
    entails ctx given more p = entails ctx given limit p := entailsAll_mono hMore h

/-- A search finds out that a predicate follows if and only if it does. -/
theorem follows_iff_entails :
    Follows ctx given p ↔ ∃ limit, entails ctx given limit p = .ok true := by
  constructor
  · exact fun h => h.passed.exists_entails
  · rintro ⟨limit, h⟩
    exact Follows.of_entailsAll h p List.mem_cons_self

/-- A search that answers no is right. -/
theorem not_follows_of_entails {limit : Nat} (h : entails ctx given limit p = .ok false) :
    ¬Follows ctx given p := by
  intro hFollows
  obtain ⟨more, hMore⟩ := follows_iff_entails.mp hFollows
  have hFirst := entails_mono (Nat.le_max_left limit more) (by rw [h]; simp)
  have hSecond := entails_mono (Nat.le_max_right limit more) (by rw [hMore]; simp)
  rw [hFirst, h, hMore] at hSecond
  cases hSecond

end HindleyMilner.Classes
