/-! Totals over lists: the sum of a natural number given for each element. -/
namespace HindleyMilner

variable {α β : Type}

/-- The sum of what a function gives for the elements of a list. -/
def total (f : α → Nat) : List α → Nat
  | [] => 0
  | a :: as => f a + total f as

theorem total_nil (f : α → Nat) : total f [] = 0 := rfl

theorem total_cons (f : α → Nat) (a : α) (as : List α) :
    total f (a :: as) = f a + total f as := rfl

/-- A total is additive over concatenation. -/
theorem total_append (f : α → Nat) (as bs : List α) :
    total f (as ++ bs) = total f as + total f bs := by
  induction as with
  | nil => exact (Nat.zero_add _).symm
  | cons a as ih => rw [List.cons_append, total_cons, total_cons, ih, Nat.add_assoc]

theorem total_map (f : β → Nat) (g : α → β) (as : List α) :
    total f (as.map g) = total (fun a => f (g a)) as := by
  induction as with
  | nil => rfl
  | cons a as ih => rw [List.map_cons, total_cons, total_cons, ih]

/-- The total of a sum is the sum of the totals. -/
theorem total_add (f g : α → Nat) (as : List α) :
    total (fun a => f a + g a) as = total f as + total g as := by
  induction as with
  | nil => rfl
  | cons a as ih =>
      simp only [total_cons, ih]
      omega

theorem total_eq_zero {f : α → Nat} {as : List α} (h : ∀ a ∈ as, f a = 0) : total f as = 0 := by
  induction as with
  | nil => rfl
  | cons a as ih =>
      rw [total_cons, h a List.mem_cons_self, ih fun b hb => h b (List.mem_cons_of_mem _ hb)]

theorem total_congr {f g : α → Nat} {as : List α} (h : ∀ a ∈ as, f a = g a) :
    total f as = total g as := by
  induction as with
  | nil => rfl
  | cons a as ih =>
      rw [total_cons, total_cons, h a List.mem_cons_self,
        ih fun b hb => h b (List.mem_cons_of_mem _ hb)]

theorem total_le {f g : α → Nat} {as : List α} (h : ∀ a ∈ as, f a ≤ g a) :
    total f as ≤ total g as := by
  induction as with
  | nil => exact Nat.le_refl _
  | cons a as ih =>
      exact Nat.add_le_add (h a List.mem_cons_self)
        (ih fun b hb => h b (List.mem_cons_of_mem _ hb))

/-- A total falls if one share falls and none rises. -/
theorem total_lt {f g : α → Nat} {as : List α} {b : α} (hb : b ∈ as) (hLt : f b < g b)
    (h : ∀ a ∈ as, f a ≤ g a) : total f as < total g as := by
  induction as with
  | nil => exact absurd hb List.not_mem_nil
  | cons a as ih =>
      have hRest : ∀ c ∈ as, f c ≤ g c := fun c hc => h c (List.mem_cons_of_mem _ hc)
      rcases List.mem_cons.mp hb with rfl | hb
      · exact Nat.add_lt_add_of_lt_of_le hLt (total_le hRest)
      · exact Nat.add_lt_add_of_le_of_lt (h a List.mem_cons_self) (ih hb hRest)

/-- One share can be taken out of a total. -/
theorem total_erase [DecidableEq α] (f : α → Nat) {a : α} {as : List α} (ha : a ∈ as) :
    total f as = f a + total f (as.erase a) := by
  induction as with
  | nil => exact absurd ha List.not_mem_nil
  | cons b as ih =>
      by_cases hEq : b = a
      · rw [hEq, List.erase_cons_head, total_cons]
      · have hMem : a ∈ as := (List.mem_cons.mp ha).resolve_left fun h => hEq h.symm
        rw [List.erase_cons_tail (by simpa using hEq), total_cons, total_cons, ih hMem]
        omega

/-- A total over distinct elements is at most that over a list that holds every
one of them with a share in it. -/
theorem total_le_of_nodup [DecidableEq α] {f : α → Nat} {as bs : List α} (hNodup : as.Nodup)
    (h : ∀ a ∈ as, f a ≠ 0 → a ∈ bs) : total f as ≤ total f bs := by
  induction as generalizing bs with
  | nil => exact Nat.zero_le _
  | cons a as ih =>
      rw [List.nodup_cons] at hNodup
      by_cases ha : f a = 0
      · rw [total_cons, ha, Nat.zero_add]
        exact ih hNodup.2 fun b hb => h b (List.mem_cons_of_mem _ hb)
      · rw [total_cons, total_erase f (h a List.mem_cons_self ha)]
        refine Nat.add_le_add_left (ih hNodup.2 fun b hb hNe => ?_) _
        have hba : b ≠ a := fun hEq => hNodup.1 (hEq ▸ hb)
        exact (List.mem_erase_of_ne hba).mpr (h b (List.mem_cons_of_mem _ hb) hNe)

/-- What one of several distinct elements contributes. -/
theorem total_ite_le [DecidableEq α] {as : List α} (hNodup : as.Nodup) (b : α) (k : Nat) :
    total (fun a => if a = b then k else 0) as ≤ k := by
  have hTotal : total (fun a => if a = b then k else 0) as ≤
      total (fun a => if a = b then k else 0) [b] := by
    refine total_le_of_nodup hNodup fun a _ ha => List.mem_singleton.mpr ?_
    exact Decidable.byContradiction fun hNe => ha (if_neg hNe)
  rw [total_cons, total_nil, if_pos rfl, Nat.add_zero] at hTotal
  exact hTotal

end HindleyMilner
