import HindleyMilner.Name

/-! Fresh names. A supply counts the names drawn for each stem separately, and
the next name is the stem followed by that count in decimal. A supply is a
plain value: drawing returns the advanced supply beside the name.

Counts are natural numbers without a bound. A supply that keeps them in 32 bits
gives the same names as long as fewer than 2^32 are drawn under each stem, which
`WordSupply.answerAll_eq` states for every sequence of requests; results about
the names that a supply gives speak of both below that bound. -/
namespace HindleyMilner

/-- How many names were drawn for each stem. A stem that was never drawn from
has no entry, so two supplies with the same history are equal. -/
structure Supply where
  counts : NameMap Nat
deriving DecidableEq

namespace Supply

def empty : Supply := ⟨∅⟩

instance : Inhabited Supply := ⟨empty⟩

/-- The number of names drawn for a stem so far. -/
def drawn (s : Supply) (stem : String) : Nat := s.counts.getD stem 0

/-- The name with the given number under a stem. -/
def numbered (stem : String) (n : Nat) : Name := stem ++ n.repr

/-- The last symbol of a stem is a decimal digit. -/
def endsInDigit (stem : String) : Bool := stem.toList.getLast?.any Char.isDigit

def draw (s : Supply) (stem : String) : Name × Supply :=
  (numbered stem (s.drawn stem), ⟨s.counts.insert stem (s.drawn stem + 1)⟩)

/-- Draw several names for a stem, in order. Drawing none changes nothing. -/
def drawMany (s : Supply) (stem : String) (count : Nat) : List Name × Supply :=
  ((List.range count).map fun i => numbered stem (s.drawn stem + i),
    if count = 0 then s else ⟨s.counts.insert stem (s.drawn stem + count)⟩)

/-- The names under one stem differ if their numbers do. -/
theorem numbered_inj {stem : String} {m n : Nat} : numbered stem m = numbered stem n ↔ m = n := by
  refine ⟨fun h => ?_, fun h => h ▸ rfl⟩
  have hDigits : Nat.toDigits 10 m = Nat.toDigits 10 n := by
    simpa [numbered, ← String.toList_inj] using h
  rw [← Nat.ofDigitChars_ten_toDigits (n := m), hDigits, Nat.ofDigitChars_ten_toDigits]

/-- The stem of a name is what stands before the digits at its end, unless it
ends in digits itself. -/
theorem dropWhile_numbered {stem : String} (h : endsInDigit stem = false) (n : Nat) :
    (numbered stem n).toList.reverse.dropWhile Char.isDigit = stem.toList.reverse := by
  have hNumber : ∀ c ∈ (Nat.toDigits 10 n).reverse, c.isDigit = true := fun c hc =>
    Nat.isDigit_of_mem_toDigits (by decide) (by decide) (List.mem_reverse.mp hc)
  have hText : (numbered stem n).toList.reverse =
      (Nat.toDigits 10 n).reverse ++ stem.toList.reverse := by
    simp [numbered]
  rw [hText, List.dropWhile_append_of_pos hNumber]
  rw [endsInDigit, List.getLast?_eq_head?_reverse] at h
  cases hStem : stem.toList.reverse with
  | nil => rfl
  | cons c cs =>
      rw [hStem] at h
      exact List.dropWhile_cons_of_neg (by simpa using h)

/-- A name tells its stem and its number, where no stem ends in a digit. -/
theorem numbered_eq_iff {stem other : String} (hStem : endsInDigit stem = false)
    (hOther : endsInDigit other = false) {m n : Nat} :
    numbered stem m = numbered other n ↔ stem = other ∧ m = n := by
  constructor
  · intro h
    have hReverse : stem.toList.reverse = other.toList.reverse := by
      rw [← dropWhile_numbered hStem m, h, dropWhile_numbered hOther n]
    obtain rfl : stem = other := String.toList_inj.mp (List.reverse_inj.mp hReverse)
    exact ⟨rfl, numbered_inj.mp h⟩
  · rintro ⟨rfl, rfl⟩
    rfl

theorem draw_fst (s : Supply) (stem : String) :
    (s.draw stem).1 = numbered stem (s.drawn stem) := rfl

/-- Drawing advances the count of its own stem by one and no other count. -/
theorem drawn_draw (s : Supply) (stem other : String) :
    (s.draw stem).2.drawn other =
      if stem = other then s.drawn stem + 1 else s.drawn other := by
  simp only [draw, drawn, Std.ExtTreeMap.getD_insert, Std.LawfulEqCmp.compare_eq_iff_eq]

/-- Names drawn together have the numbers that follow the count. -/
theorem mem_drawMany {s : Supply} {stem : String} {count : Nat} {x : Name} :
    x ∈ (s.drawMany stem count).1 ↔
      ∃ n, s.drawn stem ≤ n ∧ n < s.drawn stem + count ∧ x = numbered stem n := by
  simp only [drawMany, List.mem_map, List.mem_range]
  constructor
  · rintro ⟨i, hi, rfl⟩
    exact ⟨s.drawn stem + i, Nat.le_add_right _ _, Nat.add_lt_add_left hi _, rfl⟩
  · rintro ⟨n, hFrom, hTo, rfl⟩
    exact ⟨n - s.drawn stem, by omega, by rw [Nat.add_sub_cancel' hFrom]⟩

@[simp] theorem length_drawMany (s : Supply) (stem : String) (count : Nat) :
    (s.drawMany stem count).1.length = count := by
  simp [drawMany]

/-- Drawing several names advances the count of their stem by their number. -/
theorem drawn_drawMany (s : Supply) (stem other : String) (count : Nat) :
    (s.drawMany stem count).2.drawn other =
      if stem = other then s.drawn stem + count else s.drawn other := by
  by_cases hCount : count = 0
  · by_cases hStem : stem = other <;> simp [drawMany, hCount, hStem]
  · simp only [drawMany, if_neg hCount, drawn, Std.ExtTreeMap.getD_insert,
      Std.LawfulEqCmp.compare_eq_iff_eq]

/-- Drawing several names is drawing one after the other. The names drawn in
bulk are numbered from the count on, and the count is advanced at once. -/
theorem drawMany_succ (s : Supply) (stem : String) (count : Nat) :
    s.drawMany stem (count + 1) =
      ((s.draw stem).1 :: ((s.draw stem).2.drawMany stem count).1,
        ((s.draw stem).2.drawMany stem count).2) := by
  have hDrawn : (s.draw stem).2.drawn stem = s.drawn stem + 1 := by
    rw [drawn_draw, if_pos rfl]
  refine Prod.ext ?_ ?_
  · simp only [drawMany, hDrawn, List.range_succ_eq_map, List.map_cons, List.map_map]
    refine congrArg _ (List.map_congr_left fun i _ => ?_)
    rw [Function.comp, Nat.succ_eq_add_one, Nat.add_assoc, Nat.add_comm 1 i]
  · simp only [drawMany, if_neg (Nat.succ_ne_zero count), hDrawn]
    by_cases hCount : count = 0
    · rw [hCount]
      rfl
    · rw [if_neg hCount]
      refine congrArg Supply.mk (Std.ExtTreeMap.ext_getElem? fun other => ?_)
      simp only [draw, Std.ExtTreeMap.getElem?_insert]
      split
      · rw [Nat.add_assoc, Nat.add_comm 1 count]
      · rfl

/-- Drawing a single name in bulk is drawing it. -/
theorem drawMany_one (s : Supply) (stem : String) :
    s.drawMany stem 1 = ([(s.draw stem).1], (s.draw stem).2) := s.drawMany_succ stem 0

/-- Names drawn in two parts are the names drawn together. -/
theorem drawMany_add (s : Supply) (stem : String) (m n : Nat) :
    s.drawMany stem (m + n) =
      ((s.drawMany stem m).1 ++ ((s.drawMany stem m).2.drawMany stem n).1,
        ((s.drawMany stem m).2.drawMany stem n).2) := by
  induction m generalizing s with
  | zero =>
      rw [Nat.zero_add]
      rfl
  | succ m ih =>
      rw [Nat.add_right_comm, drawMany_succ, ih, drawMany_succ]
      rfl

end Supply

end HindleyMilner
