import HindleyMilner.Supply

/-! Names that a supply can still give out. Inference and the solver draw under
three stems, and no name under one of them is a name under another, because none of
them ends in a digit. -/
namespace HindleyMilner.Supply

def stems : List String := ["t", "h", "b"]

/-- The names that have yet to be drawn for a type variable. -/
def Pending (s : Supply) (x : Name) : Prop :=
  ∃ stem ∈ stems, ∃ n, s.drawn stem ≤ n ∧ x = numbered stem n

/-- Names were drawn, and none was put back. -/
def Advances (s s' : Supply) : Prop := ∀ x, s'.Pending x → s.Pending x

/-- A supply that is left alone has not lost a name. -/
theorem Advances.refl (s : Supply) : s.Advances s := fun _ h => h

/-- What waits to be drawn at the end has waited all along. -/
theorem Advances.trans {s s' s'' : Supply} (h : s.Advances s') (h' : s'.Advances s'') :
    s.Advances s'' := fun x hx => h x (h' x hx)

/-- No stem ends in a digit, so that the number of a name can be
told from its stem. -/
theorem endsInDigit_of_mem_stems : ∀ stem ∈ stems, endsInDigit stem = false := by
  decide

/-- The names under a stem that wait to be drawn are those from its count on. -/
theorem pending_numbered {s : Supply} {stem : String} (hStem : stem ∈ stems) {n : Nat} :
    s.Pending (numbered stem n) ↔ s.drawn stem ≤ n := by
  constructor
  · rintro ⟨other, hOther, m, hm, hEq⟩
    obtain ⟨rfl, rfl⟩ := (numbered_eq_iff (endsInDigit_of_mem_stems stem hStem)
      (endsInDigit_of_mem_stems other hOther)).mp hEq
    exact hm
  · exact fun hn => ⟨stem, hStem, n, hn, rfl⟩

/-- The number of a name under a stem is what follows the stem. -/
theorem ofDigitChars_drop_numbered (stem : String) (n : Nat) :
    Nat.ofDigitChars 10 ((numbered stem n).toList.drop stem.toList.length) 0 = n := by
  have hDigits : (numbered stem n).toList.drop stem.toList.length = Nat.toDigits 10 n := by
    simp [numbered]
  rw [hDigits, Nat.ofDigitChars_ten_toDigits]

instance (s : Supply) : DecidablePred s.Pending := fun x =>
  decidable_of_iff (∃ stem ∈ stems,
      s.drawn stem ≤ Nat.ofDigitChars 10 (x.toList.drop stem.toList.length) 0 ∧
      x = numbered stem (Nat.ofDigitChars 10 (x.toList.drop stem.toList.length) 0)) (by
    constructor
    · rintro ⟨stem, hStem, hDrawn, hName⟩
      exact ⟨stem, hStem, _, hDrawn, hName⟩
    · rintro ⟨stem, hStem, n, hDrawn, rfl⟩
      refine ⟨stem, hStem, ?_, ?_⟩
      · rwa [ofDigitChars_drop_numbered]
      · rw [ofDigitChars_drop_numbered])

/-- A supply advances if its counts go up. -/
theorem advances_of_drawn_le {s s' : Supply} (h : ∀ stem, s.drawn stem ≤ s'.drawn stem) :
    s.Advances s' := by
  rintro x ⟨stem, hStem, n, hn, rfl⟩
  exact ⟨stem, hStem, n, Nat.le_trans (h stem) hn, rfl⟩

theorem advances_drawMany (s : Supply) (stem : String) (count : Nat) :
    s.Advances (s.drawMany stem count).2 := by
  apply advances_of_drawn_le
  intro other
  rw [drawn_drawMany]
  by_cases hEq : stem = other
  · rw [if_pos hEq, hEq]
    exact Nat.le_add_right _ _
  · exact Nat.le_of_eq (if_neg hEq).symm

theorem advances_draw (s : Supply) (stem : String) : s.Advances (s.draw stem).2 := by
  have hOne := s.advances_drawMany stem 1
  rwa [drawMany_one] at hOne

variable {stem : String} (hStem : stem ∈ stems)

include hStem

/-- A name that is drawn waited to be drawn. -/
theorem pending_draw (s : Supply) : s.Pending (s.draw stem).1 :=
  (pending_numbered hStem).mpr (Nat.le_refl _)

/-- Once it is drawn, it waits no more. -/
theorem not_pending_draw (s : Supply) : ¬(s.draw stem).2.Pending (s.draw stem).1 := by
  rw [draw_fst, pending_numbered hStem, drawn_draw, if_pos rfl]
  omega

/-- Names drawn together waited to be drawn, and no longer do. -/
theorem pending_drawMany (s : Supply) {count : Nat} {x : Name}
    (h : x ∈ (s.drawMany stem count).1) :
    s.Pending x ∧ ¬(s.drawMany stem count).2.Pending x := by
  obtain ⟨n, hFrom, hTo, rfl⟩ := mem_drawMany.mp h
  rw [pending_numbered hStem, pending_numbered hStem, drawn_drawMany, if_pos rfl]
  exact ⟨hFrom, Nat.not_le_of_lt hTo⟩

omit hStem in
/-- Names that are drawn together are different, having different
numbers under one stem. -/
theorem nodup_drawMany (s : Supply) (count : Nat) : (s.drawMany stem count).1.Nodup := by
  refine List.pairwise_map.mpr (List.nodup_range.imp fun hNe hEq => hNe ?_)
  have hNumber := numbered_inj.mp hEq
  omega

end HindleyMilner.Supply
