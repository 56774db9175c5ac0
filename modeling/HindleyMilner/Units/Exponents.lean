import HindleyMilner.Name

/-! Exponents of the factors of a unit. A factor that does not occur has the
exponent zero and no entry, so exponents that agree everywhere are equal.
Exponents are 32-bit integers: an operation on them is carried out exactly and
fails when the result does not fit. Maps of exponents are combined one entry
after the other, and `merge?_eq_some_iff` says what comes out. -/
namespace HindleyMilner.Units

/-- The exponent of one factor. -/
abbrev Exponent := Int32

/-- The exponent with an exact value, if it fits. -/
def Exponent.ofInt? (n : Int) : Option Exponent :=
  if Int32.minValue.toInt ≤ n ∧ n ≤ Int32.maxValue.toInt then some (Int32.ofInt n) else none

namespace Exponent

/-- The sum, if it fits. -/
def add? (a b : Exponent) : Option Exponent := ofInt? (a.toInt + b.toInt)

def mul? (a b : Exponent) : Option Exponent := ofInt? (a.toInt * b.toInt)

/-- The quotient rounded toward zero, if it fits. There is none by zero. -/
def div? (a d : Exponent) : Option Exponent :=
  if d = 0 then none else ofInt? (a.toInt.tdiv d.toInt)

/-- An exponent is found exactly for its own value. -/
theorem ofInt?_eq_some {n : Int} {e : Exponent} : ofInt? n = some e ↔ e.toInt = n := by
  have hLeast : Int32.minValue.toInt = -2147483648 := rfl
  have hGreatest : Int32.maxValue.toInt = 2147483647 := rfl
  by_cases hRange : Int32.minValue.toInt ≤ n ∧ n ≤ Int32.maxValue.toInt
  · rw [ofInt?, if_pos hRange, Option.some.injEq, ← Int32.toInt_inj,
      Int32.toInt_ofInt_of_le (by omega) (by omega)]
    exact eq_comm
  · rw [ofInt?, if_neg hRange]
    constructor
    · intro h
      cases h
    · rintro rfl
      exact absurd ⟨Int32.minValue_le_toInt e, Int32.toInt_le e⟩ hRange

/-- A sum is found exactly if it fits, and then it is the exact sum. -/
theorem add?_eq_some {a b e : Exponent} : a.add? b = some e ↔ e.toInt = a.toInt + b.toInt :=
  ofInt?_eq_some

/-- A product is found exactly if it fits, and then it is the exact product. -/
theorem mul?_eq_some {a b e : Exponent} : a.mul? b = some e ↔ e.toInt = a.toInt * b.toInt :=
  ofInt?_eq_some

/-- A quotient is found exactly if the divisor is not zero and the quotient
fits. It is rounded toward zero. -/
theorem div?_eq_some {a d e : Exponent} :
    a.div? d = some e ↔ d ≠ 0 ∧ e.toInt = a.toInt.tdiv d.toInt := by
  by_cases hd : d = 0
  · simp [div?, hd]
  · simp [div?, hd, ofInt?_eq_some]

end Exponent

/-- The exponents of factors, of which finitely many are not zero. -/
structure Exponents where
  map : NameMap Exponent
  nonzero : ∀ x : Name, map[x]? ≠ some 0
deriving DecidableEq

namespace Exponents

/-- The exponent of a factor, zero if it does not occur. -/
def get (a : Exponents) (x : Name) : Exponent := a.map.getD x 0

/-- The factors that occur with their exponents, in name order. -/
def toList (a : Exponents) : List (Name × Exponent) := a.map.toList

def names (a : Exponents) : List Name := a.map.keys

def isEmpty (a : Exponents) : Bool := a.map.isEmpty

def size (a : Exponents) : Nat := a.map.size

/-- The exponents in a map, without the zeros. -/
def ofMap (m : NameMap Exponent) : Exponents where
  map := m.filter fun _ e => e ≠ 0
  nonzero x h := by
    rw [Std.ExtTreeMap.getElem?_filter'] at h
    have := (Option.filter_eq_some_iff.mp h).2
    simp at this

def zero : Exponents := ofMap ∅

def single (x : Name) : Exponents := ofMap ((∅ : NameMap Exponent).insert x 1)

/-- Give a factor an exponent, in place of the one it has. Zero takes it out. -/
def set (a : Exponents) (x : Name) (e : Exponent) : Exponents where
  map := if e = 0 then a.map.erase x else a.map.insert x e
  nonzero y h := by
    by_cases he : e = 0
    · rw [if_pos he, Std.ExtTreeMap.getElem?_erase] at h
      split at h
      · cases h
      · exact a.nonzero y h
    · rw [if_neg he, Std.ExtTreeMap.getElem?_insert] at h
      split at h
      · exact he (Option.some.inj h)
      · exact a.nonzero y h

/-- Enter exponents one after the other, each combined with the one that its
factor has by then. Stops where there is no result. -/
def enter? (f : Exponent → Exponent → Option Exponent) (a : Exponents) :
    List (Name × Exponent) → Option Exponents
  | [] => some a
  | (x, e) :: rest => do
      let new ← f (a.get x) e
      (a.set x new).enter? f rest

/-- Enter all exponents of the second map into the first, in name order. -/
def merge? (f : Exponent → Exponent → Option Exponent) (a b : Exponents) : Option Exponents :=
  a.enter? f b.toList

/-- Add exponents factor by factor. -/
def add? (a b : Exponents) : Option Exponents := merge? Exponent.add? a b

/-- Apply an operation to every exponent, and keep what is not zero. -/
def map? (f : Exponent → Option Exponent) (a : Exponents) : Option Exponents :=
  merge? (fun _ e => f e) zero a

/-- A map of exponents holds what it was made from, except the zeros. -/
theorem getElem?_ofMap (m : NameMap Exponent) (x : Name) :
    (ofMap m).map[x]? = m[x]?.filter fun e => e ≠ 0 :=
  Std.ExtTreeMap.getElem?_filter'

/-- Dropping the zeros changes no exponent. -/
theorem get_ofMap (m : NameMap Exponent) (x : Name) : (ofMap m).get x = m.getD x 0 := by
  rw [get, Std.ExtTreeMap.getD_eq_getD_getElem?, Std.ExtTreeMap.getD_eq_getD_getElem?,
    getElem?_ofMap]
  cases h : m[x]? with
  | none => rfl
  | some e => by_cases he : e = 0 <;> simp [he, Option.filter]

@[simp]
theorem get_zero (x : Name) : zero.get x = 0 := by
  simp [zero, get_ofMap]

theorem get_single (x y : Name) : (single x).get y = if x = y then 1 else 0 := by
  rw [single, get_ofMap, Std.ExtTreeMap.getD_insert, Std.ExtTreeMap.getD_empty]
  simp only [Std.LawfulEqCmp.compare_eq_iff_eq]

/-- What a map of exponents holds for a factor is its exponent, and
nothing if that is zero. -/
theorem getElem?_map (a : Exponents) (x : Name) :
    a.map[x]? = if a.get x = 0 then none else some (a.get x) := by
  rw [get, Std.ExtTreeMap.getD_eq_getD_getElem?]
  cases h : a.map[x]? with
  | none => simp
  | some e =>
      have : e ≠ 0 := fun he => a.nonzero x (he ▸ h)
      simp [this]

/-- Exponents that agree on every factor are equal. -/
@[ext]
theorem ext {a b : Exponents} (h : ∀ x, a.get x = b.get x) : a = b := by
  have hMap : a.map = b.map := Std.ExtTreeMap.ext_getElem? fun x => by
    rw [getElem?_map, getElem?_map, h]
  cases a
  cases b
  cases hMap
  rfl

/-- Setting one exponent leaves all others as they are. Setting it to zero drops
its entry, which reads as zero again. -/
theorem get_set (a : Exponents) (x : Name) (e : Exponent) (y : Name) :
    (a.set x e).get y = if x = y then e else a.get y := by
  by_cases he : e = 0
  · simp [get, set, he, Std.ExtTreeMap.getD_erase]
  · simp [get, set, he, Std.ExtTreeMap.getD_insert]

/-- The entries of a map are the factors whose exponent is not zero,
each with its exponent. -/
theorem mem_toList {a : Exponents} {x : Name} {e : Exponent} :
    (x, e) ∈ a.toList ↔ a.get x = e ∧ e ≠ 0 := by
  rw [toList, Std.ExtTreeMap.mem_toList_iff_getElem?_eq_some, getElem?_map]
  by_cases h : a.get x = 0
  · rw [if_pos h, h]
    simp [eq_comm]
  · rw [if_neg h]
    constructor
    · rintro ⟨rfl⟩
      exact ⟨rfl, h⟩
    · rintro ⟨rfl, -⟩
      rfl

/-- No factor has two entries. -/
theorem nodup_toList (a : Exponents) : (a.toList.map Prod.fst).Nodup := by
  rw [List.nodup_iff_pairwise_ne, List.pairwise_map]
  exact Std.ExtTreeMap.distinct_keys_toList.imp fun h => by simpa using h

/-- Entries for different factors do not meet: each is combined with the
exponent that its factor had at the start, and all other factors keep theirs. -/
theorem enter?_eq_some_iff {f : Exponent → Exponent → Option Exponent}
    {l : List (Name × Exponent)} (hl : (l.map Prod.fst).Nodup) {a c : Exponents} :
    a.enter? f l = some c ↔
      (∀ p ∈ l, f (a.get p.1) p.2 = some (c.get p.1)) ∧
      ∀ x ∉ l.map Prod.fst, c.get x = a.get x := by
  induction l generalizing a with
  | nil =>
      simp only [enter?, Option.some.injEq, List.not_mem_nil, List.map_nil, false_implies,
        implies_true, true_and, not_false_eq_true, true_implies]
      exact ⟨fun h x => h ▸ rfl, fun h => ext fun x => (h x).symm⟩
  | cons p rest ih =>
      obtain ⟨x, e⟩ := p
      obtain ⟨hx, hRest⟩ : x ∉ rest.map Prod.fst ∧ _ := List.nodup_cons.mp hl
      have hOther : ∀ {y new}, y ∈ rest.map Prod.fst → (a.set x new).get y = a.get y := by
        intro y new hy
        rw [get_set, if_neg]
        rintro rfl
        exact hx hy
      simp only [enter?, Option.bind_eq_bind, Option.bind_eq_some_iff, ih hRest]
      constructor
      · rintro ⟨new, hNew, hEntered, hKept⟩
        have hValue : c.get x = new := by rw [hKept x hx, get_set, if_pos rfl]
        refine ⟨fun q hq => ?_, fun y hy => ?_⟩
        · rcases List.mem_cons.mp hq with rfl | hq
          · rw [hValue]
            exact hNew
          · rw [← hOther (List.mem_map_of_mem hq)]
            exact hEntered q hq
        · rw [List.map_cons, List.mem_cons, not_or] at hy
          rw [hKept y hy.2, get_set, if_neg (Ne.symm hy.1)]
      · rintro ⟨hEntered, hKept⟩
        refine ⟨c.get x, hEntered (x, e) List.mem_cons_self, fun q hq => ?_, fun y hy => ?_⟩
        · rw [hOther (List.mem_map_of_mem hq)]
          exact hEntered q (List.mem_cons_of_mem _ hq)
        · by_cases hxy : x = y
          · rw [get_set, if_pos hxy, hxy]
          · rw [get_set, if_neg hxy]
            apply hKept
            rw [List.map_cons, List.mem_cons, not_or]
            exact ⟨Ne.symm hxy, hy⟩

/-- Merging gives exactly the map in which every factor of the second one has
the combined exponent and every other factor its own. -/
theorem merge?_eq_some_iff {f : Exponent → Exponent → Option Exponent} {a b c : Exponents} :
    merge? f a b = some c ↔
      ∀ x, if b.get x = 0 then c.get x = a.get x else f (a.get x) (b.get x) = some (c.get x) := by
  have hKeys : ∀ x, x ∈ b.toList.map Prod.fst ↔ b.get x ≠ 0 := by
    intro x
    simp only [List.mem_map, Prod.exists, mem_toList]
    constructor
    · rintro ⟨_, e, ⟨rfl, he⟩, rfl⟩
      exact he
    · exact fun h => ⟨x, b.get x, ⟨rfl, h⟩, rfl⟩
  rw [merge?, enter?_eq_some_iff b.nodup_toList]
  constructor
  · rintro ⟨hEntered, hKept⟩ x
    by_cases hx : b.get x = 0
    · rw [if_pos hx]
      exact hKept x fun h => (hKeys x).mp h hx
    · rw [if_neg hx]
      exact hEntered (x, b.get x) (mem_toList.mpr ⟨rfl, hx⟩)
  · refine fun h => ⟨fun p hp => ?_, fun x hx => ?_⟩
    · obtain ⟨hValue, hNonzero⟩ := mem_toList.mp hp
      have hCombined := h p.1
      rwa [hValue, if_neg hNonzero] at hCombined
    · have hZero : b.get x = 0 :=
        Classical.byContradiction fun hNonzero => hx ((hKeys x).mpr hNonzero)
      have hKept := h x
      rwa [if_pos hZero] at hKept

/-- Entering succeeds where every entry has a result. As the factors of the list
are distinct, each entry meets the exponent that was there at first. -/
theorem exists_enter? {f : Exponent → Exponent → Option Exponent} {l : List (Name × Exponent)}
    (hl : (l.map Prod.fst).Nodup) {a : Exponents}
    (h : ∀ p ∈ l, (f (a.get p.1) p.2).isSome) : ∃ c, a.enter? f l = some c := by
  induction l generalizing a with
  | nil => exact ⟨a, rfl⟩
  | cons p rest ih =>
      obtain ⟨x, e⟩ := p
      obtain ⟨hx, hRest⟩ : x ∉ rest.map Prod.fst ∧ _ := List.nodup_cons.mp hl
      obtain ⟨new, hNew⟩ := Option.isSome_iff_exists.mp (h (x, e) List.mem_cons_self)
      obtain ⟨c, hc⟩ : ∃ c, (a.set x new).enter? f rest = some c := by
        apply ih hRest
        intro q hq
        have hNe : x ≠ q.1 := by
          rintro rfl
          exact hx (List.mem_map_of_mem hq)
        rw [get_set, if_neg hNe]
        exact h q (List.mem_cons_of_mem _ hq)
      refine ⟨c, ?_⟩
      simp only [enter?, hNew, Option.bind_eq_bind, Option.bind_some]
      exact hc

/-- Merging succeeds where the exponents of every factor of the second
map can be combined. -/
theorem exists_merge? {f : Exponent → Exponent → Option Exponent} {a b : Exponents}
    (h : ∀ p ∈ b.toList, (f (a.get p.1) p.2).isSome) : ∃ c, merge? f a b = some c :=
  exists_enter? b.nodup_toList h

end Exponents

end HindleyMilner.Units
