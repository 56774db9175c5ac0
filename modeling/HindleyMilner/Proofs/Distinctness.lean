import HindleyMilner.Proofs.Freshness

/-! Runs of requests to one supply. A request asks for the next name under a stem or for
several at once, and each is answered from the supply that the one before it left. Under one
stem the numbers go up, so a name comes back only if two stems meet: a stem that ends in a digit
takes names that belong to a shorter one. Where no stem does, all names of a run differ. A supply
that counts in 32 bits answers a run in the same way until a count would wrap around. -/
namespace HindleyMilner

namespace Supply

inductive Request where
  | next (stem : String)
  | several (stem : String) (count : Nat)
deriving DecidableEq

namespace Request

def stem : Request → String
  | next stem | several stem _ => stem

def count : Request → Nat
  | next _ => 1
  | several _ count => count

end Request

/-- The number of names that requests ask for under a stem. -/
def demand (stem : String) : List Request → Nat
  | [] => 0
  | r :: rs => (if r.stem = stem then r.count else 0) + demand stem rs

/-- The names that answer a request, and the advanced supply. -/
def answer (s : Supply) : Request → List Name × Supply
  | .next stem => ([(s.draw stem).1], (s.draw stem).2)
  | .several stem count => s.drawMany stem count

/-- The names that answer requests one after the other, and the
supply after the last. -/
def answerAll (s : Supply) : List Request → List Name × Supply
  | [] => ([], s)
  | r :: rs =>
      let first := s.answer r
      let rest := first.2.answerAll rs
      (first.1 ++ rest.1, rest.2)

/-- Asking for the next name is asking for one name. -/
theorem answer_eq_drawMany (s : Supply) (r : Request) :
    s.answer r = s.drawMany r.stem r.count := by
  cases r with
  | next stem => exact (s.drawMany_one stem).symm
  | several stem count => rfl

/-- A request advances the count of its own stem by the names it asks for,
and no other count. -/
theorem drawn_answer (s : Supply) (r : Request) (stem : String) :
    (s.answer r).2.drawn stem = s.drawn stem + if r.stem = stem then r.count else 0 := by
  rw [answer_eq_drawMany, drawn_drawMany]
  by_cases hEq : r.stem = stem
  · rw [if_pos hEq, if_pos hEq, hEq]
  · rw [if_neg hEq, if_neg hEq]
    rfl

/-- A run advances the count of each stem by what it is asked for under that
stem. -/
theorem drawn_answerAll (s : Supply) (requests : List Request) (stem : String) :
    (s.answerAll requests).2.drawn stem = s.drawn stem + demand stem requests := by
  induction requests generalizing s with
  | nil => rfl
  | cons r rs ih => rw [answerAll, ih, drawn_answer, demand, Nat.add_assoc]

/-- Names that are asked for under a stem are asked for by a request. -/
theorem exists_of_demand_pos {stem : String} {requests : List Request}
    (h : 0 < demand stem requests) : ∃ r ∈ requests, r.stem = stem := by
  induction requests with
  | nil => cases h
  | cons r rs ih =>
      rw [demand] at h
      by_cases hEq : r.stem = stem
      · exact ⟨r, List.mem_cons_self, hEq⟩
      · rw [if_neg hEq, Nat.zero_add] at h
        obtain ⟨r', hr', hEq⟩ := ih h
        exact ⟨r', List.mem_cons_of_mem r hr', hEq⟩

/-- The names that answer a request have the numbers between the counts
before and after it. -/
theorem mem_answer {s : Supply} {r : Request} {x : Name} :
    x ∈ (s.answer r).1 ↔ ∃ stem n,
      s.drawn stem ≤ n ∧ n < (s.answer r).2.drawn stem ∧ x = numbered stem n := by
  simp only [drawn_answer]
  rw [answer_eq_drawMany, mem_drawMany]
  constructor
  · rintro ⟨n, hFrom, hTo, rfl⟩
    exact ⟨r.stem, n, hFrom, by rwa [if_pos rfl], rfl⟩
  · rintro ⟨stem, n, hFrom, hTo, rfl⟩
    by_cases hStem : r.stem = stem
    · subst hStem
      rw [if_pos rfl] at hTo
      exact ⟨n, hFrom, hTo, rfl⟩
    · rw [if_neg hStem] at hTo
      omega

/-- The names of a run continue the numbers under each stem, without a gap, up
to what is asked for under it. -/
theorem mem_answerAll {s : Supply} {requests : List Request} {x : Name} :
    x ∈ (s.answerAll requests).1 ↔ ∃ stem n,
      s.drawn stem ≤ n ∧ n < s.drawn stem + demand stem requests ∧ x = numbered stem n := by
  induction requests generalizing s with
  | nil =>
      simp only [answerAll, demand, List.not_mem_nil, false_iff]
      rintro ⟨stem, n, hFrom, hTo, _⟩
      omega
  | cons r rs ih =>
      rw [answerAll, List.mem_append, ih, mem_answer]
      simp only [drawn_answer, demand]
      constructor
      · rintro (⟨stem, n, hFrom, hTo, rfl⟩ | ⟨stem, n, hFrom, hTo, rfl⟩)
        · exact ⟨stem, n, hFrom, by omega, rfl⟩
        · exact ⟨stem, n, by omega, by omega, rfl⟩
      · rintro ⟨stem, n, hFrom, hTo, rfl⟩
        -- The number is below the count that the first request leaves, or for a later one.
        by_cases hFirst : n < s.drawn stem + if r.stem = stem then r.count else 0
        · exact .inl ⟨stem, n, hFrom, hFirst, rfl⟩
        · exact .inr ⟨stem, n, by omega, by omega, rfl⟩

/-- The names that answer a request are not given out again, since
later names under their stem have larger numbers and names under other
stems are different. -/
theorem not_mem_answerAll_of_mem_answer {s : Supply} {r : Request} {rs : List Request}
    (hStems : ∀ r' ∈ r :: rs, endsInDigit r'.stem = false) {x : Name}
    (h : x ∈ (s.answer r).1) : x ∉ ((s.answer r).2.answerAll rs).1 := by
  intro hLater
  rw [answer_eq_drawMany] at h
  obtain ⟨m, _, hUpTo, rfl⟩ := mem_drawMany.mp h
  obtain ⟨stem, n, hFrom, hTo, hEq⟩ := mem_answerAll.mp hLater
  obtain ⟨r', hr', rfl⟩ : ∃ r' ∈ rs, r'.stem = stem := exists_of_demand_pos (by omega)
  -- Only a request for the same stem could give the name, and its numbers are past this one.
  obtain ⟨hStem, rfl⟩ := (numbered_eq_iff (hStems r List.mem_cons_self)
    (hStems r' (List.mem_cons_of_mem r hr'))).mp hEq
  rw [drawn_answer, if_pos hStem, ← hStem] at hFrom
  exact Nat.not_le_of_lt hUpTo hFrom

/-- No name is given out twice in a run: names under one stem differ in their
numbers, and a stem that does not end in a digit can be told from its name. -/
theorem nodup_answerAll (s : Supply) {requests : List Request}
    (hStems : ∀ r ∈ requests, endsInDigit r.stem = false) :
    (s.answerAll requests).1.Nodup := by
  induction requests generalizing s with
  | nil => exact List.nodup_nil
  | cons r rs ih =>
      have hFirst : (s.answer r).1.Nodup := by
        rw [answer_eq_drawMany]
        exact nodup_drawMany s _
      have hRest := ih (s.answer r).2 fun r' hr' => hStems r' (List.mem_cons_of_mem r hr')
      refine List.nodup_append.mpr ⟨hFirst, hRest, ?_⟩
      rintro x hx y hy rfl
      exact not_mem_answerAll_of_mem_answer hStems hx hy

/-- Fresh names never repeat. Whatever was drawn before and in whichever order
the stems are asked for, no two names of a run are equal if no stem ends in a
digit, and none that was asked for is missing. With fewer names under each stem
than 32 bits can count, no count leaves that range. -/
theorem answerAll_distinct (s : Supply) (requests : List Request)
    (hStems : ∀ r ∈ requests, endsInDigit r.stem = false)
    (hFew : ∀ r ∈ requests, s.drawn r.stem + demand r.stem requests < UInt32.size) :
    (s.answerAll requests).1.Nodup ∧
    (∀ x, x ∈ (s.answerAll requests).1 ↔ ∃ stem n,
      s.drawn stem ≤ n ∧ n < s.drawn stem + demand stem requests ∧ x = numbered stem n) ∧
    ∀ r ∈ requests, (s.answerAll requests).2.drawn r.stem < UInt32.size := by
  refine ⟨s.nodup_answerAll hStems, fun x => mem_answerAll, fun r hr => ?_⟩
  rw [drawn_answerAll]
  exact hFew r hr

/-- Requests in turn for stems that start alike: the empty one, one with a digit
inside, and one whose names have numbers of one and of two digits. -/
def mixedRequests : List Request :=
  [.several "t" 10, .next "", .several "tc" 2, .next "t1x", .several "" 2, .several "h" 0,
    .next "t"]

theorem answerAll_distinct_mixedRequests :
    (.next "t1x" ∈ mixedRequests ∧
      (empty.draw "t").2.drawn "t" + demand "t" mixedRequests = 12) ∧
    ((empty.draw "t").2.answerAll mixedRequests).1 =
      ["t1", "t2", "t3", "t4", "t5", "t6", "t7", "t8", "t9", "t10", "0", "tc0", "tc1", "t1x0",
        "1", "2", "t11"] ∧
    ((empty.draw "t").2.answerAll mixedRequests).1.Nodup ∧
    ∀ r ∈ mixedRequests,
      ((empty.draw "t").2.answerAll mixedRequests).2.drawn r.stem < UInt32.size := by
  have hStems : ∀ r ∈ mixedRequests, endsInDigit r.stem = false := by decide +kernel
  have hFew : ∀ r ∈ mixedRequests,
      (empty.draw "t").2.drawn r.stem + demand r.stem mixedRequests < UInt32.size := by
    decide +kernel
  obtain ⟨hNodup, _, hCounts⟩ := answerAll_distinct _ _ hStems hFew
  exact ⟨by decide +kernel, by decide +kernel, hNodup, hCounts⟩

-- A stem that ends in a digit takes a name from the stem before that digit.
example : ¬(empty.answerAll [.several "t" 11, .next "t1"]).1.Nodup := by decide +kernel

end Supply

open Supply

/-- A supply that keeps its counts in 32 bits, so that they wrap around. -/
structure WordSupply where
  counts : NameMap UInt32

namespace WordSupply

def drawn (w : WordSupply) (stem : String) : UInt32 := w.counts.getD stem 0

def draw (w : WordSupply) (stem : String) : Name × WordSupply :=
  (numbered stem (w.drawn stem).toNat, ⟨w.counts.insert stem (w.drawn stem + 1)⟩)

def drawMany (w : WordSupply) (stem : String) : Nat → List Name × WordSupply
  | 0 => ([], w)
  | count + 1 =>
      let first := w.draw stem
      let rest := first.2.drawMany stem count
      (first.1 :: rest.1, rest.2)

def answer (w : WordSupply) : Request → List Name × WordSupply
  | .next stem => ([(w.draw stem).1], (w.draw stem).2)
  | .several stem count => w.drawMany stem count

def answerAll (w : WordSupply) : List Request → List Name × WordSupply
  | [] => ([], w)
  | r :: rs =>
      let first := w.answer r
      let rest := first.2.answerAll rs
      (first.1 ++ rest.1, rest.2)

/-- The words that are kept are the counts of a supply, none of which
has wrapped around. -/
def Keeps (w : WordSupply) (s : Supply) : Prop := ∀ stem, (w.drawn stem).toNat = s.drawn stem

variable {w : WordSupply} {s : Supply}

/-- A count that does not wrap around gives the same name and goes on being the
same. -/
theorem Keeps.draw (h : w.Keeps s) (stem : String) (hFew : s.drawn stem + 1 < UInt32.size) :
    (w.draw stem).1 = (s.draw stem).1 ∧ (w.draw stem).2.Keeps (s.draw stem).2 := by
  refine ⟨congrArg (numbered stem) (h stem), fun other => ?_⟩
  have hWord : (w.draw stem).2.drawn other =
      if stem = other then w.drawn stem + 1 else w.drawn other := by
    simp only [WordSupply.draw, drawn, Std.ExtTreeMap.getD_insert,
      Std.LawfulEqCmp.compare_eq_iff_eq]
  rw [hWord, drawn_draw]
  by_cases hStem : stem = other
  · rw [if_pos hStem, if_pos hStem, UInt32.toNat_add, h stem]
    exact Nat.mod_eq_of_lt hFew
  · rw [if_neg hStem, if_neg hStem]
    exact h other

/-- By induction on how many names are drawn together: none of them makes
the count wrap around. -/
theorem Keeps.drawMany (h : w.Keeps s) {stem : String} {count : Nat}
    (hFew : s.drawn stem + count < UInt32.size) :
    (w.drawMany stem count).1 = (s.drawMany stem count).1 ∧
      (w.drawMany stem count).2.Keeps (s.drawMany stem count).2 := by
  induction count generalizing w s with
  | zero => exact ⟨rfl, h⟩
  | succ count ih =>
      obtain ⟨hName, hKeeps⟩ := h.draw stem (by omega)
      have hDrawn : (s.draw stem).2.drawn stem = s.drawn stem + 1 := by
        rw [drawn_draw, if_pos rfl]
      obtain ⟨hNames, hRest⟩ := ih hKeeps (by omega)
      rw [WordSupply.drawMany, drawMany_succ, hName, hNames]
      exact ⟨rfl, hRest⟩

/-- A request that stays below the bound is answered alike, whether it asks for
one name or for many. -/
theorem Keeps.answer (h : w.Keeps s) {r : Request}
    (hFew : s.drawn r.stem + r.count < UInt32.size) :
    (w.answer r).1 = (s.answer r).1 ∧ (w.answer r).2.Keeps (s.answer r).2 := by
  cases r with
  | next stem =>
      obtain ⟨hName, hKeeps⟩ := h.draw stem hFew
      exact ⟨congrArg (fun name => [name]) hName, hKeeps⟩
  | several stem count => exact h.drawMany hFew

/-- Below 2^32 names under each stem, a supply that counts in 32 bits answers
every sequence of requests with the names that counting without a bound gives,
and its counts are the same. -/
theorem answerAll_eq (h : w.Keeps s) {requests : List Request}
    (hFew : ∀ r ∈ requests, s.drawn r.stem + demand r.stem requests < UInt32.size) :
    (w.answerAll requests).1 = (s.answerAll requests).1 ∧
      (w.answerAll requests).2.Keeps (s.answerAll requests).2 := by
  induction requests generalizing w s with
  | nil => exact ⟨rfl, h⟩
  | cons r rs ih =>
      have hFirst : s.drawn r.stem + r.count < UInt32.size := by
        have hAll := hFew r List.mem_cons_self
        rw [demand, if_pos rfl] at hAll
        omega
      obtain ⟨hNames, hKeeps⟩ := h.answer hFirst
      obtain ⟨hMore, hRest⟩ := ih hKeeps fun r' hr' => by
        have hAll := hFew r' (List.mem_cons_of_mem r hr')
        rw [demand] at hAll
        rw [drawn_answer]
        omega
      rw [WordSupply.answerAll, Supply.answerAll, hNames, hMore]
      exact ⟨rfl, hRest⟩

end WordSupply

end HindleyMilner
