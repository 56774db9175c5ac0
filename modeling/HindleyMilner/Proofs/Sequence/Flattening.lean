import HindleyMilner.Proofs.Synthesis
import HindleyMilner.Sequence.Type

/-! Flat types. Putting a type for a variable joins every sequence with the sequence around it
and spreads every application, also where the variable does not occur. So a type without the
variable comes out unchanged exactly if it has nothing to join and nothing to spread. -/
namespace HindleyMilner.Sequence.Ty

/-- Whether a type is a sequence without a tail. -/
def isSeq : Ty → Bool
  | seq _ => true
  | _ => false

def isRun : Ty → Bool
  | seq _ => true
  | dotted .. => true
  | _ => false

mutual

/-- Whether no sequence stands in a sequence and no application has a side that
is a sequence without a tail. -/
def isFlat : Ty → Bool
  | var .. => true
  | con .. => true
  | app f a => f.isFlat && a.isFlat && !f.isSeq && !a.isSeq
  | seq elements => isFlatAll elements
  | dotted elements tail => isFlatAll elements && tail.isFlat && !tail.isRun

/-- Whether the types of a run are flat and none of them is a sequence. -/
def isFlatAll : List Ty → Bool
  | [] => true
  | t :: ts => t.isFlat && !t.isRun && isFlatAll ts

end

/-- A run is flat if its elements are flat and none of them is a sequence. -/
theorem isFlatAll_iff {ts : List Ty} :
    isFlatAll ts = true ↔ ∀ t ∈ ts, t.isFlat = true ∧ t.isRun = false := by
  induction ts with
  | nil => simp [isFlatAll]
  | cons t ts ih => simp [isFlatAll, ih]

theorem isFlatAll_cons_iff {t : Ty} {ts : List Ty} :
    isFlatAll (t :: ts) = true ↔ (t.isFlat = true ∧ t.isRun = false) ∧ isFlatAll ts = true := by
  simp [isFlatAll]

theorem isFlatAll_append_iff {ts us : List Ty} :
    isFlatAll (ts ++ us) = true ↔ isFlatAll ts = true ∧ isFlatAll us = true := by
  simp only [isFlatAll_iff, List.forall_mem_append]

/-- So is one with a tail, if the tail is flat and no sequence either. -/
theorem isFlat_dotted_iff {elements : List Ty} {tail : Ty} :
    (dotted elements tail).isFlat = true ↔
      isFlatAll elements = true ∧ tail.isFlat = true ∧ tail.isRun = false := by
  simp [isFlat, and_assoc]

theorem not_isSeq_of_not_isRun {t : Ty} (h : t.isRun = false) : t.isSeq = false := by
  cases t with
  | seq elements => cases h
  | _ => rfl

/-- The elements that a type gives to the sequence it is an element of. -/
def joined : Ty → Except TypeError (List Ty)
  | seq inner => .ok inner
  | dotted .. => .error (.unsupported "a dotted sequence spliced before the end of a sequence")
  | t => .ok [t]

/-- A type that is no sequence is a single element. -/
theorem joined_of_not_isRun {t : Ty} (h : t.isRun = false) : t.joined = .ok [t] := by
  cases t with
  | seq elements => cases h
  | dotted elements tail => cases h
  | _ => rfl

/-- The elements that a flat type gives to a sequence are a flat run. -/
theorem isFlatAll_joined {t : Ty} {ts : List Ty} (ht : t.isFlat = true) (h : t.joined = .ok ts) :
    isFlatAll ts = true := by
  cases t with
  | seq inner =>
      cases h
      exact ht
  | dotted inner tail => cases h
  | _ =>
      cases h
      simp [isFlatAll, ht, isRun]

/-- The sequence of some elements followed by what a tail has become. -/
def closedBy (elements : List Ty) : Ty → Ty
  | seq inner => seq (elements ++ inner)
  | dotted inner tail => dotted (elements ++ inner) tail
  | tail => dotted elements tail

theorem closedBy_of_not_isRun {elements : List Ty} {tail : Ty} (h : tail.isRun = false) :
    closedBy elements tail = dotted elements tail := by
  cases tail with
  | seq inner => cases h
  | dotted inner last => cases h
  | _ => rfl

/-- A flat run that is closed by a flat tail is flat, whether the tail has
become a sequence or not. -/
theorem isFlat_closedBy {elements : List Ty} {tail : Ty} (h : isFlatAll elements = true)
    (hTail : tail.isFlat = true) : (closedBy elements tail).isFlat = true := by
  cases tail with
  | seq inner => exact isFlatAll_append_iff.mpr ⟨h, hTail⟩
  | dotted inner last =>
      obtain ⟨hInner, hLast⟩ := isFlat_dotted_iff.mp hTail
      exact isFlat_dotted_iff.mpr ⟨isFlatAll_append_iff.mpr ⟨h, hInner⟩, hLast⟩
  | _ => exact isFlat_dotted_iff.mpr ⟨h, hTail, rfl⟩

/-- An application of types that are no sequences is the application. -/
theorem spread_of_not_isSeq {f a : Ty} (hf : f.isSeq = false) (ha : a.isSeq = false) :
    spread f a = .ok (app f a) := by
  cases f with
  | seq fs => cases hf
  | _ =>
      cases a with
      | seq as => cases ha
      | _ => rfl

/-- The types over which an application to or of a type is spread. -/
def parts : Ty → List Ty
  | seq elements => elements
  | t => [t]

theorem parts_of_not_isSeq {t : Ty} (h : t.isSeq = false) : t.parts = [t] := by
  cases t with
  | seq elements => cases h
  | _ => rfl

/-- An application stays one, or becomes a sequence of applications of
parts. That two sequences have to be of one length does not matter for
what the elements are. -/
theorem spread_eq_ok {f a t : Ty} (h : spread f a = .ok t) :
    (f.isSeq = false ∧ a.isSeq = false ∧ t = app f a) ∨
      ∃ ts, t = seq ts ∧ ∀ s ∈ ts, ∃ g ∈ f.parts, ∃ b ∈ a.parts, s = app g b := by
  cases f with
  | seq fs =>
      cases a with
      | seq as =>
          rw [spread] at h
          split at h
          · cases h
            refine .inr ⟨_, rfl, fun s hs => ?_⟩
            rw [← List.map_uncurry_zip_eq_zipWith] at hs
            obtain ⟨p, hp, rfl⟩ := List.mem_map.mp hs
            obtain ⟨hFunction, hArgument⟩ := List.of_mem_zip hp
            exact ⟨p.1, hFunction, p.2, hArgument, rfl⟩
          · cases h
      | _ =>
          cases h
          refine .inr ⟨_, rfl, fun s hs => ?_⟩
          obtain ⟨g, hg, rfl⟩ := List.mem_map.mp hs
          exact ⟨g, hg, _, List.mem_cons_self, rfl⟩
  | _ =>
      cases a with
      | seq as =>
          cases h
          refine .inr ⟨_, rfl, fun s hs => ?_⟩
          obtain ⟨b, hb, rfl⟩ := List.mem_map.mp hs
          exact ⟨_, List.mem_cons_self, b, hb, rfl⟩
      | _ =>
          cases h
          exact .inl ⟨rfl, rfl, rfl⟩

/-- Whether a type can be a side of a flat application. -/
def IsSide (t : Ty) : Prop := t.isFlat = true ∧ t.isSeq = false

/-- An application is flat if its two sides may be sides. -/
theorem isFlat_app_iff {f a : Ty} : (app f a).isFlat = true ↔ f.IsSide ∧ a.IsSide := by
  simp only [isFlat, IsSide, Bool.and_eq_true, Bool.not_eq_true']
  constructor
  · rintro ⟨⟨⟨hf, ha⟩, hfSeq⟩, haSeq⟩
    exact ⟨⟨hf, hfSeq⟩, ha, haSeq⟩
  · rintro ⟨⟨hf, hfSeq⟩, ha, haSeq⟩
    exact ⟨⟨⟨hf, ha⟩, hfSeq⟩, haSeq⟩

/-- The parts of a flat type may be sides of an application. -/
theorem isSide_of_mem_parts {t s : Ty} (ht : t.isFlat = true) (hs : s ∈ t.parts) : s.IsSide := by
  cases hSeq : t.isSeq with
  | false =>
      rw [parts_of_not_isSeq hSeq, List.mem_singleton] at hs
      rw [hs]
      exact ⟨ht, hSeq⟩
  | true =>
      cases t with
      | seq elements =>
          obtain ⟨hFlat, hRun⟩ := isFlatAll_iff.mp ht s hs
          exact ⟨hFlat, not_isSeq_of_not_isRun hRun⟩
      | _ => cases hSeq

/-- Spreading an application of flat types gives a flat type. -/
theorem isFlat_spread {f a t : Ty} (hf : f.isFlat = true) (ha : a.isFlat = true)
    (h : spread f a = .ok t) : t.isFlat = true := by
  rcases spread_eq_ok h with ⟨hfSeq, haSeq, rfl⟩ | ⟨ts, rfl, hts⟩
  · exact isFlat_app_iff.mpr ⟨⟨hf, hfSeq⟩, ha, haSeq⟩
  · refine isFlatAll_iff.mpr fun s hs => ?_
    obtain ⟨g, hg, b, hb, rfl⟩ := hts s hs
    exact ⟨isFlat_app_iff.mpr ⟨isSide_of_mem_parts hf hg, isSide_of_mem_parts ha hb⟩, rfl⟩

mutual

/-- Join every sequence with the sequence around it and spread every application. -/
def flatten : Ty → Except TypeError Ty
  | var x k => .ok (var x k)
  | con c k => .ok (con c k)
  | app f a => do
      let f ← f.flatten
      let a ← a.flatten
      spread f a
  | seq elements => do
      let elements ← flattenAll elements
      .ok (seq elements)
  | dotted elements tail => do
      let elements ← flattenAll elements
      let tail ← tail.flatten
      .ok (closedBy elements tail)

/-- Flatten the types of a run, joining what becomes a sequence. -/
def flattenAll : List Ty → Except TypeError (List Ty)
  | [] => .ok []
  | t :: ts => do
      let t ← t.flatten
      let first ← t.joined
      let rest ← flattenAll ts
      .ok (first ++ rest)

end

mutual

/-- A flat type stays as it is. -/
theorem flatten_of_isFlat : ∀ {t : Ty}, t.isFlat = true → t.flatten = .ok t
  | var x k, _ => rfl
  | con c k, _ => rfl
  | app f a, h => by
      obtain ⟨hf, ha⟩ := isFlat_app_iff.mp h
      rw [flatten, flatten_of_isFlat hf.1, flatten_of_isFlat ha.1]
      exact spread_of_not_isSeq hf.2 ha.2
  | seq elements, h => by
      rw [flatten, flattenAll_of_isFlatAll h]
      rfl
  | dotted elements tail, h => by
      obtain ⟨hElements, hTail, hRun⟩ := isFlat_dotted_iff.mp h
      rw [flatten, flattenAll_of_isFlatAll hElements, flatten_of_isFlat hTail]
      exact congrArg Except.ok (closedBy_of_not_isRun hRun)

theorem flattenAll_of_isFlatAll : ∀ {ts : List Ty}, isFlatAll ts = true → flattenAll ts = .ok ts
  | [], _ => rfl
  | t :: ts, h => by
      obtain ⟨⟨ht, hRun⟩, hts⟩ := isFlatAll_cons_iff.mp h
      rw [flattenAll, flatten_of_isFlat ht, flattenAll_of_isFlatAll hts]
      show (t.joined >>= fun first => .ok (first ++ ts)) = _
      rw [joined_of_not_isRun hRun]
      rfl

end

mutual

/-- What comes out is flat, be it a single type or one that an
application was spread into. -/
theorem isFlat_of_flatten : ∀ {t s : Ty}, t.flatten = .ok s → s.isFlat = true
  | var x k, s, h => by
      cases h
      rfl
  | con c k, s, h => by
      cases h
      rfl
  | app f a, s, h => by
      obtain ⟨f', hf, h⟩ := bind_eq_ok.mp h
      obtain ⟨a', ha, h⟩ := bind_eq_ok.mp h
      exact isFlat_spread (isFlat_of_flatten hf) (isFlat_of_flatten ha) h
  | seq elements, s, h => by
      obtain ⟨elements', hElements, h⟩ := bind_eq_ok.mp h
      cases h
      exact isFlatAll_of_flattenAll hElements
  | dotted elements tail, s, h => by
      obtain ⟨elements', hElements, h⟩ := bind_eq_ok.mp h
      obtain ⟨tail', hTail, h⟩ := bind_eq_ok.mp h
      cases h
      exact isFlat_closedBy (isFlatAll_of_flattenAll hElements) (isFlat_of_flatten hTail)

theorem isFlatAll_of_flattenAll : ∀ {ts us : List Ty}, flattenAll ts = .ok us →
    isFlatAll us = true
  | [], us, h => by
      cases h
      rfl
  | t :: ts, us, h => by
      obtain ⟨t', ht, h⟩ := bind_eq_ok.mp h
      obtain ⟨first, hFirst, h⟩ := bind_eq_ok.mp h
      obtain ⟨rest, hRest, h⟩ := bind_eq_ok.mp h
      cases h
      exact isFlatAll_append_iff.mpr ⟨isFlatAll_joined (isFlat_of_flatten ht) hFirst,
        isFlatAll_of_flattenAll hRest⟩

end

theorem mem_freeVarsAll {x : Name} {ts : List Ty} :
    x ∈ freeVarsAll ts ↔ ∃ t ∈ ts, x ∈ t.freeVars := by
  induction ts with
  | nil => simp [freeVarsAll]
  | cons t ts ih => simp [freeVarsAll, ih]

theorem freeVarsAll_append (ts us : List Ty) :
    freeVarsAll (ts ++ us) = freeVarsAll ts ++ freeVarsAll us := by
  induction ts with
  | nil => rfl
  | cons t ts ih => rw [List.cons_append, freeVarsAll, ih, freeVarsAll, List.append_assoc]

/-- The variables of a part are variables of the type. -/
theorem mem_freeVars_of_parts {t s : Ty} {x : Name} (h : s ∈ t.parts) (hx : x ∈ s.freeVars) :
    x ∈ t.freeVars := by
  cases hSeq : t.isSeq with
  | false =>
      rw [parts_of_not_isSeq hSeq, List.mem_singleton] at h
      exact h ▸ hx
  | true =>
      cases t with
      | seq elements => exact mem_freeVarsAll.mpr ⟨s, h, hx⟩
      | _ => cases hSeq

/-- An application has no more variables after it is spread. -/
theorem mem_freeVars_of_spread {f a t : Ty} {x : Name} (h : spread f a = .ok t)
    (hx : x ∈ t.freeVars) : x ∈ f.freeVars ∨ x ∈ a.freeVars := by
  rcases spread_eq_ok h with ⟨-, -, rfl⟩ | ⟨ts, rfl, hts⟩
  · exact List.mem_append.mp hx
  · obtain ⟨s, hs, hx⟩ := mem_freeVarsAll.mp hx
    obtain ⟨g, hg, b, hb, rfl⟩ := hts s hs
    exact (List.mem_append.mp hx).imp (mem_freeVars_of_parts hg) (mem_freeVars_of_parts hb)

/-- The elements of a type have the variables of the type. -/
theorem freeVarsAll_joined {t : Ty} {ts : List Ty} (h : t.joined = .ok ts) :
    freeVarsAll ts = t.freeVars := by
  cases t with
  | dotted inner tail => cases h
  | seq inner =>
      cases h
      rfl
  | _ =>
      cases h
      exact List.append_nil _

theorem freeVars_closedBy (elements : List Ty) (tail : Ty) :
    (closedBy elements tail).freeVars = freeVarsAll elements ++ tail.freeVars := by
  cases tail with
  | seq inner => exact freeVarsAll_append elements inner
  | dotted inner last =>
      rw [closedBy, freeVars, freeVarsAll_append, freeVars, List.append_assoc]
  | _ => rfl

mutual

/-- Flattening adds no variable. It may lose some, as an application of an empty
run is an empty run. -/
theorem mem_freeVars_of_flatten {x : Name} : ∀ {t s : Ty}, t.flatten = .ok s → x ∈ s.freeVars →
    x ∈ t.freeVars
  | var y k, s, h, hx => by
      cases h
      exact hx
  | con c k, s, h, hx => by
      cases h
      exact hx
  | app f a, s, h, hx => by
      obtain ⟨f', hf, h⟩ := bind_eq_ok.mp h
      obtain ⟨a', ha, h⟩ := bind_eq_ok.mp h
      apply List.mem_append.mpr
      exact (mem_freeVars_of_spread h hx).imp (mem_freeVars_of_flatten hf)
        (mem_freeVars_of_flatten ha)
  | seq elements, s, h, hx => by
      obtain ⟨elements', hElements, h⟩ := bind_eq_ok.mp h
      cases h
      exact mem_freeVarsAll_of_flattenAll hElements hx
  | dotted elements tail, s, h, hx => by
      obtain ⟨elements', hElements, h⟩ := bind_eq_ok.mp h
      obtain ⟨tail', hTail, h⟩ := bind_eq_ok.mp h
      cases h
      rw [freeVars_closedBy] at hx
      apply List.mem_append.mpr
      exact (List.mem_append.mp hx).imp (mem_freeVarsAll_of_flattenAll hElements)
        (mem_freeVars_of_flatten hTail)

theorem mem_freeVarsAll_of_flattenAll {x : Name} : ∀ {ts us : List Ty}, flattenAll ts = .ok us →
    x ∈ freeVarsAll us → x ∈ freeVarsAll ts
  | [], us, h, hx => by
      cases h
      exact hx
  | t :: ts, us, h, hx => by
      obtain ⟨t', ht, h⟩ := bind_eq_ok.mp h
      obtain ⟨first, hFirst, h⟩ := bind_eq_ok.mp h
      obtain ⟨rest, hRest, h⟩ := bind_eq_ok.mp h
      cases h
      rw [freeVarsAll_append, freeVarsAll_joined hFirst] at hx
      apply List.mem_append.mpr
      exact (List.mem_append.mp hx).imp (mem_freeVars_of_flatten ht)
        (mem_freeVarsAll_of_flattenAll hRest)

end

mutual

/-- Putting a type for a variable that does not occur is flattening. Both follow
the same recursion and join and spread at the same places. -/
theorem subst_eq_flatten {x : Name} {u : Ty} : ∀ {t : Ty}, x ∉ t.freeVars → t.subst x u = t.flatten
  | var y k, hx => by
      have hNe : y ≠ x := fun hEq => hx (hEq ▸ List.mem_cons_self)
      rw [subst, if_neg hNe, flatten]
  | con c k, _ => rfl
  | app f a, hx => by
      obtain ⟨hf, ha⟩ := not_or.mp (mt List.mem_append.mpr hx)
      rw [subst, subst_eq_flatten hf, subst_eq_flatten ha, flatten]
  | seq elements, hx => by rw [subst, substAll_eq_flattenAll hx, flatten]
  | dotted elements tail, hx => by
      obtain ⟨hElements, hTail⟩ := not_or.mp (mt List.mem_append.mpr hx)
      rw [subst, substAll_eq_flattenAll hElements, subst_eq_flatten hTail, flatten]
      -- What the tail has become decides how the sequence ends, however it came about.
      refine bind_congr fun elements => bind_congr fun tail => ?_
      cases tail <;> rfl

theorem substAll_eq_flattenAll {x : Name} {u : Ty} : ∀ {ts : List Ty}, x ∉ freeVarsAll ts →
    substAll ts x u = flattenAll ts
  | [], _ => rfl
  | t :: ts, hx => by
      obtain ⟨ht, hts⟩ := not_or.mp (mt List.mem_append.mpr hx)
      rw [substAll, subst_eq_flatten ht, substAll_eq_flattenAll hts, flattenAll]
      refine bind_congr fun t => ?_
      cases t <;> rfl

end

/-- Putting a type for a variable that does not occur flattens the type,
whatever the variable and the type put for it are. It changes nothing exactly if
the type is flat, and what comes out is flat and has no other variables. -/
theorem subst_absent {t : Ty} {x : Name} (hx : x ∉ t.freeVars) (u : Ty) :
    t.subst x u = t.flatten ∧ (t.subst x u = .ok t ↔ t.isFlat = true) ∧
      ∀ s, t.subst x u = .ok s → s.isFlat = true ∧ s.freeVars ⊆ t.freeVars := by
  rw [subst_eq_flatten hx]
  refine ⟨rfl, ⟨isFlat_of_flatten, flatten_of_isFlat⟩, fun s hs => ?_⟩
  exact ⟨isFlat_of_flatten hs, fun y => mem_freeVars_of_flatten hs⟩

-- It fails where a sequence with a tail stands before the end of a sequence.
example : (seq [dotted [] (var "xs" (.seq .data))]).subst "z" (con "int" .data) =
    .error (.unsupported "a dotted sequence spliced before the end of a sequence") := rfl

def nestedSequence : Ty := seq [seq [var "x" .data], var "y" .data]

theorem subst_absent_nestedSequence :
    nestedSequence.subst "z" (con "int" .data) = .ok (seq [var "x" .data, var "y" .data]) ∧
      nestedSequence.subst "z" (con "int" .data) ≠ .ok nestedSequence := by
  have hAbsent : "z" ∉ nestedSequence.freeVars := by decide
  obtain ⟨hFlattens, hKept, -⟩ := subst_absent hAbsent (con "int" .data)
  have hNested : nestedSequence.isFlat ≠ true := by decide
  exact ⟨hFlattens.trans rfl, fun h => hNested (hKept.mp h)⟩

end HindleyMilner.Sequence.Ty
