import HindleyMilner.Proofs.Sequence.Flattening
import Mathlib.Algebra.Group.Nat.Defs

/-! Putting types for several variables of a run, one after the other. A run that is put for a
variable makes one type of each of its elements, so runs for several variables give every
combination of their elements, and single types give one type whatever the order is. -/
namespace HindleyMilner.Sequence

namespace Ty

inductive RunFree : Ty → Prop where
  | var (x : Name) (k : Kind) : RunFree (var x k)
  | con (c : Name) (k : Kind) : RunFree (con c k)
  | app {f a : Ty} (hFunction : RunFree f) (hArgument : RunFree a) : RunFree (app f a)

/-- Whether no sequence occurs in a type is found node by node. -/
def decideRunFree : (t : Ty) → Decidable t.RunFree
  | var x k => isTrue (.var x k)
  | con c k => isTrue (.con c k)
  | app f a =>
      match decideRunFree f, decideRunFree a with
      | isTrue hf, isTrue ha => isTrue (.app hf ha)
      | isFalse hf, _ => isFalse fun | .app h _ => hf h
      | _, isFalse ha => isFalse fun | .app _ h => ha h
  | seq _ => isFalse nofun
  | dotted .. => isFalse nofun

instance : DecidablePred RunFree := decideRunFree

/-- Replace all assigned variables at once, in a type without sequences. -/
def replace (σ : Assignment Ty) : Ty → Ty
  | var x k => (σ x).getD (var x k)
  | con c k => con c k
  | app f a => app (f.replace σ) (a.replace σ)
  | seq elements => seq elements
  | dotted elements tail => dotted elements tail

def put (t : Ty) (x : Name) (u : Ty) : Ty := t.replace (.single x u)

/-- A run of functions is applied function by function. -/
theorem spread_seq_left (fs : List Ty) {a : Ty} (ha : a.isSeq = false) :
    spread (seq fs) a = .ok (seq (fs.map fun f => app f a)) := by
  cases a with
  | seq as => cases ha
  | _ => rfl

/-- A function is applied to each element of a run. -/
theorem spread_seq_right {f : Ty} (as : List Ty) (hf : f.isSeq = false) :
    spread f (seq as) = .ok (seq (as.map fun a => app f a)) := by
  cases f with
  | seq fs => cases hf
  | _ => rfl

namespace RunFree

variable {t u : Ty} {x : Name}

theorem isRun_eq_false (h : t.RunFree) : t.isRun = false := by
  cases h <;> rfl

theorem isSeq_eq_false (h : t.RunFree) : t.isSeq = false := not_isSeq_of_not_isRun h.isRun_eq_false

theorem parts_eq (h : t.RunFree) : t.parts = [t] := parts_of_not_isSeq h.isSeq_eq_false

/-- There is nothing to flatten where there are no sequences. -/
theorem isFlat (h : t.RunFree) : t.isFlat = true := by
  induction h with
  | var x k => rfl
  | con c k => rfl
  | app hf ha ihf iha =>
      exact isFlat_app_iff.mpr ⟨⟨ihf, hf.isSeq_eq_false⟩, iha, ha.isSeq_eq_false⟩

/-- Types without sequences stay so when such types are put for their variables. -/
theorem replace {σ : Assignment Ty} (h : t.RunFree) (hσ : ∀ x v, σ x = some v → v.RunFree) :
    (t.replace σ).RunFree := by
  induction h with
  | var x k =>
      rw [Ty.replace]
      cases hx : σ x with
      | none => exact .var x k
      | some v => exact hσ x v hx
  | con c k => exact .con c k
  | app hf ha ihf iha => exact .app ihf iha

theorem put (h : t.RunFree) (hu : u.RunFree) : (t.put x u).RunFree := by
  refine h.replace fun y v hv => ?_
  rw [Assignment.single] at hv
  split at hv
  · cases hv
    exact hu
  · cases hv

/-- What a replacement makes of a type depends on the variables that occur. -/
theorem replace_congr {σ σ' : Assignment Ty} (h : t.RunFree)
    (hAgree : ∀ x ∈ t.freeVars, σ x = σ' x) : t.replace σ = t.replace σ' := by
  induction h with
  | var x k => rw [Ty.replace, Ty.replace, hAgree x List.mem_cons_self]
  | con c k => rfl
  | app hf ha ihf iha =>
      rw [Ty.replace, Ty.replace, ihf fun x hx => hAgree x (List.mem_append_left _ hx),
        iha fun x hx => hAgree x (List.mem_append_right _ hx)]

theorem replace_eq_self {σ : Assignment Ty} (h : t.RunFree) (hNone : ∀ x ∈ t.freeVars, σ x = none) :
    t.replace σ = t := by
  induction h with
  | var x k => rw [Ty.replace, hNone x List.mem_cons_self, Option.getD_none]
  | con c k => rfl
  | app hf ha ihf iha =>
      rw [Ty.replace, ihf fun x hx => hNone x (List.mem_append_left _ hx),
        iha fun x hx => hNone x (List.mem_append_right _ hx)]

/-- A variable that does not occur can be replaced by anything. -/
theorem put_of_not_mem (h : t.RunFree) (hx : x ∉ t.freeVars) : t.put x u = t := by
  refine h.replace_eq_self fun y hy => if_neg fun hEq => hx ?_
  exact hEq ▸ hy

/-- Replacing one variable first changes nothing, if it is replaced by
what it is assigned. -/
theorem replace_put {σ : Assignment Ty} (h : t.RunFree) (hx : σ x = some (u.replace σ)) :
    (t.put x u).replace σ = t.replace σ := by
  induction h with
  | var y k =>
      rw [Ty.put, Ty.replace, Assignment.single]
      by_cases hEq : y = x
      · rw [if_pos hEq, Option.getD_some, Ty.replace, hEq, hx, Option.getD_some]
      · rw [if_neg hEq]
        rfl
  | con c k => rfl
  | app hf ha ihf iha =>
      rw [Ty.put] at ihf iha
      rw [Ty.put, Ty.replace, Ty.replace, ihf, iha, Ty.replace]

/-- The variables of the result are the others of the type, and those of what
was put in if it was put in at all. -/
theorem mem_freeVars_put {y : Name} (h : t.RunFree) :
    y ∈ (t.put x u).freeVars ↔ (y ∈ t.freeVars ∧ y ≠ x) ∨ (x ∈ t.freeVars ∧ y ∈ u.freeVars) := by
  induction h with
  | var z k =>
      rw [Ty.put, Ty.replace, Assignment.single]
      by_cases hz : z = x
      · simp [hz, freeVars]
      · have hNe : x ≠ z := Ne.symm hz
        simp only [hz, if_false, Option.getD_none, freeVars, List.mem_singleton, hNe, false_and,
          or_false]
        exact ⟨fun hy => ⟨hy, hy ▸ hz⟩, And.left⟩
  | con c k => simp [Ty.put, Ty.replace, freeVars]
  | app hf ha ihf iha =>
      rw [Ty.put] at ihf iha
      simp only [Ty.put, Ty.replace, freeVars, List.mem_append, ihf, iha]
      grind

/-- Where neither type has a sequence, substituting is replacing and cannot fail. -/
theorem subst_eq_put (h : t.RunFree) (hu : u.RunFree) : t.subst x u = .ok (t.put x u) := by
  induction h with
  | var y k =>
      rw [subst, Ty.put, Ty.replace, Assignment.single]
      split <;> rfl
  | con c k => rfl
  | app hf ha ihf iha =>
      rw [subst, ihf, iha]
      exact spread_of_not_isSeq (hf.put hu).isSeq_eq_false (ha.put hu).isSeq_eq_false

/-- Nor does it do anything where the variable does not occur,
whatever is put for it. -/
theorem subst_of_not_mem (h : t.RunFree) (hx : x ∉ t.freeVars) : t.subst x u = .ok t := by
  rw [subst_eq_flatten hx, flatten_of_isFlat h.isFlat]

/-- A run that is put for a variable spreads over the whole type, however often
the variable occurs. -/
theorem subst_seq (h : t.RunFree) (hx : x ∈ t.freeVars) (us : List Ty) :
    t.subst x (seq us) = .ok (seq (us.map fun u => t.put x u)) := by
  induction h with
  | var y k =>
      have hEq : y = x := (List.mem_singleton.mp hx).symm
      simp [subst, Ty.put, Ty.replace, Assignment.single, hEq]
  | con c k => cases hx
  | @app f a hf ha ihf iha =>
      have hApp : (fun u => (Ty.app f a).put x u) = fun u => Ty.app (f.put x u) (a.put x u) := rfl
      rw [subst, hApp]
      by_cases hxf : x ∈ f.freeVars
      · by_cases hxa : x ∈ a.freeVars
        · rw [ihf hxf, iha hxa]
          show spread (seq _) (seq _) = _
          rw [spread, if_pos (by rw [List.length_map, List.length_map]), List.zipWith_map,
            List.zipWith_self]
        · rw [ihf hxf, ha.subst_of_not_mem hxa]
          show spread (seq _) a = _
          simp only [spread_seq_left _ ha.isSeq_eq_false, List.map_map, ha.put_of_not_mem hxa]
          rfl
      · have hxa : x ∈ a.freeVars := (List.mem_append.mp hx).resolve_left hxf
        rw [hf.subst_of_not_mem hxf, iha hxa]
        show spread f (seq _) = _
        simp only [spread_seq_right _ hf.isSeq_eq_false, List.map_map, hf.put_of_not_mem hxf]
        rfl

end RunFree

/-- A type without sequences, or a run of such types. -/
inductive Replacement : Ty → Prop where
  | one {u : Ty} (h : u.RunFree) : Replacement u
  | run {us : List Ty} (h : ∀ u ∈ us, u.RunFree) : Replacement (seq us)

/-- The parts of what may be put for a variable are without sequences. -/
theorem Replacement.runFree {u v : Ty} (h : u.Replacement) (hv : v ∈ u.parts) : v.RunFree := by
  cases h with
  | one h =>
      rw [h.parts_eq, List.mem_singleton] at hv
      exact hv ▸ h
  | run h => exact h v hv

/-- The types that an element of a run gives way to when a type is
put for a variable. -/
def grown (x : Name) (u t : Ty) : List Ty :=
  if x ∈ t.freeVars then u.parts.map fun v => t.put x v else [t]

theorem grown_of_not_mem {x : Name} {u t : Ty} (hx : x ∉ t.freeVars) : grown x u t = [t] :=
  if_neg hx

theorem grown_of_mem {x : Name} {u t : Ty} (hx : x ∈ t.freeVars) :
    grown x u t = u.parts.map fun v => t.put x v := if_pos hx

/-- What an element gives way to is without sequences again, so that the next
substitution can be made. -/
theorem runFree_of_mem_grown {x : Name} {u t s : Ty} (ht : t.RunFree) (hu : u.Replacement)
    (hs : s ∈ grown x u t) : s.RunFree := by
  rw [grown] at hs
  split at hs
  · obtain ⟨v, hv, rfl⟩ := List.mem_map.mp hs
    exact ht.put (hu.runFree hv)
  · rw [List.mem_singleton.mp hs]
    exact ht

theorem substAll_cons (t : Ty) (ts : List Ty) (x : Name) (u : Ty) :
    substAll (t :: ts) x u = (do
      let first ← t.subst x u >>= joined
      let rest ← substAll ts x u
      .ok (first ++ rest)) := by
  rw [substAll, bind_assoc]
  refine bind_congr fun t => ?_
  cases t <;> rfl

/-- The elements and the tail of a sequence are substituted one by one, and the
tail is put back at the end. -/
theorem subst_dotted (ts : List Ty) (tail : Ty) (x : Name) (u : Ty) :
    (dotted ts tail).subst x u = (do
      let elements ← substAll ts x u
      let tail ← tail.subst x u
      .ok (closedBy elements tail)) := by
  rw [subst]
  refine bind_congr fun elements => bind_congr fun tail => ?_
  cases tail <;> rfl

/-- An element in which a type is put for a variable gives way to one type for
each part of what is put in. -/
theorem RunFree.joined_subst {t u : Ty} {x : Name} (ht : t.RunFree) (hu : u.Replacement) :
    (t.subst x u >>= joined) = .ok (grown x u t) := by
  by_cases hx : x ∈ t.freeVars
  · rw [grown_of_mem hx]
    cases hu with
    | one hu =>
        rw [ht.subst_eq_put hu, hu.parts_eq]
        exact joined_of_not_isRun (ht.put hu).isRun_eq_false
    | run hu =>
        rw [ht.subst_seq hx]
        rfl
  · rw [ht.subst_of_not_mem hx, grown_of_not_mem hx]
    exact joined_of_not_isRun ht.isRun_eq_false

/-- By induction on the run, substituting in a run replaces each element
by what it gives way to. Nothing fails, as there is no sequence with a
tail to be spliced in. -/
theorem substAll_eq_flatMap {ts : List Ty} {x : Name} {u : Ty} (hts : ∀ t ∈ ts, t.RunFree)
    (hu : u.Replacement) : substAll ts x u = .ok (ts.flatMap (grown x u)) := by
  induction ts with
  | nil => rfl
  | cons t ts ih =>
      obtain ⟨ht, hts⟩ := List.forall_mem_cons.mp hts
      rw [substAll_cons, ht.joined_subst hu, ih hts, List.flatMap_cons]
      rfl

/-- Put several types for variables, one after the other. -/
def substEach (t : Ty) (order : List (Name × Ty)) : Except TypeError Ty :=
  order.foldlM (fun t b => t.subst b.1 b.2) t

/-- The types that a run gives way to when several types are put for variables,
one after the other. -/
def expand (order : List (Name × Ty)) (ts : List Ty) : List Ty :=
  order.foldl (fun ts b => ts.flatMap (grown b.1 b.2)) ts

@[simp]
theorem expand_nil (ts : List Ty) : expand [] ts = ts := rfl

@[simp]
theorem expand_cons (b : Name × Ty) (order : List (Name × Ty)) (ts : List Ty) :
    expand (b :: order) ts = expand order (ts.flatMap (grown b.1 b.2)) := rfl

/-- Every element is expanded by itself. -/
theorem expand_eq_flatMap (order : List (Name × Ty)) (ts : List Ty) :
    expand order ts = ts.flatMap fun t => expand order [t] := by
  induction order generalizing ts with
  | nil => simp
  | cons b order ih =>
      have hEach : ∀ t, expand (b :: order) [t] =
          (grown b.1 b.2 t).flatMap fun s => expand order [s] := fun t => by
        rw [expand_cons, ih, List.flatMap_singleton]
      simp only [hEach]
      rw [expand_cons, ih, List.flatMap_assoc]

/-- Two runs next to each other are expanded independently. -/
theorem expand_append (order : List (Name × Ty)) (ts us : List Ty) :
    expand order (ts ++ us) = expand order ts ++ expand order us := by
  rw [expand_eq_flatMap, List.flatMap_append, ← expand_eq_flatMap, ← expand_eq_flatMap]

/-- A sequence without a tail is expanded. -/
theorem substEach_seq {order : List (Name × Ty)} {ts : List Ty} (hts : ∀ t ∈ ts, t.RunFree)
    (hOrder : ∀ b ∈ order, b.2.Replacement) :
    (seq ts).substEach order = .ok (seq (expand order ts)) := by
  induction order generalizing ts with
  | nil => rfl
  | cons b order ih =>
      obtain ⟨hb, hOrder⟩ := List.forall_mem_cons.mp hOrder
      rw [substEach, List.foldlM_cons, subst, substAll_eq_flatMap hts hb]
      refine ih (fun s hs => ?_) hOrder
      obtain ⟨t, ht, hs⟩ := List.mem_flatMap.mp hs
      exact runFree_of_mem_grown (hts t ht) hb hs

/-- A tail for whose variables runs are put is expanded as if it were the last
element. Until the first of these runs comes it stays a tail, and from then on
there is a sequence without one. -/
theorem substEach_dotted {order : List (Name × Ty)} {ts : List Ty} {tail : Ty}
    (hts : ∀ t ∈ ts, t.RunFree) (hTail : tail.RunFree) (hOrder : ∀ b ∈ order, b.2.Replacement)
    (hRuns : ∀ b ∈ order, b.1 ∈ tail.freeVars → b.2.isSeq = true)
    (hReached : ∃ b ∈ order, b.1 ∈ tail.freeVars) :
    (dotted ts tail).substEach order = .ok (seq (expand order (ts ++ [tail]))) := by
  induction order generalizing ts with
  | nil =>
      obtain ⟨b, hb, -⟩ := hReached
      cases hb
  | cons b order ih =>
      obtain ⟨hb, hRest⟩ := List.forall_mem_cons.mp hOrder
      have hGrown : ∀ s ∈ ts.flatMap (grown b.1 b.2), s.RunFree := by
        intro s hs
        obtain ⟨t, ht, hs⟩ := List.mem_flatMap.mp hs
        exact runFree_of_mem_grown (hts t ht) hb hs
      rw [substEach, List.foldlM_cons, subst_dotted, substAll_eq_flatMap hts hb, expand_cons,
        List.flatMap_append, List.flatMap_singleton]
      by_cases hx : b.1 ∈ tail.freeVars
      · -- The run closes the sequence, and the rest is substitution in a run.
        obtain ⟨x, u⟩ := b
        cases hb with
        | one hu => exact absurd (hRuns _ List.mem_cons_self hx) (by simp [hu.isSeq_eq_false])
        | run hu =>
            rw [hTail.subst_seq hx, grown_of_mem hx]
            refine substEach_seq (fun s hs => ?_) hRest
            rcases List.mem_append.mp hs with hs | hs
            · exact hGrown s hs
            · obtain ⟨v, hv, rfl⟩ := List.mem_map.mp hs
              exact hTail.put (hu v hv)
      · rw [hTail.subst_of_not_mem hx, grown_of_not_mem hx]
        show ((Except.ok (closedBy _ tail) : Except TypeError Ty) >>= _) = _
        rw [closedBy_of_not_isRun hTail.isRun_eq_false]
        refine ih hGrown hRest (fun c hc => hRuns c (List.mem_cons_of_mem _ hc)) ?_
        obtain ⟨c, hc, hcx⟩ := hReached
        rcases List.mem_cons.mp hc with rfl | hc
        · exact absurd hcx hx
        · exact ⟨c, hc, hcx⟩

section Apart

variable {order : List (Name × Ty)}

/-- No type that is put for a variable has a variable for which a type is put. -/
def Apart (order : List (Name × Ty)) : Prop :=
  ∀ b ∈ order, ∀ v ∈ b.2.parts, ∀ c ∈ order, c.1 ∉ v.freeVars

/-- The types that are still to be put for variables remain apart from them. -/
theorem Apart.tail {b : Name × Ty} (h : Apart (b :: order)) : Apart order := by
  intro c hc v hv d hd
  exact h c (List.mem_cons_of_mem _ hc) v hv d (List.mem_cons_of_mem _ hd)

/-- Putting a part for a variable leaves the other variables for
which types are put. -/
theorem Apart.mem_freeVars_put {b c : Name × Ty} {t v : Ty} (h : Apart (b :: order))
    (ht : t.RunFree) (hv : v ∈ b.2.parts) (hc : c ∈ order) :
    c.1 ∈ (t.put b.1 v).freeVars ↔ c.1 ∈ t.freeVars ∧ c.1 ≠ b.1 := by
  have hApart : c.1 ∉ v.freeVars := h b List.mem_cons_self v hv c (List.mem_cons_of_mem _ hc)
  rw [ht.mem_freeVars_put]
  simp [hApart]

/-- A run without the variables in question is not changed. -/
theorem expand_of_absent {ts : List Ty} (h : ∀ b ∈ order, ∀ t ∈ ts, b.1 ∉ t.freeVars) :
    expand order ts = ts := by
  induction order with
  | nil => rfl
  | cons b order ih =>
      obtain ⟨hb, hOrder⟩ := List.forall_mem_cons.mp h
      rw [expand_cons, List.flatMap_def, List.map_congr_left fun t ht => grown_of_not_mem (hb t ht),
        ← List.flatMap_def, List.flatMap_singleton', ih hOrder]

/-- A type for whose variables single types are put becomes one type,
whatever the order, as no type that is put in brings back a variable that is
still to be replaced. -/
theorem expand_of_single {σ : Assignment Ty} {t : Ty} (ht : t.RunFree)
    (hOrder : ∀ b ∈ order, b.2.Replacement) (hApart : Apart order)
    (hSingle : ∀ b ∈ order, b.1 ∈ t.freeVars → ∃ v, b.2.parts = [v] ∧ σ b.1 = some v ∧
      ∀ x ∈ v.freeVars, σ x = none)
    (hBound : ∀ x ∈ t.freeVars, (∀ b ∈ order, b.1 ≠ x) → σ x = none) :
    expand order [t] = [t.replace σ] := by
  induction order generalizing t with
  | nil => rw [expand_nil, ht.replace_eq_self fun x hx => hBound x hx (List.forall_mem_nil _)]
  | cons b order ih =>
      obtain ⟨hb, hRest⟩ := List.forall_mem_cons.mp hOrder
      rw [expand_cons, List.flatMap_singleton]
      by_cases hx : b.1 ∈ t.freeVars
      · obtain ⟨v, hParts, hσ, hClosed⟩ := hSingle b List.mem_cons_self hx
        have hMem : v ∈ b.2.parts := hParts ▸ List.mem_cons_self
        have hv : v.RunFree := hb.runFree hMem
        rw [grown_of_mem hx, hParts, List.map_singleton, ih (ht.put hv) hRest hApart.tail,
          ht.replace_put (hσ.trans (congrArg some (hv.replace_eq_self hClosed).symm))]
        · intro c hc hcx
          exact hSingle c (List.mem_cons_of_mem _ hc)
            ((hApart.mem_freeVars_put ht hMem hc).mp hcx).1
        · intro y hy hNone
          rcases ht.mem_freeVars_put.mp hy with ⟨hy, hNe⟩ | ⟨-, hy⟩
          · exact hBound y hy (List.forall_mem_cons.mpr ⟨Ne.symm hNe, hNone⟩)
          · exact hClosed y hy
      · rw [grown_of_not_mem hx, ih ht hRest hApart.tail
          (fun c hc => hSingle c (List.mem_cons_of_mem _ hc))]
        intro y hy hNone
        exact hBound y hy (List.forall_mem_cons.mpr ⟨fun hEq => hx (hEq ▸ hy), hNone⟩)

/-- Runs of one length multiply: a type becomes as many as there are ways to
choose an element for each of its variables. -/
theorem length_expand {n : Nat} {t : Ty} (ht : t.RunFree) (hOrder : ∀ b ∈ order, b.2.Replacement)
    (hApart : Apart order) (hNames : (order.map Prod.fst).Nodup)
    (hLength : ∀ b ∈ order, b.1 ∈ t.freeVars → b.2.parts.length = n) :
    (expand order [t]).length = n ^ order.countP fun b => b.1 ∈ t.freeVars := by
  induction order generalizing t with
  | nil => rfl
  | cons b order ih =>
      obtain ⟨hb, hRest⟩ := List.forall_mem_cons.mp hOrder
      obtain ⟨hNew, hNames⟩ := List.nodup_cons.mp hNames
      rw [expand_cons, List.flatMap_singleton, List.countP_cons]
      by_cases hx : b.1 ∈ t.freeVars
      · have hEach : ∀ v ∈ b.2.parts, (expand order [t.put b.1 v]).length =
            n ^ order.countP fun c => c.1 ∈ t.freeVars := by
          intro v hv
          have hMem : ∀ c ∈ order, c.1 ∈ (t.put b.1 v).freeVars ↔ c.1 ∈ t.freeVars := by
            intro c hc
            rw [hApart.mem_freeVars_put ht hv hc]
            refine and_iff_left fun hEq => hNew (hEq ▸ ?_)
            exact List.mem_map_of_mem hc
          rw [ih (ht.put (hb.runFree hv)) hRest hApart.tail hNames]
          · congr 1
            exact List.countP_congr fun c hc => by simp [hMem c hc]
          · intro c hc hcx
            exact hLength c (List.mem_cons_of_mem _ hc) ((hMem c hc).mp hcx)
        rw [grown_of_mem hx, expand_eq_flatMap, List.flatMap_map, List.length_flatMap,
          List.map_congr_left hEach, List.map_const', List.sum_replicate_nat,
          hLength b List.mem_cons_self hx]
        simp [hx, Nat.pow_succ, Nat.mul_comm]
      · rw [grown_of_not_mem hx, ih ht hRest hApart.tail hNames
          (fun c hc => hLength c (List.mem_cons_of_mem _ hc))]
        simp [hx]

/-- A type with a single variable becomes the run of what each element makes of
it. The other types that are put in concern variables that it does not have. -/
theorem expand_of_one {t u : Ty} {x : Name} (ht : t.RunFree) (hx : x ∈ t.freeVars)
    (hOnly : ∀ y ∈ t.freeVars, y = x) (hApart : Apart order)
    (hNames : (order.map Prod.fst).Nodup) (hMem : (x, u) ∈ order) :
    expand order [t] = u.parts.map fun v => t.put x v := by
  induction order with
  | nil => cases hMem
  | cons b order ih =>
      obtain ⟨hNew, hNames⟩ := List.nodup_cons.mp hNames
      rw [expand_cons, List.flatMap_singleton]
      rcases List.mem_cons.mp hMem with rfl | hMem
      · rw [grown_of_mem hx]
        apply expand_of_absent
        intro c hc s hs
        obtain ⟨v, hv, rfl⟩ := List.mem_map.mp hs
        rw [hApart.mem_freeVars_put ht hv hc]
        exact fun ⟨hcx, hNe⟩ => hNe (hOnly c.1 hcx)
      · have hb : b.1 ∉ t.freeVars := by
          intro hb
          rw [hOnly b.1 hb] at hNew
          exact hNew (List.mem_map_of_mem hMem)
        rw [grown_of_not_mem hb, ih hApart.tail hNames hMem]

end Apart

end Ty

end HindleyMilner.Sequence
