import HindleyMilner.Proofs.Model
import HindleyMilner.Proofs.Synthesis
import Mathlib.Data.List.Nodup

/-! Schemes: what their instances look like, and what generalization makes of the
variables above a marker. -/
namespace HindleyMilner

open Context

variable {L : Language} [Rules L] [Sized L] [FreeVars L.Special]

section

omit [Rules L] [Sized L] [FreeVars L.Special]

/-- What the quantified variables of a scheme are replaced by. -/
def Scheme.renaming (scheme : L.Scheme) (supply : Supply) : Assignment L.Ty :=
  .ofPairs ((scheme.quantified.zip (supply.drawMany "t" scheme.quantified.length).1).map
    fun ((old, kind), new) => (old, L.var new kind))

/-- The variables of an instance are drawn together, one for each
quantified variable. -/
theorem Scheme.names_instantiate (scheme : L.Scheme) (supply : Supply) :
    (scheme.instantiate supply "t" L.var).intros.map Prod.fst =
      (supply.drawMany "t" scheme.quantified.length).1 := by
  change List.map Prod.fst (List.map _ (List.zip _ _)) = _
  rw [List.map_map]
  apply List.map_snd_zip
  simp

/-- Variables that are not quantified stay as they are. -/
theorem Scheme.renaming_of_not_mem {scheme : L.Scheme} {supply : Supply} {x : Name}
    (h : x ∉ scheme.quantified.map Prod.fst) : scheme.renaming supply x = none := by
  apply Name.lookup_of_not_mem
  intro hMem
  rw [List.map_reverse, List.mem_reverse, List.map_map] at hMem
  obtain ⟨⟨⟨old, kind⟩, new⟩, hZip, rfl⟩ := List.mem_map.mp hMem
  exact h (List.mem_map_of_mem (List.of_mem_zip hZip).1)

/-- Every quantified variable is replaced by a new one of its kind. -/
theorem lookup_renamed {x : Name} {k : L.Kind} {renamed : List ((Name × L.Kind) × Name)}
    (h : (renamed.map Prod.fst).lookup x = some k) :
    ∃ new, ((x, k), new) ∈ renamed ∧
      (renamed.map fun ((old, kind), new) => (old, L.var new kind)).lookup x =
        some (L.var new k) := by
  induction renamed with
  | nil => cases h
  | cons q renamed ih =>
      obtain ⟨⟨old, kind⟩, new⟩ := q
      by_cases hx : x = old
      · subst hx
        rw [List.map_cons, List.lookup_cons_self] at h
        cases h
        exact ⟨new, List.mem_cons_self, List.lookup_cons_self⟩
      · have hBeq : (x == old) = false := beq_eq_false_iff_ne.mpr hx
        rw [List.map_cons, List.lookup_cons, hBeq] at h
        obtain ⟨new', hMem, hLookup⟩ := ih h
        refine ⟨new', List.mem_cons_of_mem _ hMem, ?_⟩
        rw [List.map_cons, List.lookup_cons, hBeq]
        exact hLookup

/-- A quantified variable with the name that is drawn for it. -/
def Scheme.Renames (scheme : L.Scheme) (supply : Supply) (x : Name) (k : L.Kind) (new : Name) :
    Prop :=
  ((x, k), new) ∈ scheme.quantified.zip (supply.drawMany "t" scheme.quantified.length).1

/-- What a quantified variable is renamed to is introduced by the instance,
with the same kind. -/
theorem Scheme.Renames.mem_intros {scheme : L.Scheme} {supply : Supply} {x new : Name}
    {k : L.Kind} (h : scheme.Renames supply x k new) :
    (new, k) ∈ (scheme.instantiate supply "t" L.var).intros :=
  List.mem_map.mpr ⟨_, h, rfl⟩

/-- Every name that is drawn stands for one variable. -/
theorem Scheme.Renames.inj {scheme : L.Scheme} {supply : Supply} {x y new : Name} {j k : L.Kind}
    (hx : scheme.Renames supply x j new) (hy : scheme.Renames supply y k new) : x = y := by
  have hNodup : ((scheme.quantified.zip (supply.drawMany "t" scheme.quantified.length).1).map
      Prod.snd).Nodup := by
    rw [List.map_snd_zip (by simp)]
    exact Supply.nodup_drawMany _ _
  have hSame := List.inj_on_of_nodup_map hNodup hx hy rfl
  exact congrArg (fun q => q.1.1) hSame

/-- The last quantifier of a name is the one that counts, and it is renamed to a
variable of its own kind. -/
theorem Scheme.renaming_of_lookup {scheme : L.Scheme} (supply : Supply) {x : Name} {k : L.Kind}
    (h : scheme.quantified.reverse.lookup x = some k) :
    ∃ new, scheme.Renames supply x k new ∧ scheme.renaming supply x = some (L.var new k) := by
  have hQuantified : (List.zip scheme.quantified
      (supply.drawMany "t" scheme.quantified.length).1).map Prod.fst = scheme.quantified := by
    apply List.map_fst_zip
    simp
  rw [← hQuantified, ← List.map_reverse] at h
  obtain ⟨new, hMem, hLookup⟩ := lookup_renamed h
  rw [List.map_reverse] at hLookup
  exact ⟨new, List.mem_reverse.mp hMem, hLookup⟩

end

section

omit [Sized L] [FreeVars L.Special]

omit [Rules L] in
theorem head_unwind (defs : List (Name × L.Ty)) (q : L.Qualified) :
    (unwind defs q).head = unwind defs q.head := by
  induction defs with
  | nil => rfl
  | cons d defs ih =>
      change subst (.single d.1 d.2) (unwind defs q).head = _
      rw [ih]
      rfl

/-- The scheme of a let quantifies the variables above the marker that
are not solved, and its type is that of the bound term without the
variables that are. -/
theorem generalize_eq_ok {ctx : Context L} {above : List (Entry L)} {type : L.Qualified}
    {made : Generalized L} (h : generalize ctx above type = .ok made) :
    made.scheme.quantified = unsolved above ∧
      made.scheme.body.head = unwind (definitions above) type.head := by
  rw [generalize] at h
  obtain ⟨split, -, h⟩ := bind_eq_ok.mp h
  cases h
  exact ⟨rfl, head_unwind _ _⟩

omit [Rules L] in
/-- What is unsolved is declared. -/
theorem unsolved_subset (es : List (Entry L)) : unsolved es ⊆ declared es := by
  intro p hp
  obtain ⟨e, he, hIntro⟩ := List.mem_filterMap.mp hp
  cases e with
  | intro x kind =>
      cases hIntro
      exact List.mem_flatMap.mpr ⟨_, he, List.mem_singleton.mpr rfl⟩
  | _ => cases hIntro

omit [Rules L] in
theorem unsolved_sublist (es : List (Entry L)) : (unsolved es).Sublist (declared es) := by
  induction es with
  | nil => exact .slnil
  | cons e es ih =>
      cases e with
      | intro x kind => exact ih.cons_cons _
      | define x type kind => exact ih.cons _
      | constraint c => exact ih.trans (List.sublist_append_right _ _)
      | _ => exact ih

end

variable {D : Discipline L}

/-- A type that makes sense above some entries makes sense, without the
variables that they define, with those that they leave unsolved. The induction
is from the first entry on, as the last definition is substituted first. -/
theorem Discipline.ty_unwind {K : L.Telescope} {es : List (Entry L)} {t : L.Ty} {k : L.Kind}
    (hSettled : Settled es) (hScoped : D.Scoped K es)
    (hNodup : ((K ++ declared es).map Prod.fst).Nodup)
    (h : D.Ty (Language.Telescope.Declares (K ++ declared es)) t k) :
    D.Ty (Language.Telescope.Declares (K ++ unsolved es)) (unwind (definitions es) t) k := by
  induction es generalizing K with
  | nil => exact h
  | cons e es ih =>
      have hHead := hSettled e List.mem_cons_self
      rw [declared_cons, ← List.append_assoc] at hNodup h
      have hRest := ih (fun f hf => hSettled f (List.mem_cons_of_mem _ hf)) hScoped.2 hNodup h
      cases e with
      | intro x kind =>
          rw [List.append_assoc] at hRest
          exact hRest
      | define x type kind =>
          change D.Ty _ (subst (.single x type) (unwind (definitions es) t)) k
          refine D.ty_subst (fun y j _ hy => ?_) hRest
          rw [Language.Telescope.Declares, List.mem_append, List.mem_append] at hy
          by_cases hEq : y = x
          · subst hEq
            refine .inl ⟨type, if_pos rfl, ?_⟩
            have hKind : j = kind := by
              rw [List.map_append, List.nodup_append] at hNodup
              rcases hy with (hy | hy) | hy
              · exact absurd (List.mem_map_of_mem hy) (not_mem_of_nodup hNodup.1)
              · exact congrArg Prod.snd (List.mem_singleton.mp hy)
              · exact absurd rfl (hNodup.2.2 y (by simp [Entry.declared]) y
                  (List.mem_map_of_mem (f := Prod.fst) (unsolved_subset es hy)))
            subst hKind
            exact D.ty_mono (fun _ _ _ hz => List.mem_append_left _ hz) hScoped.1
          · refine .inr ⟨if_neg hEq, ?_⟩
            rcases hy with (hy | hy) | hy
            · exact List.mem_append_left _ hy
            · exact absurd (congrArg Prod.fst (List.mem_singleton.mp hy)) hEq
            · exact List.mem_append_right _ hy
      | constraint c => cases hHead
      | _ =>
          rw [declared_of_isFixed rfl, List.append_nil] at hRest
          exact hRest

/-- The scheme that is made above a marker makes sense below it: its
variables are quantified if they were declared above the marker, and solved
ones are gone from it. -/
theorem Discipline.scheme_of_generalize {K : L.Telescope} {above : List (Entry L)}
    {ctx : Context L} {type : L.Qualified} {made : Generalized L} (hSettled : Settled above)
    (hScoped : D.Scoped K above) (hNodup : ((K ++ declared above).map Prod.fst).Nodup)
    (hType : D.Ty (Language.Telescope.Declares (K ++ declared above)) type.head L.valueKind)
    (h : generalize ctx above type = .ok made) : D.Scheme K.Declares made.scheme := by
  obtain ⟨hQuantified, hHead⟩ := generalize_eq_ok h
  rw [Sorting.Scheme, hHead]
  refine D.ty_mono (fun x j _ hx => ?_) (D.ty_unwind hSettled hScoped hNodup hType)
  rw [List.map_append, List.nodup_append] at hNodup
  have hNames := ((unsolved_sublist above).map Prod.fst).nodup hNodup.2.1
  rw [Scheme.Within, hQuantified]
  rcases List.mem_append.mp hx with hx | hx
  · refine .inr ⟨fun hMem => ?_, hx⟩
    obtain ⟨p, hp, hEq⟩ := List.mem_map.mp hMem
    exact hNodup.2.2 x (List.mem_map_of_mem (f := Prod.fst) hx) p.1
      (List.mem_map_of_mem (unsolved_subset above hp)) hEq.symm
  · refine .inl (Name.lookup_of_nodup ?_ (List.mem_reverse.mpr hx))
    rw [List.map_reverse]
    exact (List.reverse_perm _).nodup_iff.mpr hNames

/-- A solution of the entries below a marker extends to those above
it: unsolved variables may have any values, and defined ones have
those of their definitions. -/
theorem Model.satisfies_above (M : Model L) {pre post : List (Entry L)} {θ : M.Valuation}
    (hWellFormed : D.WellFormed (pre ++ .marker :: post))
    (hSettled : Settled (pre ++ .marker :: post)) (hθ : M.Satisfies θ pre) :
    M.Satisfies (M.extend θ (definitions post)) (pre ++ .marker :: post) ∧
      ∀ p ∈ declared pre, M.extend θ (definitions post) p.1 = θ p.1 := by
  obtain ⟨hPre, hMarker⟩ := D.scoped_append.mp hWellFormed.inScope
  have hPost := hMarker.2
  have hNodup := hWellFormed.nodup
  rw [declared_append] at hNodup
  rw [settled_append] at hSettled
  have hAgree : ∀ p ∈ declared pre, M.extend θ (definitions post) p.1 = θ p.1 := by
    intro p hp
    apply M.extend_of_not_mem
    intro hMem
    rw [List.map_append, List.nodup_append] at hNodup
    exact hNodup.2.2 p.1 (List.mem_map_of_mem hp) p.1 (mem_declared_of_definitions hMem) rfl
  refine ⟨M.satisfies_append.mpr ⟨?_, M.satisfies_cons.mpr ⟨trivial, ?_⟩⟩, hAgree⟩
  · exact M.satisfies_congr D hSettled.1 hPre (fun p hp => (hAgree p hp).symm) hθ
  · apply M.satisfies_extend D θ (fun e he => hSettled.2 e (List.mem_cons_of_mem _ he)) hPost
    rw [List.nil_append, List.append_assoc]
    exact hNodup

end HindleyMilner
