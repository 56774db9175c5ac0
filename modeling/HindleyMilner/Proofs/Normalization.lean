import HindleyMilner.Proofs.Model

/-! Normalizing a context: every definition is replaced by its expansion. The
context stays well-formed and has the same solutions. -/
namespace HindleyMilner

open Context

variable {L : Language}

/-- Normalizing declares the same variables, with the same kinds. -/
theorem declared_normalizeEntries (defined : List (Name × L.Ty)) (es : List (Entry L)) :
    declared (normalizeEntries defined es) = declared es := by
  fun_induction normalizeEntries defined es with
  | case1 => rfl
  | case2 defined x type kind es type' ih => rw [declared_cons, ih]; rfl
  | case3 defined e es _ ih => rw [declared_cons, declared_cons, ih]

theorem settled_normalizeEntries {defined : List (Name × L.Ty)} {es : List (Entry L)}
    (h : Settled es) : Settled (normalizeEntries defined es) := by
  fun_induction normalizeEntries defined es with
  | case1 => exact h
  | case2 defined x type kind es type' ih =>
      intro e he
      rcases List.mem_cons.mp he with rfl | he
      · rfl
      · exact ih (fun f hf => h f (List.mem_cons_of_mem _ hf)) e he
  | case3 defined e es _ ih =>
      intro f hf
      rcases List.mem_cons.mp hf with rfl | hf
      · exact h f List.mem_cons_self
      · exact ih (fun f hf => h f (List.mem_cons_of_mem _ hf)) f hf

variable [Rules L] [Sized L]

/-- Where the earlier definitions hold, expanding a definition by them
does not change whether it holds. So the entries have the same
solutions before and after. -/
theorem Model.satisfies_normalizeEntries (M : Model L) {θ : M.Valuation}
    {defined : List (Name × L.Ty)} {es : List (Entry L)}
    (hDefined : ∀ d ∈ defined, ∀ k, θ d.1 k = M.eval θ k d.2) :
    M.Satisfies θ (normalizeEntries defined es) ↔ M.Satisfies θ es := by
  fun_induction normalizeEntries defined es with
  | case1 => rfl
  | case2 defined x type kind es type' ih =>
      have hAssign : M.assign θ (fun y => defined.lookup y) = θ := by
        funext y k
        simp only [Reading.assign]
        cases hLookup : defined.lookup y with
        | some u => exact (hDefined _ (Name.mem_of_lookup hLookup) k).symm
        | none => rfl
      have hExpand : ∀ k, M.eval θ k type' = M.eval θ k type := by
        intro k
        rw [M.eval_subst, hAssign]
      rw [M.satisfies_cons, M.satisfies_cons]
      simp only [Reading.Holds, hExpand]
      refine and_congr_right fun hDefine => ih fun d hd => ?_
      rcases List.mem_cons.mp hd with rfl | hd
      · intro k
        rw [hExpand]
        exact hDefine k
      · exact hDefined d hd
  | case3 defined e es _ ih => rw [M.satisfies_cons, M.satisfies_cons, ih hDefined]

/-- A context has the same solutions before and after it is normalized. -/
theorem Model.satisfies_normalize (M : Model L) {θ : M.Valuation} {ctx : Context L} :
    M.Satisfies θ ctx.normalize.entries ↔ M.Satisfies θ ctx.entries :=
  M.satisfies_normalizeEntries fun _ hd => nomatch hd

/-- Normalizing keeps entries well-scoped. The definitions passed so far are typed where the next
entry stands, so a definition that is expanded by them uses variables that are declared before it.
-/
theorem Discipline.scoped_normalizeEntries [FreeVars L.Special] (D : Discipline L)
    {K : L.Telescope} {defined : List (Name × L.Ty)} {es : List (Entry L)}
    (hNodup : ((K ++ declared es).map Prod.fst).Nodup)
    (hDefined : ∀ d ∈ defined, d.1 ∈ K.map Prod.fst ∧
      ∀ j, (d.1, j) ∈ K → D.Ty K.Declares d.2 j)
    (h : D.Scoped K es) : D.Scoped K (normalizeEntries defined es) := by
  fun_induction normalizeEntries defined es generalizing K
  case case1 => exact h
  case case2 defined x type kind es type' ih =>
    rw [declared_cons, ← List.append_assoc] at hNodup
    have hNew : x ∉ K.map Prod.fst := by
      rw [List.map_append, List.nodup_append] at hNodup
      exact not_mem_of_nodup hNodup.1
    have hType : D.Ty K.Declares type' kind := by
      refine D.ty_subst (fun y j _ hy => ?_) h.1
      cases hLookup : defined.lookup y with
      | some u => exact .inl ⟨u, rfl, (hDefined _ (Name.mem_of_lookup hLookup)).2 j hy⟩
      | none => exact .inr ⟨rfl, hy⟩
    refine ⟨hType, ih hNodup (fun d hd => ?_) h.2⟩
    have hWeaken : ∀ {t : L.Ty} {j : L.Kind}, D.Ty K.Declares t j →
        D.Ty (Language.Telescope.Declares (K ++ [(x, kind)])) t j :=
      D.ty_mono fun _ _ _ hz => List.mem_append_left _ hz
    rcases List.mem_cons.mp hd with rfl | hd
    · refine ⟨by simp [Entry.declared], fun j hj => ?_⟩
      rcases List.mem_append.mp hj with hj | hj
      · exact absurd (List.mem_map_of_mem hj) hNew
      · cases List.mem_singleton.mp hj
        exact hWeaken hType
    · obtain ⟨hMem, hTyped⟩ := hDefined d hd
      refine ⟨?_, fun j hj => ?_⟩
      · rw [List.map_append]
        exact List.mem_append_left _ hMem
      · rcases List.mem_append.mp hj with hj | hj
        · exact hWeaken (hTyped j hj)
        · have hEq : d.1 = x := congrArg Prod.fst (List.mem_singleton.mp hj)
          exact absurd (hEq ▸ hMem) hNew
  case case3 defined e es hNotDefine ih =>
    rw [declared_cons, ← List.append_assoc] at hNodup
    refine ⟨h.1, ih hNodup (fun d hd => ?_) h.2⟩
    obtain ⟨hMem, hTyped⟩ := hDefined d hd
    refine ⟨?_, fun j hj => ?_⟩
    · rw [List.map_append]
      exact List.mem_append_left _ hMem
    · rw [List.map_append, List.map_append, List.nodup_append, List.nodup_append] at hNodup
      rcases List.mem_append.mp hj with hj | hj
      · exact D.ty_mono (fun _ _ _ hz => List.mem_append_left _ hz) (hTyped j hj)
      · exact absurd rfl (hNodup.1.2.2 d.1 hMem d.1 (List.mem_map_of_mem (f := Prod.fst) hj))

/-- Normalizing keeps a context well-formed: what a definition is expanded to is
made of variables that are declared before it. -/
theorem Discipline.wellFormed_normalize [FreeVars L.Special] {D : Discipline L} {ctx : Context L}
    (h : D.WellFormed ctx.entries) : D.WellFormed ctx.normalize.entries := by
  refine ⟨D.scoped_normalizeEntries ?_ (fun _ hd => nomatch hd) h.inScope, ?_⟩
  · exact h.nodup
  · change ((declared (normalizeEntries [] ctx.entries)).map Prod.fst).Nodup
    rw [declared_normalizeEntries]
    exact h.nodup

end HindleyMilner
