import HindleyMilner.Proofs.Model

/-! One state of the solver refining another: it is well-formed, the fixed entries
are where they were, names were only drawn, and whatever solves it solves the
other. Steps refine, so runs of the solver do. -/
namespace HindleyMilner

open Context

variable {L : Language} [Rules L] [Sized L] [FreeVars L.Special]

/-- A well-formed state whose supply gives out none of the variables in use. -/
structure Discipline.Good (D : Discipline L) (s : State L) : Prop where
  wellFormed : D.WellFormed s.context.entries
  drawn : ∀ p ∈ declared s.context.entries, ¬s.supply.Pending p.1

namespace Discipline.Good

variable {D : Discipline L}

/-- New entries may be put on top of a good state if they make sense there and
declare variables that have just been drawn. -/
theorem append {s : State L} (h : D.Good s) {supply : Supply} {es : List (Entry L)}
    (hAdvances : s.supply.Advances supply)
    (hScoped : D.Scoped (declared s.context.entries) es)
    (hNodup : ((declared es).map Prod.fst).Nodup)
    (hFresh : ∀ p ∈ declared es, s.supply.Pending p.1 ∧ ¬supply.Pending p.1) :
    D.Good ⟨supply, ⟨s.context.entries ++ es⟩⟩ := by
  refine ⟨⟨D.scoped_append.mpr ⟨h.wellFormed.inScope, hScoped⟩, ?_⟩, fun p hp => ?_⟩
  · rw [declared_append, List.map_append, List.nodup_append]
    refine ⟨h.wellFormed.nodup, hNodup, ?_⟩
    rintro x hx y hy rfl
    obtain ⟨p, hp, rfl⟩ := List.mem_map.mp hx
    obtain ⟨q, hq, hEq⟩ := List.mem_map.mp hy
    exact h.drawn p hp (hEq ▸ (hFresh q hq).1)
  · rcases List.mem_append.mp ((declared_append s.context.entries es) ▸ hp) with hp | hp
    · exact fun hPending => h.drawn p hp (hAdvances _ hPending)
    · exact (hFresh p hp).2

/-- Entries may be taken off the top of a good state. -/
theorem of_append {supply : Supply} {pre post : List (Entry L)}
    (h : D.Good ⟨supply, ⟨pre ++ post⟩⟩) : D.Good ⟨supply, ⟨pre⟩⟩ := by
  have hNodup := h.wellFormed.nodup
  rw [declared_append, List.map_append, List.nodup_append] at hNodup
  refine ⟨⟨(D.scoped_append.mp h.wellFormed.inScope).1, hNodup.1⟩, fun p hp => h.drawn p ?_⟩
  change p ∈ declared (pre ++ post)
  rw [declared_append]
  exact List.mem_append_left _ hp

/-- An entry that declares nothing may be taken out. -/
theorem remove {supply : Supply} {pre post : List (Entry L)} {e : Entry L}
    (he : e.isFixed = true) (h : D.Good ⟨supply, ⟨pre ++ e :: post⟩⟩) :
    D.Good ⟨supply, ⟨pre ++ post⟩⟩ := by
  have hDeclared : declared (pre ++ post) = declared (pre ++ e :: post) := by
    rw [declared_append, declared_append, declared_cons, declared_of_isFixed he, List.nil_append]
  have hScoped := D.scoped_append.mp h.wellFormed.inScope
  refine ⟨⟨D.scoped_append.mpr ⟨hScoped.1, ?_⟩, ?_⟩, fun p hp => h.drawn p ?_⟩
  · have hPost := hScoped.2.2
    rwa [declared_of_isFixed he, List.append_nil] at hPost
  · rw [hDeclared]
    exact h.wellFormed.nodup
  · exact hDeclared ▸ hp

/-- The scheme of a binding makes sense where all variables are declared. -/
theorem scheme {s : State L} (h : D.Good s) {x : Name} {scheme : L.Scheme}
    (hMem : (x, scheme) ∈ bindings s.context.entries) :
    D.Scheme (Language.Telescope.Declares (declared s.context.entries)) scheme := by
  obtain ⟨pre, post, hEntries⟩ := List.append_of_mem (mem_bindings.mp hMem)
  have hScoped := h.wellFormed.inScope
  rw [hEntries, D.scoped_append] at hScoped
  refine D.scheme_mono (fun y j hy => ?_) hScoped.2.1
  rw [hEntries, Language.Telescope.Declares, declared_append]
  exact List.mem_append_left _ hy

/-- A variable that is drawn may be introduced. -/
theorem push_var {s : State L} (h : D.Good s) :
    D.Good ⟨(s.supply.draw "t").2,
      ⟨s.context.entries ++ [.intro (s.draw "t").1 L.valueKind]⟩⟩ := by
  have hStem : "t" ∈ Supply.stems := by simp [Supply.stems]
  apply h.append (s.supply.advances_draw "t")
  · exact ⟨trivial, trivial⟩
  · simp [declared, Entry.declared]
  · intro p hp
    cases List.mem_singleton.mp hp
    exact ⟨Supply.pending_draw hStem s.supply, Supply.not_pending_draw hStem s.supply⟩

/-- An entry that declares nothing may be put on top if it makes sense there. -/
theorem push_fixed {s : State L} (h : D.Good s) {e : Entry L}
    (hDeclared : e.declared = []) (hEntry : D.Entry (declared s.context.entries) e) :
    D.Good (s.push e) := by
  apply h.append (.refl _)
  · exact ⟨hEntry, trivial⟩
  · rw [declared_cons, hDeclared]
    exact List.nodup_nil
  · intro p hp
    rw [declared_cons, hDeclared] at hp
    cases hp

end Discipline.Good

/-- The values of the declared variables settle what bound variables may be used
at, because schemes use declared and quantified variables only. -/
theorem Discipline.Good.uses_congr {D : Discipline L} {s : State L} (h : D.Good s) {M : Model L}
    (hCompatible : M.Compatible D) {θ θ' : M.Valuation}
    (hAgree : M.Agree (declared s.context.entries) θ θ') :
    M.uses θ (bindings s.context.entries) = M.uses θ' (bindings s.context.entries) := by
  apply List.map_congr_left
  intro b hb
  have hScheme := h.scheme hb
  refine Prod.ext rfl ?_
  funext v
  apply propext
  constructor
  · exact Model.denotes_congr hCompatible hScheme hAgree
  · exact Model.denotes_congr hCompatible hScheme hAgree.symm

structure Refines (D : Discipline L) (M : Model L) (s t : State L) : Prop where
  good : D.Good t
  toExtends : Extends s.context.entries t.context.entries
  advances : s.supply.Advances t.supply
  reflects : ∀ θ, M.Satisfies θ t.context.entries → M.Satisfies θ s.context.entries

variable {D : Discipline L} {M : Model L}

namespace Refines

theorem refl {s : State L} (h : D.Good s) : Refines D M s s :=
  ⟨h, .refl _, .refl _, fun _ hs => hs⟩

/-- Refinements can be taken one after another. Solutions are carried back from
the last state to the first. -/
theorem trans {s t u : State L} (h : Refines D M s t) (h' : Refines D M t u) :
    Refines D M s u :=
  ⟨h'.good, h.toExtends.trans h'.toExtends, h.advances.trans h'.advances,
    fun θ hu => h.reflects θ (h'.reflects θ hu)⟩

/-- Moves that draw no names refine: they keep the context well-formed and the
fixed entries in place, and lose no condition. -/
theorem of_moves {s t : State L} (h : D.Good s) (hSupply : t.supply = s.supply)
    (hMoves : Moves s.context.entries t.context.entries) : Refines D M s t where
  good := by
    refine ⟨hMoves.wellFormed D h.wellFormed, fun p hp => ?_⟩
    rw [hSupply]
    exact h.drawn p (hMoves.declared_perm.subset hp)
  toExtends := hMoves.toExtends
  advances := hSupply ▸ .refl _
  reflects _ ht := M.satisfies_of_moves hMoves ht

/-- Entries may be replaced by others that imply them and declare new variables.
The new variables have just been drawn, so that they differ from all in use, and
no fixed entry is touched. -/
theorem replace {supply supply' : Supply} {pre old new post : List (Entry L)}
    {fresh : L.Telescope} (hs : D.Good ⟨supply, ⟨pre ++ (old ++ post)⟩⟩)
    (hAdvances : supply.Advances supply') (hOld : fixed old = []) (hNew : fixed new = [])
    (hDeclared : (declared new).Perm (declared old ++ fresh))
    (hNodup : (fresh.map Prod.fst).Nodup)
    (hFresh : ∀ p ∈ fresh, supply.Pending p.1 ∧ ¬supply'.Pending p.1)
    (hScoped : D.Scoped (declared pre) new)
    (hReflects : ∀ θ, M.Satisfies θ new → M.Satisfies θ old) :
    Refines D M ⟨supply, ⟨pre ++ (old ++ post)⟩⟩ ⟨supply', ⟨pre ++ (new ++ post)⟩⟩ := by
  have hSubset : declared old ⊆ declared new := by
    exact List.Subset.trans (List.subset_append_left _ _) hDeclared.symm.subset
  have hAll : (declared (pre ++ (new ++ post))).Perm
      (declared (pre ++ (old ++ post)) ++ fresh) := by
    simp only [declared_append, List.append_assoc]
    apply List.Perm.append_left
    apply (hDeclared.append_right _).trans
    rw [List.append_assoc]
    exact List.perm_append_comm.append_left _
  refine ⟨⟨⟨D.scoped_replace hSubset (fun _ => hScoped) hs.wellFormed.inScope, ?_⟩, fun p hp => ?_⟩,
    (Extends.of_fixed_nil hOld hNew hSubset).middle pre post, hAdvances, fun θ hθ => ?_⟩
  · rw [(hAll.map Prod.fst).nodup_iff, List.map_append, List.nodup_append]
    refine ⟨hs.wellFormed.nodup, hNodup, ?_⟩
    rintro x hx y hy rfl
    obtain ⟨p, hp, rfl⟩ := List.mem_map.mp hx
    obtain ⟨q, hq, hEq⟩ := List.mem_map.mp hy
    exact hs.drawn p hp (hEq ▸ (hFresh q hq).1)
  · rcases List.mem_append.mp (hAll.subset hp) with hp | hp
    · exact fun hPending => hs.drawn p hp (hAdvances _ hPending)
    · exact (hFresh p hp).2
  · rw [M.satisfies_append, M.satisfies_append] at hθ ⊢
    exact ⟨hθ.1, hReflects θ hθ.2.1, hθ.2.2⟩

end Refines

omit [Rules L] [Sized L] [FreeVars L.Special] in
/-- A state that cannot take a step has no constraints. -/
theorem State.settled_of_not_canStep {s : State L} (h : ¬s.canStep = true) :
    Settled s.context.entries := by
  intro e he
  have hNone : ∀ e ∈ s.context.entries, e.isConstraint = false := by
    simpa [State.canStep, hasConstraint] using h
  exact hNone e he

omit [Sized L] [FreeVars L.Special] in
/-- A step is taken at the first constraint, if there is one. The context is
opened there, and no constraint stands below. -/
theorem State.step_eq_ok {s t : State L} (h : s.step = .ok t) :
    t = s ∨ ∃ (c : Constraint L) (f : Focus L), s = f.resume [.constraint c] ∧
      Settled f.below.reverse ∧ f.solve c = .ok t := by
  rw [State.step] at h
  cases hFocus : s.focus? with
  | none =>
      rw [hFocus] at h
      cases h
      exact .inl rfl
  | some found =>
      obtain ⟨c, f⟩ := found
      rw [hFocus] at h
      obtain ⟨hs, hBelow⟩ := State.eq_of_focus? hFocus
      exact .inr ⟨c, f, hs, hBelow, h⟩

omit [Sized L] [FreeVars L.Special] in
/-- A step of a state that has a constraint is taken at the first one. -/
theorem State.step_at {s t : State L} (hCan : s.canStep = true) (h : s.step = .ok t) :
    ∃ (c : Constraint L) (f : Focus L), s = f.resume [.constraint c] ∧
      Settled f.below.reverse ∧ f.solve c = .ok t := by
  rw [State.isSome_focus?] at hCan
  obtain ⟨⟨c, f⟩, hFocus⟩ := Option.isSome_iff_exists.mp hCan
  obtain ⟨hs, hBelow⟩ := State.eq_of_focus? hFocus
  rw [State.step, hFocus] at h
  exact ⟨c, f, hs, hBelow, h⟩

omit [Sized L] [FreeVars L.Special] in
/-- A step that fails does so at the first constraint. -/
theorem State.step_eq_error {s : State L} {e : TypeError} (h : s.step = .error e) :
    ∃ (c : Constraint L) (f : Focus L), s = f.resume [.constraint c] ∧
      Settled f.below.reverse ∧ f.solve c = .error e := by
  rw [State.step] at h
  cases hFocus : s.focus? with
  | none =>
      rw [hFocus] at h
      cases h
  | some found =>
      obtain ⟨c, f⟩ := found
      rw [hFocus] at h
      obtain ⟨hs, hBelow⟩ := State.eq_of_focus? hFocus
      exact ⟨c, f, hs, hBelow, h⟩

variable (D M) in
def StepsRefine : Prop := ∀ {s t : State L}, D.Good s → s.step = .ok t → Refines D M s t

/-- So does every run of the solver, which ends without constraints. -/
theorem StepsRefine.unify [Terminating L] (h : StepsRefine D M) {s t : State L} (hs : D.Good s)
    (hRun : s.unify = .ok t) : Refines D M s t ∧ Settled t.context.entries := by
  fun_induction State.unify s with
  | case1 s hCan u hStep ih =>
      have hRefines := h hs hStep
      obtain ⟨hRest, hSettled⟩ := ih hRefines.good hRun
      exact ⟨hRefines.trans hRest, hSettled⟩
  | case2 s hCan e hStep => cases hRun
  | case3 s hCan =>
      cases hRun
      exact ⟨.refl hs, State.settled_of_not_canStep hCan⟩

end HindleyMilner
