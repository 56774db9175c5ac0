import HindleyMilner.Proofs.Classes.Clash
import HindleyMilner.Proofs.Evaluation

/-! Kinds of what is inferred. Applications of constructors are taken apart without a
look at the kinds of their parts, and of two variables that are equated one is defined
by the other whatever their kinds. Otherwise kinds are kept, so they are where no two
variables of different kinds are ever equated. -/
namespace HindleyMilner.Classes

open Context

/-- A well-formed state in which variables carry the kinds they are
declared with, definitions have the kinds of their variables, and types of
one kind are equated. -/
structure WellKinded (σ : Signature) (s : ClassState) : Prop where
  wellFormed : s.WellFormed
  annotated : ∀ e ∈ s.context.entries, labelling.Entry (declared s.context.entries) e
  define : ∀ x type kind, .define x type kind ∈ s.context.entries → HasKind σ type kind
  equation : ∀ p ∈ equations s.context.entries, Agrees σ p

namespace WellKinded

variable {σ : Signature} {s : ClassState} (h : WellKinded σ s)

include h

/-- A state in which all is ready for kinds is good for the discipline that
variables carry their kinds. -/
theorem good : labelling.Good s := h.wellFormed.good_of_entries h.annotated

/-- Without constraints there is nothing left to agree in kinds. -/
theorem hasKinds : HasKinds σ s where
  wellFormed := h.good.wellFormed
  define := h.define
  equation p hp := (h.equation p hp).kinded

end WellKinded

/-- A definition has the kind of its variable, and a scheme is one of data types. -/
def EntryKinds (σ : Signature) : Entry language → Prop
  | .define _ type kind => HasKind σ type kind
  | .bind _ scheme => HasKind σ scheme.body.head .data
  | _ => True

structure KindReady (σ : Signature) (s : ClassState) : Prop where
  good : labelling.Good s
  settled : Settled s.context.entries
  entries : ∀ e ∈ s.context.entries, EntryKinds σ e

namespace KindReady

variable {σ : Signature} {s : ClassState} (h : KindReady σ s)

include h

/-- Synthesis keeps the labels of variables. -/
theorem sound {e : Term} {r : Synthesis language} (hRun : Synthesizes State.unify e s r) :
    Sound labelling (Model.onePoint language) e s r :=
  hRun.sound (Model.compatible_onePoint (L := language) _)
    (fun hGood hSolve => stepsRefine_labelling.unify hGood hSolve) h.good h.settled

theorem marker : KindReady σ (s.push .marker) where
  good := h.good.push_marker
  settled := State.settled_marker h.settled
  entries := List.forall_mem_append.mpr ⟨h.entries, List.forall_mem_singleton.mpr trivial⟩

theorem enterLam (x : Name) : KindReady σ (s.enterLam x) where
  good := h.good.enterLam x
  settled := State.settled_enterLam h.settled x
  entries := by
    rw [State.entries_enterLam]
    refine List.forall_mem_append.mpr ⟨h.entries, List.forall_mem_cons.mpr ⟨trivial, ?_⟩⟩
    exact List.forall_mem_singleton.mpr (.var _ _)

/-- The type that a variable of the state is used at is a data type, as its
scheme is one and new variables have the kinds of the quantified ones. -/
theorem instance_kind {x : Name} {scheme : language.Scheme}
    (hLookup : s.context.lookup x = some scheme) :
    HasKind σ (scheme.instantiate s.supply "t" language.var).body.head .data := by
  rw [lookup_eq_bindings] at hLookup
  have hMem := Name.mem_of_lookup hLookup
  have hScheme : HasKind σ scheme.body.head .data := h.entries _ (mem_bindings.mp hMem)
  refine hScheme.subst fun p hp u hu => ?_
  change scheme.renaming s.supply p.1 = some u at hu
  -- A quantified variable carries the kind of its quantifier, and others stay.
  rcases h.good.scheme hMem p hp with hQuantified | ⟨hNot, -⟩
  · obtain ⟨new, -, hRenaming⟩ := Scheme.renaming_of_lookup s.supply hQuantified
    rw [hRenaming] at hu
    cases hu
    exact .var new p.2
  · rw [Scheme.renaming_of_not_mem hNot] at hu
    cases hu

/-- Instantiating a scheme of the context introduces variables of the kinds that
it quantifies over. -/
theorem instantiated {x : Name} {scheme : language.Scheme}
    (hLookup : s.context.lookup x = some scheme) : KindReady σ (s.instantiate scheme) := by
  have hSound := h.sound (.var hLookup)
  refine ⟨hSound.refines.good, hSound.settled, ?_⟩
  change ∀ e ∈ (State.pushAll _ _).context.entries, EntryKinds σ e
  rw [State.pushAll_eq]
  refine List.forall_mem_append.mpr ⟨h.entries, fun e he => ?_⟩
  obtain ⟨d, -, rfl⟩ := List.mem_map.mp he
  trivial

theorem removed {t : ClassState} {x : Name} {supply : Supply} {rest : ClassContext}
    {scheme : language.Scheme} (hRemove : s.context.removeBinding x = .ok (scheme, rest))
    (hRemoves : Removes labelling (Model.onePoint language) t s ⟨supply, rest⟩) :
    KindReady σ ⟨supply, rest⟩ where
  good := hRemoves.refines.good
  settled := hRemoves.settled
  entries e he := h.entries e (removeBinding_subset hRemove he)

/-- The equation of an application is one of data types: an arrow between data
types is one, and so is the type of the function. -/
theorem equated (hArrow : σ Ty.arrowName = .constructor 2) {function argument : Ty}
    (hGood : labelling.Good (s.equate function argument)) (hFunction : HasKind σ function .data)
    (hArgument : HasKind σ argument .data) :
    HasKinds σ (s.equate function argument) ∧
      ∀ p ∈ equations (s.equate function argument).context.entries, Agrees σ p := by
  have hEquations : equations (s.equate function argument).context.entries =
      [(function, .fn argument (.var (s.draw "t").1 .data))] := by
    rw [State.entries_equate, equations_append, equations_of_settled h.settled]
    rfl
  have hAgrees : ∀ p ∈ equations (s.equate function argument).context.entries, Agrees σ p := by
    rw [hEquations]
    exact List.forall_mem_singleton.mpr ⟨.data, hFunction, .fn hArrow hArgument (.var _ _)⟩
  have hKinded := fun p hp => (hAgrees p hp).kinded
  refine ⟨⟨hGood.wellFormed, fun x type kind hMem => ?_, hKinded⟩, hAgrees⟩
  rw [State.entries_equate] at hMem
  rcases List.mem_append.mp hMem with hMem | hMem
  · exact h.entries _ hMem
  · simp [Entry.ofGoal] at hMem

theorem solved {t : ClassState} (hGood : labelling.Good t) (hSettled : Settled t.context.entries)
    (hFixed : fixed t.context.entries = fixed s.context.entries)
    (hDefine : ∀ x type kind, .define x type kind ∈ t.context.entries → HasKind σ type kind) :
    KindReady σ t := by
  refine ⟨hGood, hSettled, fun e he => ?_⟩
  cases e with
  | define x type kind => exact hDefine x type kind he
  | bind x scheme =>
      have hMem : .bind x scheme ∈ fixed t.context.entries := List.mem_filter.mpr ⟨he, rfl⟩
      rw [hFixed] at hMem
      exact h.entries _ (List.mem_filter.mp hMem).1
  | _ => trivial

theorem unwound {es : List (Entry language)} (hSubset : es ⊆ s.context.entries) {t : Ty}
    (hAnnotated : t.AnnotatedIn s)
    (ht : HasKind σ t .data) : HasKind σ (unwind (L := language) (definitions es) t) .data := by
  have hDefs := kind_of_definition h.good.wellFormed (fun _ _ _ hMem => h.entries _ hMem) hSubset
  exact (HasKind.unwind h.good.wellFormed.nodup hDefs hAnnotated ht).1

end KindReady

/-- The scheme of a let is one of data types: it is the type of the bound term,
in which definitions of the kinds of their variables have been substituted. -/
theorem KindReady.generalized {σ : Signature} {s : ClassState} {bound : Term}
    {b : Synthesis language} {skimmed : ClassContext × List (Entry language)}
    {made : Generalized language} (hs : KindReady σ s)
    (hBound : Synthesizes State.unify bound (s.push .marker) b) (h : KindReady σ b.state)
    (hKind : HasKind σ b.type.head .data) (hSkim : b.state.context.skim = .ok skimmed)
    (hMade : generalize skimmed.1 skimmed.2 b.type = .ok made) (x : Name) :
    KindReady σ (State.push ⟨b.state.supply, skimmed.1⟩ (.bind x made.scheme)) := by
  obtain ⟨pre, post, hPost, hMarked⟩ := (hs.marker.sound hBound).generalizes
  rw [hPost] at hSkim
  cases hSkim
  refine ⟨hMarked.good_bind hMade x, hMarked.settled_bind,
    List.forall_mem_append.mpr ⟨fun e he => ?_, List.forall_mem_singleton.mpr ?_⟩⟩
  · apply h.entries
    rw [hMarked.entries_eq]
    exact List.mem_append_left _ he
  · change HasKind σ made.scheme.body.head .data
    rw [(generalize_eq_ok hMade).2]
    refine h.unwound (fun e he => ?_) ?_ hKind
    · rw [hMarked.entries_eq]
      exact List.mem_append_right _ (List.mem_cons_of_mem _ he)
    · have hTy := hMarked.ty
      rw [Ty.AnnotatedIn, hMarked.entries_eq, declared_append]
      exact hTy

/-- Types of the kinds of their variables stay so where definitions are
expanded. The definitions passed so far are carried along, each with the kind
that its variable is declared with. -/
theorem entryKinds_normalizeEntries {σ : Signature} {K : language.Telescope}
    (hNodup : (K.map Prod.fst).Nodup) {defined : List (Name × Ty)} {es : List (Entry language)}
    (hDefined : ∀ d ∈ defined, ∃ kind, (d.1, kind) ∈ K ∧ HasKind σ d.2 kind)
    (hAnnotated : ∀ x type kind, .define x type kind ∈ es →
      (x, kind) ∈ K ∧ type.Annotated K.Declares)
    (h : ∀ e ∈ es, EntryKinds σ e) :
    ∀ e ∈ normalizeEntries (L := language) defined es, EntryKinds σ e := by
  fun_induction normalizeEntries (L := language) defined es with
  | case1 => exact h
  | case2 defined x type kind es type' ih =>
      obtain ⟨hHead, hTail⟩ := List.forall_mem_cons.mp h
      obtain ⟨hDeclared, hType⟩ := hAnnotated x type kind List.mem_cons_self
      have hKind : HasKind σ type' kind := by
        refine HasKind.subst hHead fun p hp u hu => ?_
        obtain ⟨j, hj, hu⟩ := hDefined _ (Name.mem_of_lookup hu)
        rw [Name.eq_of_nodup hNodup (hType p hp) hj]
        exact hu
      refine List.forall_mem_cons.mpr ⟨hKind, ih (List.forall_mem_cons.mpr ⟨?_, hDefined⟩) ?_ hTail⟩
      · exact ⟨kind, hDeclared, hKind⟩
      · exact fun y u j hMem => hAnnotated y u j (List.mem_cons_of_mem _ hMem)
  | case3 defined e es _ ih =>
      obtain ⟨hHead, hTail⟩ := List.forall_mem_cons.mp h
      refine List.forall_mem_cons.mpr ⟨hHead, ih hDefined ?_ hTail⟩
      exact fun y u j hMem => hAnnotated y u j (List.mem_cons_of_mem _ hMem)

/-- Expanding all definitions of a context leaves it ready. -/
theorem KindReady.normalized {σ : Signature} {s : ClassState} (h : KindReady σ s) :
    KindReady σ ⟨s.supply, s.context.normalize⟩ := by
  have hDeclared : declared s.context.normalize.entries = declared s.context.entries :=
    declared_normalizeEntries _ _
  refine ⟨⟨labelling.wellFormed_normalize h.good.wellFormed, ?_⟩,
    settled_normalizeEntries h.settled, ?_⟩
  · rw [hDeclared]
    exact h.good.drawn
  · exact entryKinds_normalizeEntries h.good.wellFormed.nodup (List.forall_mem_nil _)
      (fun _ _ _ hMem => annotated_define h.good.wellFormed hMem) h.entries

/-- No problem that synthesis has to solve ever equates variables of different
kinds. -/
def ClashFree (e : Term) (s : ClassState) : Prop :=
  ∀ u, Poses State.unify e s u → ∀ v, u.Reaches v → ¬Clashes v

/-- A part of a term comes to no clash if the whole does not, since its runs are
among those of the whole. -/
theorem ClashFree.of_passes {e e' : Term} {s s' : ClassState} (h : ClashFree e s)
    (hPasses : ∀ {part : Term} {t : ClassState}, Passes State.unify e' s' part t →
      Passes State.unify e s part t) : ClashFree e' s' := by
  rintro u ⟨function, argument, t, f, a, hPart, hProblem⟩
  exact h u ⟨function, argument, t, f, a, hPasses hPart, hProblem⟩

/-- Synthesis keeps kinds where variables of one kind are equated. The induction
is on the synthesis, and a clash would have to come from the equation of an
application, whose sides have one kind to begin with. -/
theorem hasKind_of_synthesizes {σ : Signature} (hArrow : σ Ty.arrowName = .constructor 2)
    {e : Term} {s : ClassState} {r : Synthesis language} (h : Synthesizes State.unify e s r)
    (hs : KindReady σ s) (hFree : ClashFree e s) :
    KindReady σ r.state ∧ HasKind σ r.type.head .data := by
  induction h with
  | var hLookup => exact ⟨hs.instantiated hLookup, hs.instance_kind hLookup⟩
  | @lam x body s inner removed hBody hRemove ih =>
      have hEntered := hs.enterLam x
      obtain ⟨hInner, hKind⟩ := ih hEntered (hFree.of_passes .lam)
      obtain ⟨rest, hRest, hRemoves⟩ := (hEntered.sound hBody).removes
      rw [hRest] at hRemove
      cases hRemove
      exact ⟨hInner.removed hRest hRemoves, .fn hArrow (.var _ _) hKind⟩
  | @app function argument s solved f a hFunction hArgument hSolve ihFunction ihArgument =>
      obtain ⟨hf, hfKind⟩ := ihFunction hs (hFree.of_passes .function)
      obtain ⟨ha, haKind⟩ := ihArgument hf (hFree.of_passes (.argument hFunction))
      have hGood := (hs.sound hFunction).good_equate (hf.sound hArgument)
      obtain ⟨hRefines, hSettled⟩ := stepsRefine_labelling.unify hGood hSolve
      obtain ⟨hKinds, hAgrees⟩ := ha.equated hArrow hGood hfKind haKind
      have hNever := hFree _ ⟨_, _, _, _, _, .here, hFunction, hArgument, rfl⟩
      rcases hKinds.unify (guarded_of_agrees hAgrees) hSolve with
        ⟨hDefine, -⟩ | ⟨⟨v, hReaches, hClashes⟩, -⟩
      · exact ⟨ha.solved hRefines.good hSettled hRefines.of_equate.toExtends.fixed_eq hDefine,
          .var _ _⟩
      · exact absurd hClashes (hNever v hReaches)
  | @letIn x bound body s b inner skimmed made removed hBound hSkim hGeneralize hBody hRemove
      ihBound ihBody =>
      obtain ⟨hb, hbKind⟩ := ihBound hs.marker (hFree.of_passes .bound)
      have hReady := hs.generalized hBound hb hbKind hSkim hGeneralize x
      obtain ⟨hInner, hKind⟩ :=
        ihBody hReady (hFree.of_passes (.body hBound hSkim hGeneralize))
      obtain ⟨rest, hRest, hRemoves⟩ := (hReady.sound hBody).removes
      rw [hRest] at hRemove
      cases hRemove
      exact ⟨hInner.removed hRest hRemoves, hKind⟩
  | float hLiteral => cases hLiteral

/-- So the type that is inferred is a data type, also after the definitions of
the context have been substituted in it. -/
theorem kind_of_infer {σ : Signature} (hArrow : σ Ty.arrowName = .constructor 2) {s : ClassState}
    (hs : KindReady σ s) {e : Term} (hFree : ClashFree e s) {q : language.Qualified}
    (hInfer : infer s e = .ok q) : q.head.kind = .ok .data := by
  obtain ⟨r, hRun, hResolve⟩ := infer_eq_ok.mp hInfer
  obtain ⟨head, hFinish, hRest⟩ := bind_eq_ok.mp hResolve
  obtain ⟨predicates, -, hq⟩ := bind_eq_ok.mp hRest
  cases hFinish
  cases hq
  obtain ⟨hResult, hKind⟩ := hasKind_of_synthesizes hArrow hRun hs hFree
  have hTy := (hs.sound hRun).ty
  have hDeclared : declared r.state.context.normalize.entries =
      declared r.state.context.entries := declared_normalizeEntries _ _
  rw [← hDeclared] at hTy
  exact (hResult.normalized.unwound (List.Subset.refl _) hTy hKind).kind_eq

/-- The variables that a state declares do not take constructors, nor do those
that its schemes quantify. -/
structure FirstOrderSchemes (s : ClassState) : Prop where
  firstOrder : FirstOrder s
  quantified : ∀ x scheme, .bind x scheme ∈ s.context.entries →
    ∀ p ∈ scheme.quantified, ∃ n, p.2 = .constructor n

namespace FirstOrderSchemes

variable {s t : ClassState}

/-- Fewer entries declare and bind no more. -/
theorem mono (h : FirstOrderSchemes s) (hSubset : t.context.entries ⊆ s.context.entries) :
    FirstOrderSchemes t where
  firstOrder p hp := by
    obtain ⟨e, he, hp⟩ := List.mem_flatMap.mp hp
    exact h.firstOrder p (List.mem_flatMap.mpr ⟨e, hSubset he, hp⟩)
  quantified x scheme hMem := h.quantified x scheme (hSubset hMem)

/-- Entries are added that neither declare variables that take constructors nor
bind schemes that quantify over such. -/
theorem append (h : FirstOrderSchemes s) {es : List (Entry language)}
    (hEntries : t.context.entries = s.context.entries ++ es)
    (hDeclared : ∀ p ∈ declared es, ∃ n, p.2 = .constructor n)
    (hBind : ∀ x scheme, .bind x scheme ∈ es →
      ∀ p ∈ scheme.quantified, ∃ n, p.2 = .constructor n) : FirstOrderSchemes t := by
  refine ⟨fun p hp => ?_, fun x scheme hMem => ?_⟩
  · rw [hEntries, declared_append] at hp
    exact (List.mem_append.mp hp).elim (h.firstOrder p) (hDeclared p)
  · rw [hEntries] at hMem
    exact (List.mem_append.mp hMem).elim (h.quantified x scheme) (hBind x scheme)

/-- Moves declare the same variables, and leave the bindings. -/
theorem moves (h : FirstOrderSchemes s) (hMoves : Moves s.context.entries t.context.entries) :
    FirstOrderSchemes t := by
  refine ⟨h.firstOrder.moves hMoves, fun x scheme hMem => ?_⟩
  have hFixed : .bind x scheme ∈ fixed t.context.entries := List.mem_filter.mpr ⟨hMem, rfl⟩
  rw [hMoves.toExtends.fixed_eq] at hFixed
  exact h.quantified x scheme (List.mem_filter.mp hFixed).1

theorem unify (h : FirstOrderSchemes s) (hRun : s.unify = .ok t) : FirstOrderSchemes t := by
  fun_induction State.unify s with
  | case1 s hCan u hStep ih => exact ih (h.moves (equationsOnly.step_moves hStep).2) hRun
  | case2 s hCan e hStep => cases hRun
  | case3 s hCan =>
      cases hRun
      exact h

theorem marker (h : FirstOrderSchemes s) : FirstOrderSchemes (s.push .marker) :=
  h.append rfl (List.forall_mem_nil _) fun _ _ hMem => by cases List.mem_singleton.mp hMem

theorem enterLam (h : FirstOrderSchemes s) (x : Name) : FirstOrderSchemes (s.enterLam x) := by
  refine h.append (State.entries_enterLam s x) (List.forall_mem_singleton.mpr ⟨0, rfl⟩) ?_
  intro y scheme hMem
  simp only [List.mem_cons, List.not_mem_nil, or_false, reduceCtorEq, false_or] at hMem
  cases hMem
  exact List.forall_mem_nil _

theorem equate (h : FirstOrderSchemes s) (function argument : Ty) :
    FirstOrderSchemes (s.equate function argument) :=
  h.append (State.entries_equate s function argument) (List.forall_mem_singleton.mpr ⟨0, rfl⟩)
    fun _ _ hMem => by simp [Entry.ofGoal] at hMem

/-- The variables of an instance have the kinds of the quantified ones. -/
theorem instantiate (h : FirstOrderSchemes s) {x : Name} {scheme : language.Scheme}
    (hLookup : s.context.lookup x = some scheme) : FirstOrderSchemes (s.instantiate scheme) := by
  have hEntries : (s.instantiate scheme).context.entries = s.context.entries ++
      Language.Telescope.intros (scheme.instantiate s.supply "t" language.var).intros := by
    rw [State.instantiate, State.pushAll_eq]
  rw [lookup_eq_bindings] at hLookup
  have hMem := mem_bindings.mp (Name.mem_of_lookup hLookup)
  refine h.append hEntries (fun p hp => ?_) fun y made hMade => ?_
  · rw [declared_intros] at hp
    obtain ⟨⟨q, new⟩, hq, rfl⟩ := List.mem_map.mp hp
    exact h.quantified x scheme hMem q (List.of_mem_zip hq).1
  · obtain ⟨d, -, hd⟩ := List.mem_map.mp hMade
    cases hd

/-- A let quantifies over variables that the context declared, so over none
that take constructors. -/
theorem generalized (h : FirstOrderSchemes s) {rest : ClassContext} {above : List (Entry language)}
    (hSkim : s.context.skim = .ok (rest, above)) {type : language.Qualified}
    {made : Generalized language} (hMade : generalize rest above type = .ok made) (x : Name) :
    FirstOrderSchemes (State.push ⟨s.supply, rest⟩ (.bind x made.scheme)) := by
  have hEntries := skim_eq_ok hSkim
  have hRest : FirstOrderSchemes ⟨s.supply, rest⟩ := by
    apply h.mono
    rw [hEntries]
    exact List.subset_append_left _ _
  refine hRest.append rfl (List.forall_mem_nil _) fun y scheme hMem p hp => h.firstOrder p ?_
  cases List.mem_singleton.mp hMem
  rw [(generalize_eq_ok hMade).1] at hp
  rw [hEntries, declared_append, declared_cons]
  exact List.mem_append_right _ (unsolved_subset above hp)

/-- By induction on the term, no step of synthesis declares a variable that
takes constructors. -/
theorem synthesized {e : Term} {r : Synthesis language} (hRun : Synthesizes State.unify e s r)
    (h : FirstOrderSchemes s) : FirstOrderSchemes r.state := by
  induction hRun with
  | var hLookup => exact h.instantiate hLookup
  | lam _ hRemove ih => exact (ih (h.enterLam _)).mono (removeBinding_subset hRemove)
  | app _ _ hSolve ihFunction ihArgument =>
      exact ((ihArgument (ihFunction h)).equate _ _).unify hSolve
  | letIn _ hSkim hGeneralize _ hRemove ihBound ihBody =>
      exact (ihBody ((ihBound h.marker).generalized hSkim hGeneralize _)).mono
        (removeBinding_subset hRemove)
  | float hLiteral => cases hLiteral

end FirstOrderSchemes

/-- Where no variable takes constructors, inference never comes to a clash:
then taking applications apart gives arguments of one kind whenever the
whole sides have one. -/
theorem KindReady.clashFree {σ : Signature} (hArrow : σ Ty.arrowName = .constructor 2) {e : Term}
    {s : ClassState} (hs : KindReady σ s) (hFirst : FirstOrderSchemes s) : ClashFree e s := by
  -- By induction on the term, as each part is synthesized where those before it were.
  induction e generalizing s with
  | var x =>
      rintro u ⟨function, argument, t, f, a, hPart, -⟩
      cases hPart
  | lam x body ih =>
      rintro u ⟨function, argument, t, f, a, hPart, hProblem⟩
      cases hPart with
      | lam hPart =>
          exact ih (hs.enterLam x) (hFirst.enterLam x) u ⟨_, _, _, _, _, hPart, hProblem⟩
  | app function argument ihFunction ihArgument =>
      have hArgumentAt : ∀ {f : Synthesis language}, Synthesizes State.unify function s f →
          (KindReady σ f.state ∧ HasKind σ f.type.head .data) ∧ FirstOrderSchemes f.state :=
        fun hRun => ⟨hasKind_of_synthesizes hArrow hRun hs (ihFunction hs hFirst),
          hFirst.synthesized hRun⟩
      rintro u ⟨function', argument', t, f, a, hPart, hProblem⟩
      cases hPart with
      | here =>
          obtain ⟨hFunction, hArgument, rfl⟩ := hProblem
          obtain ⟨⟨hf, hfKind⟩, hfFirst⟩ := hArgumentAt hFunction
          obtain ⟨ha, haKind⟩ :=
            hasKind_of_synthesizes hArrow hArgument hf (ihArgument hf hfFirst)
          have hGood := (hs.sound hFunction).good_equate (hf.sound hArgument)
          obtain ⟨hKinds, hAgrees⟩ := ha.equated hArrow hGood hfKind haKind
          have hEquated := (hfFirst.synthesized hArgument).equate f.type.head a.type.head
          intro v hReaches
          exact (FirstOrderKinds.of_agrees hKinds hAgrees hEquated.firstOrder).not_clashes hReaches
      | function hPart => exact ihFunction hs hFirst u ⟨_, _, _, _, _, hPart, hProblem⟩
      | argument hFunction hPart =>
          obtain ⟨⟨hf, -⟩, hfFirst⟩ := hArgumentAt hFunction
          exact ihArgument hf hfFirst u ⟨_, _, _, _, _, hPart, hProblem⟩
  | letIn x bound body ihBound ihBody =>
      rintro u ⟨function, argument, t, f, a, hPart, hProblem⟩
      cases hPart with
      | bound hPart =>
          exact ihBound hs.marker hFirst.marker u ⟨_, _, _, _, _, hPart, hProblem⟩
      | body hBound hSkim hGeneralize hPart =>
          obtain ⟨hb, hbKind⟩ :=
            hasKind_of_synthesizes hArrow hBound hs.marker (ihBound hs.marker hFirst.marker)
          have hbFirst := hFirst.marker.synthesized hBound
          exact ihBody (hs.generalized hBound hb hbKind hSkim hGeneralize x)
            (hbFirst.generalized hSkim hGeneralize x) u ⟨_, _, _, _, _, hPart, hProblem⟩
  | float value =>
      rintro u ⟨function, argument, t, f, a, hPart, -⟩
      cases hPart

/-- A well-kinded state without constraints whose schemes are those of data
types is ready for inference. -/
theorem WellKinded.ready {σ : Signature} {s : ClassState} (hs : WellKinded σ s)
    (hSettled : Settled s.context.entries)
    (hSchemes : ∀ x scheme, .bind x scheme ∈ s.context.entries →
      HasKind σ scheme.body.head .data) : KindReady σ s := by
  refine ⟨hs.good, hSettled, fun e he => ?_⟩
  cases e with
  | define x type kind => exact hs.define x type kind he
  | bind x scheme => exact hSchemes x scheme he
  | _ => trivial

/-- A run from a well-kinded state leaves every definition with the kind of
its variable if and only if it never equates two variables of different
kinds, which it never does if no variable takes constructors. So an inferred
type is a data type, unless inference had to solve a problem whose run does
equate such variables, and always if the quantified variables take no
constructors either. -/
theorem kinds_kept_iff_clashFree {σ : Signature} {s : ClassState} (hs : WellKinded σ s) :
    (∀ t, s.unify = .ok t →
      ((∀ x type kind, .define x type kind ∈ t.context.entries → type.kind = .ok kind) ↔
        ∀ u, s.Reaches u → ¬Clashes u)) ∧
    (FirstOrder s → ∀ u, s.Reaches u → ¬Clashes u) ∧
    (σ Ty.arrowName = .constructor 2 → Settled s.context.entries →
      (∀ x scheme, .bind x scheme ∈ s.context.entries → HasKind σ scheme.body.head .data) →
      ∀ e q, infer s e = .ok q → (q.head.kind = .ok .data ∨
        ∃ u v, Poses State.unify e s u ∧ u.Reaches v ∧ Clashes v) ∧
        (FirstOrderSchemes s → q.head.kind = .ok .data)) := by
  refine ⟨fun t hRun => ?_, fun hFirst u hReaches => ?_,
    fun hArrow hSettled hSchemes e q hInfer => ?_⟩
  · rcases hs.hasKinds.unify (guarded_of_agrees hs.equation) hRun with
      ⟨hDefine, hNever⟩ | ⟨⟨u, hReaches, hClashes⟩, x, type, kind, hMem, hKind⟩
    · exact iff_of_true (fun x type kind hMem => (hDefine x type kind hMem).kind_eq) hNever
    · exact iff_of_false (fun hAll => hKind (hAll x type kind hMem))
        fun hNever => hNever u hReaches hClashes
  · exact (FirstOrderKinds.of_agrees hs.hasKinds hs.equation hFirst).not_clashes hReaches
  · have hReady := hs.ready hSettled hSchemes
    refine ⟨?_, fun hFirst => kind_of_infer hArrow hReady (hReady.clashFree hArrow hFirst) hInfer⟩
    by_cases hFree : ClashFree e s
    · exact .inl (kind_of_infer hArrow hReady hFree hInfer)
    · simp only [ClashFree, not_forall, not_not] at hFree
      obtain ⟨u, hPoses, v, hReaches, hClashes⟩ := hFree
      exact .inr ⟨u, v, hPoses, hReaches, hClashes⟩

/-- An equation of two applications, where the arguments need not have one kind. -/
def applyingState (k : Kind) : ClassState :=
  ⟨.empty, ⟨[.intro "f" (.arrow k .data), .intro "a" k, .intro "g" (.constructor 1),
    .intro "b" .data, .ofGoal (.eq (Ty.app (.var "f" (.arrow k .data)) (.var "a" k))
      (Ty.app (.var "g" (.constructor 1)) (.var "b" .data)))]⟩⟩

/-- Only the arrow takes arguments. -/
def arrowSignature : Signature := fun c => if c = Ty.arrowName then .constructor 2 else .data

theorem wellKinded_applyingState {k : Kind} (hWellFormed : (applyingState k).WellFormed) :
    WellKinded arrowSignature (applyingState k) := by
  refine ⟨hWellFormed, fun e he => ?_, fun x type kind h => ?_, fun p hp => ?_⟩
  · simp only [applyingState, List.mem_cons, List.not_mem_nil, or_false] at he
    rcases he with rfl | rfl | rfl | rfl | rfl
    · trivial
    · trivial
    · trivial
    · trivial
    · refine ⟨.data, trivial, fun p hp => ?_, fun p hp => ?_⟩
      · exact List.mem_append_left [("g", .constructor 1), ("b", .data)] hp
      · exact List.mem_append_right [("f", .arrow k .data), ("a", k)] hp
  · simp [applyingState, Entry.ofGoal] at h
  · rw [List.mem_singleton.mp hp]
    exact ⟨.data, .app (.var "f" _) (.var "a" k), .app (.var "g" _) (.var "b" .data)⟩

theorem firstOrder_applyingState : FirstOrder (applyingState .data) := by
  intro p hp
  change p ∈ [("f", Kind.constructor 1), ("a", .constructor 0), ("g", .constructor 1),
    ("b", .constructor 0)] at hp
  simp only [List.mem_cons, List.not_mem_nil, or_false] at hp
  rcases hp with rfl | rfl | rfl | rfl
  · exact ⟨1, rfl⟩
  · exact ⟨0, rfl⟩
  · exact ⟨1, rfl⟩
  · exact ⟨0, rfl⟩

/-- Functions of what two constructors are applied to, of which one takes
arguments of the given kind. -/
def sharingState (k : Kind) : ClassState :=
  let int := Ty.con "int" .data
  let m := Ty.var "m" (.arrow k .data)
  let a := Ty.var "a" k
  let n := Ty.var "n" (.constructor 1)
  let b := Ty.var "b" .data
  ⟨.empty, ⟨[.bind "g" ⟨[("m", .arrow k .data), ("a", k)], .ofType (.fn (.app m a) int)⟩,
    .bind "h" ⟨[("n", .constructor 1), ("b", .data)], .ofType (.fn (.app n b) (.app n int))⟩]⟩⟩

/-- A use of both at one argument. -/
def sharingTerm : Term :=
  .lam "y" (.letIn "u" (.app (.var "g") (.var "y")) (.app (.var "h") (.var "y")))

theorem wellKinded_sharingState {k : Kind} (hWellFormed : (sharingState k).WellFormed) :
    WellKinded arrowSignature (sharingState k) := by
  refine ⟨hWellFormed, fun e he => ?_, fun x type kind h => ?_, fun p hp => ?_⟩
  · simp only [sharingState, List.mem_cons, List.not_mem_nil, or_false] at he
    rcases he with rfl | rfl
    · intro p hp
      change p ∈ [("m", Kind.arrow k .data), ("a", k)] at hp
      simp only [List.mem_cons, List.not_mem_nil, or_false] at hp
      rcases hp with rfl | rfl
      · exact .inl rfl
      · exact .inl rfl
    · intro p hp
      left
      revert p
      decide
  · simp [sharingState] at h
  · cases hp

theorem hasKind_sharingState {k : Kind} (x : Name) (scheme : language.Scheme)
    (h : .bind x scheme ∈ (sharingState k).context.entries) :
    HasKind arrowSignature scheme.body.head .data := by
  have hInt : HasKind arrowSignature (.con "int" .data) .data := .con "int"
  simp only [sharingState, List.mem_cons, List.not_mem_nil, or_false] at h
  rcases h with h | h
  · cases h
    exact .fn rfl (.app (.var "m" _) (.var "a" _)) hInt
  · cases h
    exact .fn rfl (.app (.var "n" _) (.var "b" _)) (.app (.var "n" _) hInt)

theorem settled_sharingState (k : Kind) : Settled (sharingState k).context.entries := by
  simp [Settled, sharingState, Entry.isConstraint]

theorem firstOrderSchemes_sharingState : FirstOrderSchemes (sharingState .data) := by
  refine ⟨List.forall_mem_nil _, fun x scheme h p hp => ?_⟩
  have hQuantified : scheme.quantified.map Prod.snd = [.constructor 1, .constructor 0] := by
    simp only [sharingState, List.mem_cons, List.not_mem_nil, or_false] at h
    rcases h with h | h
    · cases h
      rfl
    · cases h
      rfl
  have hKind := List.mem_map_of_mem (f := Prod.snd) hp
  rw [hQuantified] at hKind
  simp only [List.mem_cons, List.not_mem_nil, or_false] at hKind
  rcases hKind with hKind | hKind
  · exact ⟨1, hKind⟩
  · exact ⟨0, hKind⟩

/-- Where constructors take constructors, the equation of two applications
gives a variable of data types the value of a constructor, and the inferred
type is ill-kinded. -/
theorem kinds_kept_iff_clashFree_applying :
    ((∀ u, (applyingState .data).Reaches u → ¬Clashes u) ∧
      ∃ q, infer (sharingState .data) sharingTerm = .ok q ∧ q.head.kind = .ok .data) ∧
    (WellKinded arrowSignature (applyingState (.constructor 1)) ∧
      ∃ t, (applyingState (.constructor 1)).unify = .ok t ∧
        .define "b" (Ty.var "a" (.constructor 1)) .data ∈ t.context.entries ∧
        ∃ u, (applyingState (.constructor 1)).Reaches u ∧ Clashes u) ∧
    WellKinded arrowSignature (sharingState (.constructor 1)) ∧
      ∃ q, infer (sharingState (.constructor 1)) sharingTerm = .ok q ∧
        q.head = .fn
          (.app (.var "t1" (.arrow (.constructor 1) .data)) (.var "t2" (.constructor 1)))
          (.app (.var "t1" (.arrow (.constructor 1) .data)) (.con "int" .data)) ∧
        ∃ u v, Poses State.unify sharingTerm (sharingState (.constructor 1)) u ∧ u.Reaches v ∧
          Clashes v := by
  have hApplying := wellKinded_applyingState (k := .constructor 1) (by decide +kernel)
  have hSharing := wellKinded_sharingState (k := .constructor 1) (by decide +kernel)
  refine ⟨⟨?_, ?_⟩, ⟨hApplying, ?_⟩, hSharing, ?_⟩
  · have hData := wellKinded_applyingState (k := .data) (by decide +kernel)
    exact (kinds_kept_iff_clashFree hData).2.1 firstOrder_applyingState
  · have hRun : (inferWithin 40 (sharingState .data) sharingTerm).isOk = true := by decide +kernel
    cases hInfer : inferWithin 40 (sharingState .data) sharingTerm with
    | error e =>
        rw [hInfer] at hRun
        cases hRun
    | ok q =>
        have hData := wellKinded_sharingState (k := .data) (by decide +kernel)
        have hInfer := infer_of_inferWithin hInfer
        exact ⟨q, hInfer, ((kinds_kept_iff_clashFree hData).2.2 rfl (settled_sharingState _)
          hasKind_sharingState _ q hInfer).2 firstOrderSchemes_sharingState⟩
  · have hRun : (applyingState (.constructor 1)).unify.map (fun t => t.context.entries.getLast?) =
        .ok (some (.define "b" (Ty.var "a" (.constructor 1)) .data)) :=
      State.map_unify_of_unifyWithin? (n := 10) rfl
    obtain ⟨t, hUnify, hLast⟩ := map_eq_ok.mp hRun
    have hMem := List.mem_of_getLast? hLast
    have hIff := (kinds_kept_iff_clashFree hApplying).1 t hUnify
    refine ⟨t, hUnify, hMem, ?_⟩
    by_contra hNever
    push Not at hNever
    cases hIff.mpr hNever _ _ _ hMem
  · have hRun : (inferWithin 40 (sharingState (.constructor 1)) sharingTerm).map (fun q => q.head) =
        .ok (.fn (.app (.var "t1" (.arrow (.constructor 1) .data)) (.var "t2" (.constructor 1)))
          (.app (.var "t1" (.arrow (.constructor 1) .data)) (.con "int" .data))) := by
      decide +kernel
    obtain ⟨q, hInfer, hHead⟩ := map_eq_ok.mp hRun
    have hInfer := infer_of_inferWithin hInfer
    have hClash := ((kinds_kept_iff_clashFree hSharing).2.2 rfl (settled_sharingState _)
      hasKind_sharingState _ q hInfer).1
    refine ⟨q, hInfer, hHead, hClash.resolve_left fun hKind => ?_⟩
    rw [hHead] at hKind
    cases hKind

end HindleyMilner.Classes
