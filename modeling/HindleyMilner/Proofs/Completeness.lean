import HindleyMilner.Proofs.Determination

/-! Inference is complete: where a term has a type, synthesis succeeds, and some
solution of the final context gives the type it found that value. A solver may be
excused for some failures. -/
namespace HindleyMilner

open Context TypeAlgebra

variable {L : Language}

/-- A computation succeeds with a result that is wanted, or fails with an excuse. -/
def Yields {α : Type} (excuse : TypeError → Prop) (m : Except TypeError α) (P : α → Prop) : Prop :=
  match m with
  | .ok a => P a
  | .error e => excuse e

/-- A computation that goes on with the result of another yields what is asked
for if the first yields something from which the second does. A failure of
either has to be excused. -/
theorem Yields.bind {α β : Type} {excuse : TypeError → Prop} {m : Except TypeError α}
    {f : α → Except TypeError β} {P : α → Prop} {Q : β → Prop} (h : Yields excuse m P)
    (hf : ∀ a, m = .ok a → P a → Yields excuse (f a) Q) : Yields excuse (m >>= f) Q := by
  cases m with
  | ok a => exact hf a rfl h
  | error e => exact h

/-- What is yielded is yielded under every weaker excuse. Only the failure that
the computation ends with, if any, has to be excused by the new one. -/
theorem Yields.excuse_mono {α : Type} {excuse excuse' : TypeError → Prop} {m : Except TypeError α}
    {P : α → Prop} (h : Yields excuse m P) (hExcuse : ∀ e, m = .error e → excuse e → excuse' e) :
    Yields excuse' m P := by
  cases m with
  | ok a => exact h
  | error e => exact hExcuse e rfl h

variable [Rules L] [Sized L] [FreeVars L.Special]

/-- A result of synthesis can be given a value by a solution that leaves the
variables of the first state as they are. -/
def Model.Admits (M : Model L) (s : State L) (θ : M.Valuation) (v : M.algebra.Ty L.valueKind)
    (r : Synthesis L) : Prop :=
  ∃ θ' : M.Valuation, M.Satisfies θ' r.state.context.entries ∧
    M.Agree (declared s.context.entries) θ' θ ∧ M.eval θ' L.valueKind r.type.head = v

/-- What completeness asks of the rules of a language and of a solver,
which has to solve the equations of applications. It may be excused for
failing from a state. -/
structure CompleteSolver (D : Discipline L) (M : Model L) (excuse : State L → TypeError → Prop)
    (solve : State L → Logged L (State L)) : Prop where
  compatible : M.Compatible D
  refines : ∀ {s t : State L}, D.Good s → (solve s).result = .ok t →
    Refines D M s t ∧ Settled t.context.entries
  determines : ∀ {s t : State L} {function argument : L.Ty}, Settled s.context.entries →
    D.Good (s.equate function argument) → (solve (s.equate function argument)).result = .ok t →
    Determines M (s.equate function argument).context.entries t.context.entries
  solves : ∀ {s : State L} {function argument : L.Ty} {θ : M.Valuation},
    Settled s.context.entries → D.Good (s.equate function argument) →
    M.Satisfies θ (s.equate function argument).context.entries →
    Yields (excuse (s.equate function argument)) (solve (s.equate function argument)).result
      fun t => ∃ θ', M.Satisfies θ' t.context.entries ∧
        M.Agree (declared (s.equate function argument).context.entries) θ' θ
  reduces : ∀ ps ctx, ∃ qs, Rules.reduce (L := L) ps ctx = .ok qs
  literal : ∀ value t, M.algebra.literal? = some t →
    ∃ u, Rules.literal (L := L) value = .ok u ∧ M.denote L.valueKind u = t

/-- Synthesis of a term has to solve the equation of an application, and solving
that fails with an excuse. -/
def Excused (excuse : State L → TypeError → Prop) (solve : State L → Logged L (State L))
    (e : Term) (s : State L) (err : TypeError) : Prop :=
  ∃ problem, Poses (fun s => (solve s).result) e s problem ∧
    (solve problem).result = .error err ∧ excuse problem err

omit [Sized L] [FreeVars L.Special] in
/-- What excuses a part of a term excuses the term. -/
theorem Excused.of_part {excuse : State L → TypeError → Prop}
    {solve : State L → Logged L (State L)} {e part : Term} {s t : State L} {err : TypeError}
    (h : Excused excuse solve part t err)
    (hPart : ∀ {e' : Term} {u : State L}, Passes (fun s => (solve s).result) part t e' u →
      Passes (fun s => (solve s).result) e s e' u) : Excused excuse solve e s err := by
  obtain ⟨problem, ⟨function, argument, u, f, a, hPasses, hRest⟩, hError, hExcuse⟩ := h
  exact ⟨problem, ⟨function, argument, u, f, a, hPart hPasses, hRest⟩, hError, hExcuse⟩

/-- Variables that have yet to be drawn can be given any values without changing
those of the variables in use, so a solution remains one. -/
theorem Discipline.Good.exists_valuation {D : Discipline L} {s : State L} (hs : D.Good s)
    (hSettled : Settled s.context.entries) {M : Model L} {θ : M.Valuation}
    (hθ : M.Satisfies θ s.context.entries) (f : M.Valuation) :
    ∃ θ', M.Satisfies θ' s.context.entries ∧
      (∀ p ∈ declared s.context.entries, θ' p.1 = θ p.1) ∧
      ∀ x, s.supply.Pending x → θ' x = f x := by
  classical
  let θ' : M.Valuation := fun x => if s.supply.Pending x then f x else θ x
  have hSame : ∀ p ∈ declared s.context.entries, θ' p.1 = θ p.1 := by
    intro p hp
    exact if_neg (hs.drawn p hp)
  refine ⟨θ', ?_, hSame, fun x hx => if_pos hx⟩
  apply M.satisfies_congr D hSettled hs.wellFormed.inScope _ hθ
  intro p hp
  exact (hSame p hp).symm

/-- A new variable can be given any value, as a special case. -/
theorem Discipline.Good.exists_value {D : Discipline L} [DecidableEq L.Kind] {s : State L}
    (hs : D.Good s) (hSettled : Settled s.context.entries) {M : Model L} {θ : M.Valuation}
    (hθ : M.Satisfies θ s.context.entries) (v : M.algebra.Ty L.valueKind) :
    ∃ θ', M.Satisfies θ' s.context.entries ∧ M.Agree (declared s.context.entries) θ' θ ∧
      θ' (s.draw "t").1 L.valueKind = v := by
  let f : M.Valuation := fun x k => if h : L.valueKind = k then h ▸ v else M.algebra.var x k
  obtain ⟨θ', hHolds, hSame, hNew⟩ := hs.exists_valuation hSettled hθ f
  refine ⟨θ', hHolds, fun p hp => by rw [hSame p hp], ?_⟩
  have hStem : "t" ∈ Supply.stems := by simp [Supply.stems]
  have hDrawn := hNew (s.draw "t").1 (Supply.pending_draw hStem s.supply)
  rw [hDrawn]
  exact dif_pos rfl

/-- A variable admits every type that its scheme stands for: the variables of
the instance are new, so they can be given the values that make up that type
while all others keep theirs. -/
theorem Model.admits_var {D : Discipline L} {M : Model L} (hCompatible : M.Compatible D)
    {s : State L} (hs : D.Good s) (hSettled : Settled s.context.entries)
    {θ : M.Valuation} (hθ : M.Satisfies θ s.context.entries) {x : Name} {scheme : L.Scheme}
    (hLookup : (bindings s.context.entries).lookup x = some scheme)
    {v : M.algebra.Ty L.valueKind} (hv : M.Denotes θ scheme v) :
    M.Admits s θ v
      ⟨s.instantiate scheme, (scheme.instantiate s.supply "t" L.var).body⟩ := by
  classical
  obtain ⟨η, hη, rfl⟩ := hv
  -- The new variables take the values of the variables they stand for.
  let f : M.Valuation := fun y =>
    if h : ∃ x k, scheme.Renames s.supply x k y then η h.choose else M.algebra.var y
  have hf : ∀ {y k new}, scheme.Renames s.supply y k new → f new = η y := by
    intro y k new hNew
    have hEx : ∃ x k, scheme.Renames s.supply x k new := ⟨y, k, hNew⟩
    obtain ⟨j, hj⟩ := hEx.choose_spec
    simp only [f, dif_pos hEx, hj.inj hNew]
  obtain ⟨θ', hHolds, hSame, hNew⟩ := hs.exists_valuation hSettled hθ f
  refine ⟨θ', ?_, fun p hp => by rw [hSame p hp], ?_⟩
  · rw [State.instantiate, State.pushAll_eq]
    exact M.satisfies_append.mpr ⟨hHolds, M.satisfies_intros θ' _⟩
  · change M.eval θ' _ (subst (scheme.renaming s.supply) scheme.body.head) = _
    rw [M.eval_subst]
    apply M.algebra.subst_congr
    intro p hp
    have hScheme := hs.scheme (Name.mem_of_lookup hLookup)
    rcases hCompatible hScheme p hp with hQuantified | ⟨hNot, hFree⟩
    · obtain ⟨new, hRenames, hRenaming⟩ := Scheme.renaming_of_lookup s.supply hQuantified
      have hMem := List.mem_map_of_mem (f := Prod.fst) hRenames.mem_intros
      rw [Scheme.names_instantiate] at hMem
      have hPending := (Supply.pending_drawMany (by simp [Supply.stems]) s.supply hMem).1
      simp only [Reading.assign, hRenaming]
      rw [M.eval_var (M.asVar_var _ _), hNew new hPending, hf hRenames]
    · simp only [Reading.assign, Scheme.renaming_of_not_mem hNot]
      rw [hSame p hFree, hη p.1 hNot]

variable [DecidableEq L.Kind]

/-- Synthesis of a term finds every type that the term has. -/
def CompleteFor (D : Discipline L) (M : Model L) (excuse : State L → TypeError → Prop)
    (solve : State L → Logged L (State L)) (e : Term) : Prop :=
  ∀ (depth : Nat) {s : State L} {θ : M.Valuation} {Γ : M.algebra.Env}
    {v : M.algebra.Ty L.valueKind}, D.Good s → Settled s.context.entries →
    M.Satisfies θ s.context.entries → CoveredBy Γ (M.uses θ (bindings s.context.entries)) →
    Typing Γ e v →
    Yields (Excused excuse solve e s) (synthesize solve e depth s).result (M.Admits s θ v)

variable {D : Discipline L} {M : Model L} {excuse : State L → TypeError → Prop}
  {solve : State L → Logged L (State L)}

/-- A complete solver refines the states that it solves, so what is
synthesized with it is sound. -/
theorem CompleteSolver.sound (h : CompleteSolver D M excuse solve) {e : Term} {depth : Nat}
    {s : State L} {r : Synthesis L} (hs : D.Good s) (hSettled : Settled s.context.entries)
    (hRun : (synthesize solve e depth s).result = .ok r) : Sound D M e s r :=
  (synthesize_eq_ok.mp hRun).sound h.compatible h.refines hs hSettled

omit [DecidableEq L.Kind] in
/-- An environment is still covered when the state has moved on. -/
theorem CompleteSolver.coveredBy (h : CompleteSolver D M excuse solve) {s : State L}
    (hs : D.Good s) {es : List (Entry L)} (hExtends : Extends s.context.entries es)
    {Γ : M.algebra.Env} {θ θ' : M.Valuation} (hAgree : M.Agree (declared s.context.entries) θ' θ)
    (hCovered : CoveredBy Γ (M.uses θ (bindings s.context.entries))) :
    CoveredBy Γ (M.uses θ' (bindings es)) := by
  rw [hExtends.bindings_eq, hs.uses_congr h.compatible hAgree]
  exact hCovered

omit [DecidableEq L.Kind] in
/-- Predicates are reduced without failure, so a let always gets a scheme
for its bound term. -/
theorem CompleteSolver.generalizes (h : CompleteSolver D M excuse solve) (ctx : Context L)
    (above : List (Entry L)) (type : L.Qualified) :
    ∃ made, generalize ctx above type = .ok made := by
  obtain ⟨reduced, hReduce⟩ := h.reduces (unwind (definitions above) type).predicates ctx
  exact ⟨_, bind_eq_ok.mpr ⟨_, bind_eq_ok.mpr ⟨reduced, hReduce, rfl⟩, rfl⟩⟩

omit [DecidableEq L.Kind] in
/-- Solutions of what a let has found for its bound term agree below the marker
if they do so before it. -/
theorem Generalizes.agree {s : State L} {b : Synthesis L} {pre post : List (Entry L)}
    (h : Generalizes D s b pre post)
    (hBound : Determines M (s.context.entries ++ [.marker]) b.state.context.entries)
    {θ θ' : M.Valuation} (hθ : M.Satisfies θ b.state.context.entries)
    (hθ' : M.Satisfies θ' b.state.context.entries)
    (hAgree : M.Agree (declared s.context.entries) θ θ') : M.Agree (declared pre) θ θ' := by
  have hLength : (fixed pre).length = (fixed s.context.entries).length :=
    congrArg _ h.toExtends.fixed_eq
  have hBelow := hBound (fixed s.context.entries).length (by simp [fixed, Entry.isFixed])
    θ θ' hθ hθ'
  rw [h.entries_eq, declaredBelow_append_of_le (Nat.le_refl _),
    declaredBelow_append_of_le (Nat.le_of_eq hLength), hLength, Nat.sub_self,
    declaredBelow_zero rfl, declaredBelow_zero rfl, List.append_nil, List.append_nil] at hBelow
  exact hBelow hAgree

omit [DecidableEq L.Kind] in
/-- The scheme of a let stands for the type of the bound term under every
solution. -/
theorem Generalizes.denotes {s : State L} {b : Synthesis L} {pre post : List (Entry L)}
    (h : Generalizes D s b pre post) {made : Generalized L}
    (hMade : generalize ⟨pre⟩ post b.type = .ok made) {θ : M.Valuation}
    (hθ : M.Satisfies θ b.state.context.entries) :
    M.Denotes θ made.scheme (M.eval θ L.valueKind b.type.head) := by
  refine ⟨θ, fun _ _ => rfl, ?_⟩
  rw [h.entries_eq, M.satisfies_append, M.satisfies_cons] at hθ
  rw [(generalize_eq_ok hMade).2, M.eval_unwind, M.extend_of_satisfies hθ.2.2]

namespace CompleteFor

variable (hSolver : CompleteSolver D M excuse solve)

include hSolver

/-- A variable is looked up in the state where the typing looks it up in
its environment. Every instance of its scheme there is a value of the
instance that is made here. -/
theorem var (x : Name) : CompleteFor D M excuse solve (.var x) := by
  intro depth s θ Γ v hs hSettled hθ hCovered hTyping
  rw [result_synthesize_var]
  cases hTyping with
  | @var Γ x σ v hLookup hInstance =>
      rcases hCovered.lookup x with ⟨hNone, -⟩ | ⟨σ', use, hσ', hUse, hTypes⟩
      · rw [hLookup] at hNone
        cases hNone
      · rw [hLookup] at hσ'
        cases hσ'
        rw [Reading.uses, lookup_map_snd, Option.map_eq_some_iff] at hUse
        obtain ⟨scheme, hScheme, rfl⟩ := hUse
        have hFound : s.context.lookup x = some scheme :=
          (lookup_eq_bindings _ _).trans hScheme
        rw [hFound]
        exact Model.admits_var hSolver.compatible hs hSettled hθ hScheme (hTypes v hInstance)

/-- A number has one type, and its value is the type that the typing gives to it. -/
theorem float (value : Binary64) : CompleteFor D M excuse solve (.float value) := by
  intro depth s θ Γ v hs hSettled hθ hCovered hTyping
  rw [result_synthesize_float]
  cases hTyping with
  | float hLiteral =>
      obtain ⟨type, hRule, hType⟩ := hSolver.literal value v hLiteral
      rw [hRule]
      refine ⟨θ, hθ, fun p _ => rfl, ?_⟩
      change M.algebra.subst θ (M.denote _ type) = v
      rw [hType, M.algebra.subst_literal θ v hLiteral]

/-- The new variable of an abstraction is given the type that the typing
assumes for the bound variable. What the body yields under it is kept when the
binding is removed. -/
theorem lam (x : Name) {body : Term} (hBody : CompleteFor D M excuse solve body) :
    CompleteFor D M excuse solve (.lam x body) := by
  intro depth s θ Γ v hs hSettled hθ hCovered hTyping
  rw [result_synthesize_lam]
  cases hTyping with
  | @lam Γ x body a b hTypeBody =>
      have hGood := hs.enterLam x
      have hEnter := State.settled_enterLam hSettled x
      -- The parameter has the type that the derivation gives it.
      obtain ⟨θ₁, hHolds, hSame, hParameter⟩ := hs.exists_value hSettled hθ a
      have hCovered₁ : CoveredBy ((x, .mono a) :: Γ)
          (M.uses θ₁ (bindings (s.enterLam x).context.entries)) := by
        rw [State.bindings_enterLam]
        refine .cons ⟨rfl, fun t ht => ?_⟩ (hSolver.coveredBy hs (.refl _) hSame hCovered)
        apply (M.denotes_mono θ₁ _ t).mpr
        rw [M.eval_var (M.asVar_var _ _), hParameter]
        exact Scheme.instance_mono.mp ht
      have hYields := hBody (depth + 1) hGood hEnter (Model.satisfies_enterLam.mpr hHolds) hCovered₁
        hTypeBody
      apply (hYields.excuse_mono fun _ _ hPart => hPart.of_part .lam).bind
      rintro inner hRun ⟨θ', hHolds', hSame', hHead⟩
      obtain ⟨rest, hRest, hRemoves⟩ := (hSolver.sound hGood hEnter hRun).removes
      rw [hRest]
      rw [State.declared_enterLam, Reading.agree_append] at hSame'
      refine ⟨θ', (hRemoves.satisfies θ').mpr hHolds', hSame'.1.trans hSame, ?_⟩
      change M.eval θ' _ (L.arrow _ _) = _
      rw [M.eval_arrow, M.eval_var (M.asVar_var _ _), hHead,
        hSame'.2 ((s.draw "t").1, L.valueKind) List.mem_cons_self, hParameter]

/-- The function yields its arrow, then the argument its type, both under one
solution. The new variable is given the type of the application, so the equation
has a solution, and a complete solver finds it or is excused. -/
theorem app {function argument : Term} (hFunction : CompleteFor D M excuse solve function)
    (hArgument : CompleteFor D M excuse solve argument) :
    CompleteFor D M excuse solve (.app function argument) := by
  intro depth s θ Γ v hs hSettled hθ hCovered hTyping
  rw [result_synthesize_app]
  cases hTyping with
  | @app Γ function argument a v hTypeF hTypeA =>
      have hYieldsF := hFunction (depth + 1) hs hSettled hθ hCovered hTypeF
      apply (hYieldsF.excuse_mono fun _ _ hPart => hPart.of_part .function).bind
      rintro f hRunF ⟨θ₁, hHolds₁, hSame₁, hHeadF⟩
      have hSoundF := hSolver.sound hs hSettled hRunF
      have hExtends := hSoundF.refines.toExtends
      have hCovered₁ := hSolver.coveredBy hs hExtends hSame₁ hCovered
      have hYieldsA := hArgument (depth + 1) hSoundF.refines.good hSoundF.settled hHolds₁ hCovered₁
        hTypeA
      have hSynthesizesF := synthesize_eq_ok.mp hRunF
      apply (hYieldsA.excuse_mono fun _ _ hPart => hPart.of_part (.argument hSynthesizesF)).bind
      rintro arg hRunA ⟨θ₂, hHolds₂, hSame₂, hHeadA⟩
      have hSoundA := hSolver.sound hSoundF.refines.good hSoundF.settled hRunA
      -- The new variable has the type of the application.
      obtain ⟨θ₃, hHolds₃, hSame₃, hValue⟩ :=
        hSoundA.refines.good.exists_value hSoundA.settled hHolds₂ v
      have hEquation : M.eval θ₃ L.valueKind f.type.head = M.eval θ₃ L.valueKind
          (L.arrow arg.type.head (L.var (arg.state.draw "t").1 L.valueKind)) := by
        have hAgree := (hSame₃.mono hSoundA.refines.toExtends.declared_subset).trans hSame₂
        rw [Model.eval_agree hSolver.compatible hSoundF.ty hAgree, hHeadF, M.eval_arrow,
          Model.eval_agree hSolver.compatible hSoundA.ty hSame₃, hHeadA,
          M.eval_var (M.asVar_var _ _), hValue]
      have hSolves := hSolver.solves hSoundA.settled (hSoundF.good_equate hSoundA)
        (Model.satisfies_equate.mpr ⟨hHolds₃, hEquation⟩)
      have hPoses : Poses (fun s => (solve s).result) (.app function argument) s
          (arg.state.equate f.type.head arg.type.head) :=
        ⟨function, argument, s, f, arg, .here, hSynthesizesF, synthesize_eq_ok.mp hRunA, rfl⟩
      apply (hSolves.excuse_mono fun err hError hExcuse => ⟨_, hPoses, hError, hExcuse⟩).bind
      rintro solved hRun ⟨θ', hHolds', hSame'⟩
      rw [State.declared_equate, Reading.agree_append] at hSame'
      refine ⟨θ', hHolds', ?_, ?_⟩
      · have hBefore := (hSame'.1.trans hSame₃).mono hSoundA.refines.toExtends.declared_subset
        exact ((hBefore.trans hSame₂).mono hExtends.declared_subset).trans hSame₁
      · change M.eval θ' _ (L.var _ _) = _
        rw [M.eval_var (M.asVar_var _ _),
          hSame'.2 ((arg.state.draw "t").1, L.valueKind) List.mem_cons_self, hValue]

/-- The bound term yields the type that the typing generalizes. The scheme made
above the marker stands for every instance of it, so the body is typed in an
environment that is still covered. -/
theorem letIn (x : Name) {bound body : Term} (hBound : CompleteFor D M excuse solve bound)
    (hBody : CompleteFor D M excuse solve body) :
    CompleteFor D M excuse solve (.letIn x bound body) := by
  intro depth s θ Γ v hs hSettled hθ hCovered hTyping
  rw [result_synthesize_letIn]
  cases hTyping with
  | @letIn Γ x bound body a v hTypeBound hTypeBody =>
      have hMarkerSettled := State.settled_marker hSettled
      have hMarkerCovered : CoveredBy Γ (M.uses θ (bindings (s.push .marker).context.entries)) := by
        rw [State.bindings_marker]
        exact hCovered
      have hAdmits : ∀ {t}, Typing Γ bound t → Yields (Excused excuse solve bound (s.push .marker))
          (synthesize solve bound (depth + 1) (s.push .marker)).result (M.Admits _ θ t) :=
        hBound (depth + 1) hs.push_marker hMarkerSettled (Model.satisfies_marker.mpr hθ)
          hMarkerCovered
      apply ((hAdmits hTypeBound).excuse_mono fun _ _ hPart => hPart.of_part .bound).bind
      rintro b hRun ⟨θ₁, hHolds₁, hSame₁, hHead⟩
      rw [State.declared_marker] at hSame₁
      obtain ⟨pre, post, hSkim, hMarked⟩ :=
        (hSolver.sound hs.push_marker hMarkerSettled hRun).generalizes
      obtain ⟨made, hMade⟩ := hSolver.generalizes ⟨pre⟩ post b.type
      simp only [hSkim, hMade, bind, Except.bind]
      have hDetermines := (synthesize_eq_ok.mp hRun).determines hSolver.compatible
        hSolver.refines hSolver.determines hs.push_marker hMarkerSettled
      -- Every instance is found in the same state, by a solution that differs only above
      -- the marker.
      have hInstances : ∀ t, (TypeAlgebra.generalize Γ a).Instance t →
          M.Denotes θ₁ made.scheme t := by
        intro t ht
        have hOther := hAdmits (hTypeBound.of_generalize ht)
        rw [hRun] at hOther
        obtain ⟨θ₂, hHolds₂, hSame₂, rfl⟩ := hOther
        rw [State.declared_marker] at hSame₂
        have hAgree := hMarked.agree hDetermines hHolds₂ hHolds₁ (hSame₂.trans hSame₁.symm)
        exact Model.denotes_congr hSolver.compatible (hMarked.scheme hMade) hAgree
          (hMarked.denotes hMade hHolds₂)
      have hBindCovered : CoveredBy ((x, TypeAlgebra.generalize Γ a) :: Γ)
          (M.uses θ₁ (bindings (pre ++ [.bind x made.scheme]))) := by
        rw [bindings_append]
        exact .cons ⟨rfl, hInstances⟩ (hSolver.coveredBy hs hMarked.toExtends hSame₁ hCovered)
      have hBindHolds : M.Satisfies θ₁ (pre ++ [.bind x made.scheme]) := by
        rw [hMarked.entries_eq, M.satisfies_append] at hHolds₁
        exact M.satisfies_append.mpr
          ⟨hHolds₁.1, M.satisfies_cons.mpr ⟨trivial, M.satisfies_nil⟩⟩
      have hGood := hMarked.good_bind hMade x
      have hYields := hBody (depth + 1) hGood hMarked.settled_bind hBindHolds hBindCovered hTypeBody
      apply (hYields.excuse_mono fun _ _ hPart =>
        hPart.of_part (.body (synthesize_eq_ok.mp hRun) hSkim hMade)).bind
      rintro inner hRunInner ⟨θ', hHolds', hSame', hHeadBody⟩
      obtain ⟨rest, hRest, hRemoves⟩ :=
        (hSolver.sound hGood hMarked.settled_bind hRunInner).removes
      rw [hRest]
      refine ⟨θ', (hRemoves.satisfies θ').mpr hHolds', ?_, hHeadBody⟩
      change M.Agree (declared (pre ++ [.bind x made.scheme])) θ' θ₁ at hSame'
      rw [declared_append, Reading.agree_append] at hSame'
      exact (hSame'.1.mono hMarked.toExtends.declared_subset).trans hSame₁

end CompleteFor

/-- Synthesis is complete for every term, by induction on the term with one
lemma for each of its forms. -/
theorem CompleteSolver.completeFor (h : CompleteSolver D M excuse solve) (e : Term) :
    CompleteFor D M excuse solve e := by
  induction e with
  | var x => exact .var h x
  | lam x body ih => exact .lam h x ih
  | app function argument ihFunction ihArgument => exact .app h ihFunction ihArgument
  | letIn x bound body ihBound ihBody => exact .letIn h x ihBound ihBody
  | float value => exact .float h value

/-- Inference from bindings of closed schemes finds a type of which every type
of the term is an instance, or fails for a reason. -/
theorem infer_yields [Terminating L] {reason : TypeError → Prop}
    (h : CompleteSolver D M excuse (Logged.unifyWith false)) {s : State L} (hs : D.Closed s)
    {e : Term} (hExcuse : ∀ err, Excused excuse (Logged.unifyWith false) e s err → reason err)
    (hFinish : ∀ r, Synthesizes State.unify e s r → Sound D M e s r →
      Yields reason (Rules.finish (r.state.context.normalize.apply r.type.head)) fun _ => True)
    {v : M.algebra.Ty L.valueKind} (hTyping : Typing (M.environment s) e v) :
    Yields reason (infer s e) fun q => ∃ θ, M.eval θ L.valueKind q.head = v := by
  rw [result_infer]
  have hYields := h.completeFor e 0 hs.good hs.settled (hs.satisfies M M.algebra.var)
    (M.coveredBy_environment s) hTyping
  apply (hYields.excuse_mono fun err _ => hExcuse err).bind
  rintro r hRun ⟨θ, hθ, -, hHead⟩
  have hSynthesizes : Synthesizes State.unify e s r := by
    simpa only [Logged.result_unifyWith] using synthesize_eq_ok.mp hRun
  rw [resolveType]
  apply (hFinish r hSynthesizes (h.sound hs.good hs.settled hRun)).bind
  intro head hMade _
  obtain ⟨predicates, hReduce⟩ :=
    h.reduces (r.state.context.normalize.apply r.type.predicates) r.state.context.normalize
  rw [hReduce]
  refine ⟨θ, ?_⟩
  have hNormal := M.satisfies_normalize.mpr hθ
  change M.algebra.subst θ (M.denote L.valueKind head) = v
  rw [M.finish hMade]
  change M.eval θ L.valueKind (unwind (definitions _) r.type.head) = v
  rw [M.eval_unwind, M.extend_of_satisfies hNormal, hHead]

/-- The reason may be an excuse that does not depend on where solving started. -/
theorem infer_of_typing [Terminating L] {excuse : TypeError → Prop}
    (h : CompleteSolver D M (fun _ => excuse) (Logged.unifyWith false))
    (hFinish : ∀ t, Yields excuse (Rules.finish (L := L) t) fun _ => True) {s : State L}
    (hs : D.Closed s) {e : Term} {v : M.algebra.Ty L.valueKind}
    (hTyping : Typing (M.environment s) e v) :
    Yields excuse (infer s e) fun q => ∃ θ, M.eval θ L.valueKind q.head = v := by
  apply infer_yields h hs _ (fun _ _ _ => hFinish _) hTyping
  rintro err ⟨problem, -, -, hExcuse⟩
  exact hExcuse

end HindleyMilner
