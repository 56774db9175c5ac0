import HindleyMilner.Proofs.Units.Failure
import HindleyMilner.Proofs.Units.Inference
import HindleyMilner.Proofs.Units.Scoping

/-! Kinds while units are solved. In a well-kinded state value types stand where values
are equated and unit variables where units are. Steps keep states well-kinded, and in
them no step finds a type of the wrong kind. The solver does not look at bindings, so
nothing is asked of their schemes. -/
namespace HindleyMilner

open Context

variable {L : Language}

namespace Context

/-- The entries that bind no term variable. -/
def unbound (es : List (Entry L)) : List (Entry L) := es.filter fun e => e.binding?.isNone

theorem unbound_append (es fs : List (Entry L)) : unbound (es ++ fs) = unbound es ++ unbound fs :=
  List.filter_append es fs

theorem unbound_of_fixed_nil {es : List (Entry L)} (h : fixed es = []) : unbound es = es := by
  apply List.filter_eq_self.mpr
  intro e he
  have hNot := isFixed_of_fixed_nil h he
  cases e with
  | bind x scheme => cases hNot
  | _ => rfl

/-- Leaving out bindings leaves all variables declared. -/
theorem declared_unbound (es : List (Entry L)) : declared (unbound es) = declared es := by
  induction es with
  | nil => rfl
  | cons e es ih =>
      rw [declared_cons, ← ih]
      cases e with
      | bind x scheme => rfl
      | _ => exact declared_cons _ _

end Context

def State.unbound (s : State L) : State L := ⟨s.supply, ⟨Context.unbound s.context.entries⟩⟩

/-- Without bindings, entries make sense one after another if those do
that are no bindings. Leaving out bindings changes nothing about what is
declared before an entry. -/
theorem Sorting.scoped_unbound [Sized L] (S : Sorting L) {K : L.Telescope}
    {es : List (HindleyMilner.Entry L)} :
    S.Scoped K (unbound es) ↔ ∀ below e above, es = below ++ e :: above → e.binding? = none →
      S.Entry (K ++ declared below) e := by
  constructor
  · rintro h below e above rfl hBinding
    have hKept : unbound (e :: above) = e :: unbound above :=
      List.filter_cons_of_pos (by rw [hBinding]; rfl)
    rw [unbound_append, hKept, S.scoped_append, declared_unbound] at h
    exact h.2.1
  · intro h
    induction es generalizing K with
    | nil => trivial
    | cons e es ih =>
        have hRest : S.Scoped (K ++ e.declared) (unbound es) := by
          apply ih
          rintro below f above rfl hBinding
          have hLater := h (e :: below) f above rfl hBinding
          rwa [declared_cons, ← List.append_assoc] at hLater
        have hHead := h [] e es rfl
        rw [show declared ([] : List (HindleyMilner.Entry L)) = [] from rfl,
          List.append_nil] at hHead
        cases e with
        | bind x scheme =>
            rw [show (HindleyMilner.Entry.bind x scheme).declared = ([] : L.Telescope) from rfl,
              List.append_nil] at hRest
            exact hRest
        | _ => exact ⟨hHead rfl, hRest⟩

section

variable [Rules L] [Sized L] [FreeVars L.Special]

/-- A good state is good without its bindings. -/
theorem Discipline.Good.unbound {D : Discipline L} {s : State L} (h : D.Good s) :
    D.Good s.unbound := by
  refine ⟨⟨?_, ?_⟩, fun p hp => ?_⟩
  · apply D.scoped_unbound.mpr
    intro below e above hEntries _
    exact (D.scoped_iff.mp h.wellFormed.inScope) below e above hEntries
  · rw [State.unbound, declared_unbound]
    exact h.wellFormed.nodup
  · rw [State.unbound, declared_unbound] at hp
    exact h.drawn p hp

/-- Bindings play no part in a move: it either concerns other entries, or takes
a constraint past a binding, and then nothing is left of it. -/
theorem Move.unbound {old new : List (Entry L)} (h : Move old new) :
    Moves (unbound old) (unbound new) := by
  have hNew : fixed new = fixed old := h.toExtends.fixed_eq
  by_cases hNil : fixed old = []
  · rw [unbound_of_fixed_nil hNil, unbound_of_fixed_nil (hNew.trans hNil)]
    exact .of_move h
  · cases h with
    | @pass e c he hFree =>
        cases e with
        | bind x scheme => exact .refl
        | marker => exact .of_move (.pass he hFree)
        | declare d => exact .of_move (.pass he hFree)
        | _ => exact absurd rfl hNil
    | sink he =>
        rw [fixed_cons_of_not (Entry.isFixed_of_isVariable he)] at hNil
        exact absurd rfl hNil
    | _ => exact absurd rfl hNil

theorem Moves.unbound {es fs : List (Entry L)} (h : Moves es fs) :
    Moves (unbound es) (unbound fs) := by
  induction h with
  | refl => exact .refl
  | tail _ hLast ih =>
      apply ih.trans
      obtain ⟨pre, post, hMove⟩ := hLast
      simp only [unbound_append]
      exact hMove.unbound.middle _ _

end

namespace Units

theorem StepsTo.unbound {s t : State language} (h : StepsTo s t) : StepsTo s.unbound t.unbound := by
  obtain ⟨u, hSupply, hMoves, hLast⟩ := h
  refine ⟨u.unbound, hSupply, hMoves.unbound, hLast.imp (congrArg _) ?_⟩
  rintro ⟨pre, post, hMove⟩
  simp only [State.unbound, unbound_append, unbound_of_fixed_nil hMove.fixed_old,
    unbound_of_fixed_nil hMove.fixed_new]
  exact .mk _ _ hMove

/-- The types of an entry have the kinds that are asked for. -/
def KindedEntry (K : language.Telescope) : Entry language → Prop
  | .define _ type kind => HasKind K.Declares type kind
  | .constraint ⟨_, .eq l r⟩ => HasKind K.Declares l .value ∧ HasKind K.Declares r .value
  | .constraint ⟨_, .special (.hull x shape)⟩ =>
      HasKind K.Declares (.var x) .value ∧ HasKind K.Declares shape .value
  | .constraint ⟨_, .special (.identity unit)⟩ => ∀ x ∈ unit.vars.names, K.Declares x .unit
  | _ => True

/-- A well-formed state in which definitions have the kinds of their
variables, value types are equated with value types, and unit equations are
about unit variables. -/
structure WellKinded (s : State language) : Prop where
  wellFormed : s.WellFormed
  entries : ∀ e ∈ s.context.entries, KindedEntry (declared s.context.entries) e

/-- Apart from bindings, an entry is well-kinded as the discipline of kinds
says. What a constraint carries is declared by it, so it may be counted among
the variables of the state. -/
theorem kindedEntry_iff {K : language.Telescope} {e : Entry language} (he : e.binding? = none)
    (hCarried : e.carried ⊆ K) : KindedEntry K e ↔ kinding.Entry K e := by
  cases e with
  | define x type kind => rfl
  | bind x scheme => cases he
  | constraint c =>
      obtain ⟨deps, goal⟩ := c
      -- What the constraint carries is declared anyway.
      have hSame : Language.Telescope.Declares (K ++ deps) = K.Declares := by
        funext x j
        apply propext
        rw [Language.Telescope.Declares, List.mem_append]
        exact or_iff_left_of_imp fun hx => hCarried hx
      change _ ↔ kinding.Goal (Language.Telescope.Declares (K ++ deps)) goal
      rw [hSame]
      have hEquation : ∀ l r, kinding.Equation K.Declares l r ↔
          HasKind K.Declares l .value ∧ HasKind K.Declares r .value := fun l r =>
        ⟨by rintro ⟨_, rfl, hKinds⟩; exact hKinds, fun hKinds => ⟨.value, rfl, hKinds⟩⟩
      cases goal with
      | eq l r => exact (hEquation l r).symm
      | special g =>
          cases g with
          | hull x shape => exact (hEquation (.var x) shape).symm
          | identity unit => exact forall_congr' fun x => by rw [Measure.mem_names]
  | _ => exact ⟨fun _ => trivial, fun _ => trivial⟩

namespace WellKinded

/-- A well-kinded state without its bindings is good for the discipline of kinds. -/
theorem good_unbound {s : State language} (h : WellKinded s) : kinding.Good s.unbound := by
  refine ⟨⟨?_, ?_⟩, fun p hp hPending => ?_⟩
  · apply kinding.scoped_unbound.mpr
    intro below e above hEntries hBinding
    have he : e ∈ s.context.entries := by
      rw [hEntries]
      exact List.mem_append_right _ List.mem_cons_self
    have hCarried : e.carried ⊆ declared s.context.entries :=
      List.Subset.trans e.carried_subset fun p hp => List.mem_flatMap.mpr ⟨e, he, hp⟩
    apply h.wellFormed.entry_below hEntries
    exact (kindedEntry_iff hBinding hCarried).mp (h.entries e he)
  · rw [State.unbound, declared_unbound]
    exact h.wellFormed.nodup
  · rw [State.unbound, declared_unbound] at hp
    exact (h.wellFormed.drawn p.1 hPending).1 (List.mem_map_of_mem hp)

/-- A well-formed state is well-kinded if it is good for that discipline without
its bindings, which say nothing about the kinds of variables. -/
theorem of_good_unbound {s : State language} (hs : s.WellFormed) (h : kinding.Good s.unbound) :
    WellKinded s := by
  refine ⟨hs, fun e he => ?_⟩
  cases hBinding : e.binding? with
  | some b =>
      cases e with
      | bind x scheme => trivial
      | _ => cases hBinding
  | none =>
      have hCarried : e.carried ⊆ declared s.context.entries :=
        List.Subset.trans e.carried_subset fun p hp => List.mem_flatMap.mpr ⟨e, he, hp⟩
      obtain ⟨below, above, hEntries⟩ := List.append_of_mem he
      have hEntry := kinding.scoped_unbound.mp h.wellFormed.inScope below e above hEntries hBinding
      apply (kindedEntry_iff hBinding hCarried).mpr
      refine kinding.entry_mono ?_ hEntry
      rw [hEntries, declared_append]
      exact List.subset_append_left _ _

end WellKinded

/-- Steps keep states good without their bindings, since replacing entries does. -/
theorem good_unbound_step {s t : State language} (hs : kinding.Good s.unbound)
    (h : s.step = .ok t) : kinding.Good t.unbound :=
  (StepsTo.refines UnitMove.scoped_new UnitMove.satisfies_old hs (step_stepsTo h).unbound).good

def NotAboutKinds (e : TypeError) : Prop := ∀ expected found, e ≠ .kindMismatch expected found

/-- A definition of a variable of the first unit equation is a unit: the
equation uses the variable as one, and it is declared once. -/
theorem define_kind {f : Focus language} {deps : language.Telescope} {unit : Measure}
    (hs : kinding.Good (f.resume [.constraint ⟨deps, isOne unit⟩]).unbound) {x : Name} {type : Ty}
    {kind : Kind} {below : List (Entry language)} (hTop : f.below = .define x type kind :: below)
    (hx : unit.exponent x ≠ 0) : ∃ K, HasKind K type .unit := by
  obtain ⟨supply, _, above⟩ := f
  cases hTop
  rw [Focus.resume_cons] at hs
  have hScoped := kinding.scoped_unbound.mp hs.wellFormed.inScope
  have hType : HasKind (Language.Telescope.Declares ([] ++ declared below.reverse)) type kind :=
    hScoped below.reverse _ (.constraint ⟨deps, isOne unit⟩ :: above) rfl rfl
  have hGoal : kinding.Entry ([] ++ declared (below.reverse ++ [.define x type kind]))
      (.constraint ⟨deps, isOne unit⟩) := by
    refine hScoped _ _ above ?_ rfl
    rw [List.append_assoc]
    rfl
  rw [List.nil_append, declared_append] at hGoal
  have hNodup := hs.wellFormed.nodup
  rw [State.unbound, declared_unbound] at hNodup
  change ((declared (below.reverse ++ ([.define x type kind, .constraint ⟨deps, isOne unit⟩] ++
    above))).map Prod.fst).Nodup at hNodup
  rw [declared_append, declared_append, ← List.append_assoc, List.map_append] at hNodup
  obtain ⟨rfl, -⟩ := kinds_of_exponent rfl hx (List.nodup_append.mp hNodup).1 hGoal
  exact ⟨_, hType⟩

/-- A step finds no type of the wrong kind. Equated types are value types, and
what is substituted in a unit equation is a unit. -/
theorem step_failsOnly {s : State language} (hs : kinding.Good s.unbound) :
    FailsOnly NotAboutKinds s.step := by
  have hUnit : ∀ text, NotAboutKinds (.unitMismatch text) := fun _ _ _ h => nomatch h
  have hMalformed : ∀ reason, NotAboutKinds (.malformed reason) := fun _ _ _ h => nomatch h
  have hOccurs : ∀ x type, NotAboutKinds (.occurs x type) := fun _ _ _ _ h => nomatch h
  intro e h
  obtain ⟨⟨deps, goal⟩, f, rfl, hBelow, hSolve⟩ := State.step_eq_error h
  cases goal with
  | eq l r =>
      have hEntry := kinding.scoped_unbound.mp hs.wellFormed.inScope f.below.reverse _ f.above rfl
        rfl
      obtain ⟨_, rfl, hl, hr⟩ := hEntry
      refine Focus.solveEq_failsOnly hMalformed hOccurs ?_ (fun eq hSide => ?_) e hSolve
      · exact decompose_failsOnly hUnit (fun _ _ _ _ h => nomatch h) (.of_hasKind hl)
          (.of_hasKind hr)
      · have hRigid : KindedOr NotAboutKinds eq.rigid .value := by
          rcases hSide with hSide | hSide
          · rw [hSide]
            exact .of_hasKind hl
          · rw [hSide]
            exact .of_hasKind hr
        exact (equateHull_failsOnly hUnit f.supply deps hRigid).bind fun made _ => .ok _
  | special g =>
      cases g with
      | identity unit =>
          exact solveUnit_failsOnly hUnit (fun _ _ => hMalformed) (fun _ _ _ => hMalformed)
            (fun _ _ _ _ hTop hx => .inr (define_kind hs hTop hx)) e hSolve
      | hull x shape => exact Focus.walk_failsOnly hMalformed hOccurs _ deps _ e hSolve

/-- The rules of the language find no type of the wrong kind in what is
well-kinded. -/
theorem failureRules : FailureRules kinding NotAboutKinds where
  unbound _ _ _ h := nomatch h
  literal _ := .ok _
  reduce _ _ := .ok _
  finish h := Ty.canonical_failsOnly (fun _ _ _ h => nomatch h) (.of_hasKind h)
  solve _ hGood :=
    State.unify_failsOnly (fun s => kinding.Good s.unbound) good_unbound_step step_failsOnly
      hGood.unbound

/-- Steps keep states well-kinded and find no type of the wrong
kind. So inference from bindings of closed, well-kinded schemes
finds none, whatever the term. -/
theorem step_keeps_kinds :
    (∀ {s : State language}, WellKinded s → (∀ t, s.step = .ok t → WellKinded t) ∧
      ∀ expected found, s.step ≠ .error (.kindMismatch expected found)) ∧
    ∀ {s : State language}, kinding.Closed s → ∀ (e : Term) (expected found : String),
      infer s e ≠ .error (.kindMismatch expected found) := by
  constructor
  · intro s hs
    refine ⟨fun t hStep => ?_, fun expected found hError => ?_⟩
    · have hWellFormed := ((stepsRefine_scoping hs.wellFormed.good hStep).keeps hs.wellFormed).1
      exact .of_good_unbound hWellFormed (good_unbound_step hs.good_unbound hStep)
    · exact step_failsOnly hs.good_unbound _ hError expected found rfl
  · intro s hs e expected found hError
    exact failureRules.infer_failsOnly compatible stepsRefine hs.good hs.settled e _ hError
      expected found rfl

/-- A variable about to be equated with a number type whose unit is defined,
beside a unit equation and below a binding whose scheme is not well-kinded. -/
def measuredState : State language :=
  ⟨.empty, ⟨[.intro "a" .value, .intro "u" .unit, .define "v" (.pow (.var "u") 2) .unit,
    .bind "f" (.mono (.arrow (.var "u") (.var "v"))), .marker,
    .ofGoal (.eq (.var "a") (.arrow (.float (.var "v")) (.float (.prim "m")))),
    .ofGoal (isOne ⟨.ofMap ((∅ : NameMap Exponent).insert "u" 2), .zero⟩)]⟩⟩

theorem wellKinded_measuredState : WellKinded measuredState := by
  refine ⟨by decide +kernel, fun e he => ?_⟩
  have hDeclared : declared measuredState.context.entries =
      [("a", .value), ("u", .unit), ("v", .unit)] := rfl
  have ha : ("a", Kind.value) ∈ declared measuredState.context.entries := by simp [hDeclared]
  have hu : ("u", Kind.unit) ∈ declared measuredState.context.entries := by simp [hDeclared]
  have hv : ("v", Kind.unit) ∈ declared measuredState.context.entries := by simp [hDeclared]
  simp only [measuredState, List.mem_cons, List.not_mem_nil, or_false] at he
  rcases he with rfl | rfl | rfl | rfl | rfl | rfl | rfl
  · trivial
  · trivial
  · exact .pow (.var hu) 2
  · trivial
  · trivial
  · exact ⟨.var ha, .arrow (.float (.var hv)) (.float (.prim "m"))⟩
  · intro x hx
    have hNames : (Measure.mk (.ofMap ((∅ : NameMap Exponent).insert "u" 2)) .zero).vars.names =
        ["u"] := by decide +kernel
    rw [hNames] at hx
    rw [List.mem_singleton.mp hx]
    exact hu

theorem step_keeps_kinds_measured :
    (WellKinded measuredState ∧ ∃ t, measuredState.step = .ok t ∧ WellKinded t) ∧
    kinding.Closed measuringState ∧ ∀ expected found, infer measuringState
      (.app (.var "m") (.var "m")) ≠ .error (.kindMismatch expected found) := by
  have hStep : measuredState.step.isOk = true := by decide +kernel
  refine ⟨⟨wellKinded_measuredState, ?_⟩, closed_measuringState,
    step_keeps_kinds.2 closed_measuringState _⟩
  cases h : measuredState.step with
  | ok t => exact ⟨t, rfl, (step_keeps_kinds.1 wellKinded_measuredState).1 t h⟩
  | error e =>
      rw [h] at hStep
      cases hStep

end Units

end HindleyMilner
