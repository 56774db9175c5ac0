import HindleyMilner.Proofs.Failure
import HindleyMilner.Proofs.Units.Unification

/-! How operations on types with units fail. Arithmetic fails by leaving the range of
exponents, and conversions fail also by finding a type of the wrong kind, which they do
not where types are well-kinded. -/
namespace HindleyMilner.Units

open Context

variable {P : TypeError → Prop} (hUnit : ∀ text, P (.unitMismatch text))

namespace Measure

include hUnit

/-- Arithmetic on units fails where an exponent does not fit, and names the unit. -/
theorem ofExponents_failsOnly (u : Measure) (a b : Option Exponents) :
    FailsOnly P (ofExponents u.outOfRange a b) := by
  unfold ofExponents
  split
  · exact .ok _
  · exact .error (hUnit _)

theorem add_failsOnly (u v : Measure) : FailsOnly P (u.add v) := ofExponents_failsOnly hUnit u _ _

theorem mapExponents_failsOnly (u : Measure) (f : Exponent → Option Exponent) :
    FailsOnly P (u.mapExponents f) :=
  ofExponents_failsOnly hUnit u _ _

theorem scale_failsOnly (u : Measure) (n : Exponent) : FailsOnly P (u.scale n) :=
  mapExponents_failsOnly hUnit u _

theorem subtract_failsOnly (u v : Measure) : FailsOnly P (u.subtract v) :=
  (scale_failsOnly hUnit v (-1)).bind fun w _ => add_failsOnly hUnit u w

theorem divide_failsOnly (u : Measure) (d : Exponent) : FailsOnly P (u.divide d) :=
  mapExponents_failsOnly hUnit u _

theorem pivot_failsOnly (u : Measure) (x : Name) : FailsOnly P (u.pivot x) := by
  simp only [pivot]
  split
  · exact .ok _
  · apply (scale_failsOnly hUnit _ _).bind
    intro power _
    apply (subtract_failsOnly hUnit u power).bind
    intro rest _
    apply (divide_failsOnly hUnit rest _).bind
    exact fun quotient _ => scale_failsOnly hUnit quotient _

/-- So does a substitution, in each of its three parts. -/
theorem substitute_failsOnly (u : Measure) (x : Name) (v : Measure) :
    FailsOnly P (u.substitute x v) := by
  apply (subtract_failsOnly hUnit v (var x)).bind
  intro difference _
  apply (scale_failsOnly hUnit difference _).bind
  exact fun change _ => add_failsOnly hUnit change u

end Measure

/-- A type has a kind, unless errors about kinds are allowed. -/
def KindedOr (P : TypeError → Prop) (t : Ty) (k : Kind) : Prop :=
  (∀ expected found, P (.kindMismatch expected found)) ∨ ∃ K, HasKind K t k

namespace KindedOr

variable {t a b : Ty} {k j : Kind}

theorem of_hasKind {K : language.Scope} (h : HasKind K t k) : KindedOr P t k := .inr ⟨K, h⟩

/-- The parts of a type that is of its kind, or may be blamed for its
kind, are so in turn. -/
theorem arrow (h : KindedOr P (.arrow a b) .value) :
    KindedOr P a .value ∧ KindedOr P b .value := by
  rcases h with hAny | ⟨K, hKind⟩
  · exact ⟨.inl hAny, .inl hAny⟩
  · cases hKind with
    | arrow ha hb => exact ⟨of_hasKind ha, of_hasKind hb⟩

theorem float (h : KindedOr P (.float t) .value) : KindedOr P t .unit := by
  rcases h with hAny | ⟨K, hKind⟩
  · exact .inl hAny
  · cases hKind with
    | float hu => exact of_hasKind hu

theorem mul (h : KindedOr P (.mul a b) .unit) : KindedOr P a .unit ∧ KindedOr P b .unit := by
  rcases h with hAny | ⟨K, hKind⟩
  · exact ⟨.inl hAny, .inl hAny⟩
  · cases hKind with
    | mul ha hb => exact ⟨of_hasKind ha, of_hasKind hb⟩

theorem pow {e : Exponent} (h : KindedOr P (.pow t e) .unit) : KindedOr P t .unit := by
  rcases h with hAny | ⟨K, hKind⟩
  · exact .inl hAny
  · cases hKind with
    | pow ha => exact of_hasKind ha

theorem any (h : KindedOr P t k) (hNone : ∀ K, ¬HasKind K t k) (expected found : String) :
    P (.kindMismatch expected found) := by
  rcases h with hAny | ⟨K, hKind⟩
  · exact hAny _ _
  · exact absurd hKind (hNone K)

end KindedOr

namespace Ty

include hUnit

/-- The normal form of a unit fails where an exponent does not fit, or where
there is a type that is no unit. -/
theorem toMeasure_failsOnly {t : Ty} (h : KindedOr P t .unit) : FailsOnly P t.toMeasure := by
  induction t with
  | mul a b iha ihb =>
      apply (iha h.mul.1).bind
      intro u _
      apply (ihb h.mul.2).bind
      exact fun v _ => Measure.add_failsOnly hUnit u v
  | pow a e ih => exact (ih h.pow).bind fun u _ => Measure.scale_failsOnly hUnit u e
  | arrow a b => exact .error (h.any (fun _ hKind => nomatch hKind) _ _)
  | float u => exact .error (h.any (fun _ hKind => nomatch hKind) _ _)
  | _ => exact .ok _

theorem canonical_failsOnly {t : Ty} (h : KindedOr P t .value) : FailsOnly P t.canonical := by
  induction t with
  | arrow a b iha ihb =>
      apply (iha h.arrow.1).bind
      intro c _
      apply (ihb h.arrow.2).bind
      exact fun d _ => .ok _
  | float u => exact (toMeasure_failsOnly hUnit h.float).bind fun m _ => .ok _
  | mul a b =>
      exact (toMeasure_failsOnly hUnit (.inl (h.any fun _ hKind => nomatch hKind))).bind
        fun m _ => .ok _
  | pow a e =>
      exact (toMeasure_failsOnly hUnit (.inl (h.any fun _ hKind => nomatch hKind))).bind
        fun m _ => .ok _
  | _ => exact .ok _

omit hUnit in
/-- A hull fails where there is a type of the wrong kind. -/
theorem hull_failsOnly (supply : Supply) {t : Ty} (h : KindedOr P t .value) :
    FailsOnly P (t.hull supply) := by
  induction t generalizing supply with
  | var x => exact .ok _
  | arrow a b iha ihb =>
      apply (iha supply h.arrow.1).bind
      intro left _
      apply (ihb left.supply h.arrow.2).bind
      exact fun right _ => .ok _
  | float u => exact .ok _
  | _ => exact .error (h.any (fun _ hKind => nomatch hKind) _ _)

end Ty

include hUnit

/-- The equations for the holes of a hull fail as the normal forms of their
units do. -/
theorem holeGoals_failsOnly {holes : List (Name × Ty)} (h : ∀ p ∈ holes, KindedOr P p.2 .unit) :
    FailsOnly P (holeGoals holes) := by
  induction holes with
  | nil => exact .ok _
  | cons p holes ih =>
      apply (Ty.toMeasure_failsOnly hUnit (h p List.mem_cons_self)).bind
      intro unit _
      apply (Measure.subtract_failsOnly hUnit _ unit).bind
      intro quotient _
      exact (ih fun q hq => h q (List.mem_cons_of_mem _ hq)).bind fun goals _ => .ok _

/-- Two types are taken apart unless they differ in form, or unless their units
cannot be compared. -/
theorem decompose_failsOnly (hMismatch : ∀ l r, P (.mismatch l r)) {l r : Ty}
    (hl : KindedOr P l .value) (hr : KindedOr P r .value) : FailsOnly P (decompose l r) := by
  unfold decompose
  split
  · exact .ok _
  · apply (Ty.toMeasure_failsOnly hUnit hl.float).bind
    intro m _
    apply (Ty.toMeasure_failsOnly hUnit hr.float).bind
    intro n _
    exact (Measure.subtract_failsOnly hUnit m n).bind fun quotient _ => .ok _
  · exact .error (hMismatch _ _)

/-- Equating a variable with a hull fails as the hull and its equations do. -/
theorem equateHull_failsOnly (supply : Supply) (deps : language.Telescope)
    {eq : FlexRigid language} (h : KindedOr P eq.rigid .value) :
    FailsOnly P (equateHull supply deps eq) := by
  apply (Ty.hull_failsOnly supply h).bind
  intro hull hHull
  refine (holeGoals_failsOnly hUnit fun p hp => ?_).bind fun goals _ => .ok _
  refine h.imp_right ?_
  rintro ⟨K, hKind⟩
  exact ⟨K, (hull_kinds hHull hKind).1 p hp⟩

/-- An elimination fails as the arithmetic does, or where one variable is left
that cannot be solved for. -/
theorem eliminate_failsOnly (f : Focus language) (deps : language.Telescope) (unit : Measure)
    (x : Name) (kind : Kind) : FailsOnly P (eliminate f deps unit x kind) := by
  rw [eliminate]
  split
  · exact (Measure.pivot_failsOnly hUnit unit x).bind fun _ _ => .ok _
  · split
    · apply (Measure.pivot_failsOnly hUnit unit x).bind
      intro quotient _
      apply (Measure.add_failsOnly hUnit quotient _).bind
      intro solution _
      exact (Measure.substitute_failsOnly hUnit unit x solution).bind fun _ _ => .ok _
    · split
      · exact .ok _
      · exact .error (hUnit _)

/-- A unit equation blames the context where nothing, or a constraint, stands
below it. The definition of one of its variables is read as a unit. -/
theorem solveUnit_failsOnly {f : Focus language} {deps : language.Telescope} {unit : Measure}
    (hEmpty : f.below = [] → unit.isConstant = false → ∀ reason, P (.malformed reason))
    (hFirst : ∀ c below, f.below = .constraint c :: below → ∀ reason, P (.malformed reason))
    (hKinds : ∀ x type kind below, f.below = .define x type kind :: below →
      unit.exponent x ≠ 0 → KindedOr P type .unit) : FailsOnly P (solveUnit f deps unit) := by
  obtain ⟨supply, below, above⟩ := f
  rw [solveUnit]
  split
  · exact .ok _
  · by_cases hConstant : unit.isConstant = true
    · rw [if_pos hConstant]
      exact .error (hUnit _)
    · rw [if_neg hConstant]
      cases below with
      | nil => exact .error (hEmpty rfl (eq_false_of_ne_true hConstant) _)
      | cons top below =>
          cases top with
          | intro x kind =>
              simp only [Focus.pop, bind, Except.bind]
              split
              · exact .ok _
              · exact eliminate_failsOnly hUnit _ deps unit x kind
          | define x type kind =>
              simp only [Focus.pop, bind, Except.bind]
              by_cases hx : unit.exponent x = 0
              · rw [if_pos hx]
                exact .ok _
              · rw [if_neg hx]
                apply (Ty.toMeasure_failsOnly hUnit (hKinds x type kind below rfl hx)).bind
                intro value _
                exact (Measure.substitute_failsOnly hUnit unit x value).bind fun _ _ => .ok _
          | constraint c => exact .error (hFirst c below rfl _)
          | _ => exact .ok _

end HindleyMilner.Units
