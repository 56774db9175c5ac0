import HindleyMilner.Proofs.Refinement

/-! States that inference starts from: bindings of closed schemes, read as a typing
environment. -/
namespace HindleyMilner

open Context TypeAlgebra

variable {L : Language} [Rules L] [Sized L] [FreeVars L.Special]

/-- A state that holds nothing but bindings, whose schemes use
quantified variables only. -/
def Discipline.Closed (D : Discipline L) (s : State L) : Prop :=
  ∀ e ∈ s.context.entries, ∃ x scheme, e = .bind x scheme ∧ D.Scheme (fun _ _ => False) scheme

namespace Discipline.Closed

variable {D : Discipline L} {s : State L} (h : D.Closed s)

include h

/-- Bindings are no constraints, so there is nothing to solve. -/
theorem settled : Settled s.context.entries := by
  intro e he
  obtain ⟨x, scheme, rfl, -⟩ := h e he
  rfl

theorem declared_eq : declared s.context.entries = [] := by
  apply List.flatMap_eq_nil_iff.mpr
  intro e he
  obtain ⟨x, scheme, rfl, -⟩ := h e he
  rfl

theorem scheme {x : Name} {scheme : L.Scheme} (hMem : (x, scheme) ∈ bindings s.context.entries) :
    D.Scheme (fun _ _ => False) scheme := by
  obtain ⟨y, other, hBind, hScheme⟩ := h _ (mem_bindings.mp hMem)
  cases hBind
  exact hScheme

/-- A state of closed bindings is good: variables are declared once because
there are none, and every scheme makes sense without any. -/
theorem good : D.Good s := by
  refine ⟨⟨?_, ?_⟩, fun p hp => ?_⟩
  · have hScoped : ∀ (es : List (Entry L)) (K : L.Telescope),
        (∀ e ∈ es, e ∈ s.context.entries) → D.Scoped K es := by
      intro es
      induction es with
      | nil => exact fun _ _ => trivial
      | cons e es ih =>
          intro K hes
          obtain ⟨x, scheme, rfl, hScheme⟩ := h e (hes e List.mem_cons_self)
          exact ⟨D.scheme_mono (fun _ _ hFalse => hFalse.elim) hScheme,
            ih _ fun f hf => hes f (List.mem_cons_of_mem _ hf)⟩
    exact hScoped _ _ fun _ he => he
  · rw [h.declared_eq]
    exact List.nodup_nil
  · rw [h.declared_eq] at hp
    cases hp

/-- There is nothing to solve, so variables may stand for themselves. -/
theorem satisfies (M : Model L) (θ : M.Valuation) : M.Satisfies θ s.context.entries := by
  intro e he
  obtain ⟨x, scheme, rfl, -⟩ := h e he
  trivial

end Discipline.Closed

/-- The bindings of a state as a typing environment. -/
def Model.environment (M : Model L) (s : State L) : M.algebra.Env :=
  (bindings s.context.entries).map fun b =>
    (b.1, ⟨b.2.quantified, M.denote L.valueKind b.2.body.head⟩)

namespace Model

variable {M : Model L} {D : Discipline L}

/-- The environment that is read off a state of closed bindings covers it: what
a scheme stands for is an instance of the scheme in the environment. -/
theorem covers_environment [DecidableEq L.Kind] (hCompatible : M.Compatible D) {s : State L}
    (hs : D.Closed s) :
    Covers (M.environment s) (M.uses M.algebra.var (bindings s.context.entries)) := by
  have hSchemes : ∀ b ∈ bindings s.context.entries, D.Scheme (fun _ _ => False) b.2 :=
    fun b hb => hs.scheme hb
  rw [environment]
  revert hSchemes
  induction bindings s.context.entries with
  | nil => exact fun _ => .nil
  | cons b bs ih =>
      intro hSchemes
      refine .cons ⟨rfl, ?_⟩ (ih fun c hc => hSchemes c (List.mem_cons_of_mem _ hc))
      rintro v ⟨η, hη, rfl⟩
      refine ⟨fun x k => if (x, k) ∈ b.2.quantified then η x k else M.algebra.var x k,
        fun x k hx => if_neg hx, ?_⟩
      apply M.algebra.subst_congr
      intro p hp
      rcases hCompatible (hSchemes b List.mem_cons_self) p hp with hQuantified | ⟨-, hFalse⟩
      · have hMem : p ∈ b.2.quantified := List.mem_reverse.mp (Name.mem_of_lookup hQuantified)
        exact (if_pos hMem).symm
      · exact hFalse.elim

omit [FreeVars L.Special] in
/-- It is also covered by the state: every instance of a scheme in the
environment is a type that the scheme stands for. -/
theorem coveredBy_environment (M : Model L) (s : State L) :
    CoveredBy (M.environment s) (M.uses M.algebra.var (bindings s.context.entries)) := by
  rw [environment]
  induction bindings s.context.entries with
  | nil => exact .nil
  | cons b bs ih =>
      refine .cons ⟨rfl, ?_⟩ ih
      rintro v ⟨η, hη, rfl⟩
      refine ⟨η, fun x hx => ?_, rfl⟩
      funext k
      exact hη x k fun hMem => hx (List.mem_map_of_mem hMem)

end Model

end HindleyMilner
