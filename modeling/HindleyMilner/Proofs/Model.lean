import HindleyMilner.Inference
import HindleyMilner.Proofs.Freshness
import HindleyMilner.Proofs.Typing
import HindleyMilner.Proofs.WellFormed

/-! What contexts mean. The types of a language are read in an algebra of types,
and a context asks for values of its variables: those under which its definitions
and its constraints hold. -/
namespace HindleyMilner

open Context

/-- How types and goals are read. A type is read at every kind; what comes out
at a kind it does not have is of no interest. -/
structure Reading (L : Language) where
  algebra : TypeAlgebra L.Kind L.valueKind
  denote : (k : L.Kind) → L.Ty → algebra.Ty k
  /-- Whether a goal that equates no types holds. -/
  Special : algebra.Valuation → L.Special → Prop

variable {L : Language}

namespace Reading

variable (M : Reading L)

abbrev Valuation := M.algebra.Valuation

def eval (θ : M.Valuation) (k : L.Kind) (t : L.Ty) : M.algebra.Ty k :=
  M.algebra.subst θ (M.denote k t)

/-- The values of variables after a substitution. -/
def assign (θ : M.Valuation) (σ : Assignment L.Ty) : M.Valuation := fun x k =>
  match σ x with
  | some u => M.eval θ k u
  | none => θ x k

/-- The values of variables when some of them are defined, the first one first. -/
def extend (θ : M.Valuation) : List (Name × L.Ty) → M.Valuation
  | [] => θ
  | d :: defs => extend (M.assign θ (.single d.1 d.2)) defs

/-- The types that a scheme stands for. -/
def Denotes (θ : M.Valuation) (s : L.Scheme) (v : M.algebra.Ty L.valueKind) : Prop :=
  ∃ η : M.Valuation, (∀ x, x ∉ s.quantified.map Prod.fst → η x = θ x) ∧
    v = M.eval η L.valueKind s.body.head

/-- The types that the variables of some bindings may be used at. -/
def uses (θ : M.Valuation) (bs : List (Name × L.Scheme)) : M.algebra.Uses :=
  bs.map fun b => (b.1, M.Denotes θ b.2)

/-- Two valuations give some variables the same values at their kinds. -/
def Agree (K : L.Telescope) (θ θ' : M.Valuation) : Prop := ∀ p ∈ K, θ p.1 p.2 = θ' p.1 p.2

variable {M} in
theorem Agree.symm {K : L.Telescope} {θ θ' : M.Valuation} (h : M.Agree K θ θ') :
    M.Agree K θ' θ := fun p hp => (h p hp).symm

variable {M} in
theorem Agree.trans {K : L.Telescope} {θ θ' θ'' : M.Valuation} (h : M.Agree K θ θ')
    (h' : M.Agree K θ' θ'') : M.Agree K θ θ'' := fun p hp => (h p hp).trans (h' p hp)

variable {M} in
theorem Agree.mono {K K' : L.Telescope} {θ θ' : M.Valuation} (h : M.Agree K θ θ')
    (hSubset : K' ⊆ K) : M.Agree K' θ θ' := fun p hp => h p (hSubset hp)

variable {M} in
/-- Valuations agree on some variables and on others if they do so on all of
them. -/
theorem agree_append {K K' : L.Telescope} {θ θ' : M.Valuation} :
    M.Agree (K ++ K') θ θ' ↔ M.Agree K θ θ' ∧ M.Agree K' θ θ' := by
  simp only [Agree, List.mem_append, or_imp, forall_and]

variable [Sized L]

def Solves (θ : M.Valuation) : Goal L → Prop
  | .eq l r => M.eval θ L.valueKind l = M.eval θ L.valueKind r
  | .special g =>
      match Sized.specialSides g with
      | some (l, r) => M.eval θ L.valueKind l = M.eval θ L.valueKind r
      | none => M.Special θ g

def Holds (θ : M.Valuation) : Entry L → Prop
  | .define x type _ => ∀ k, θ x k = M.eval θ k type
  | .constraint c => M.Solves θ c.goal
  | _ => True

def Satisfies (θ : M.Valuation) (es : List (Entry L)) : Prop := ∀ e ∈ es, M.Holds θ e

/-- A goal that equates two types is solved where these have the same value. -/
theorem solves_of_sides {θ : M.Valuation} {g : Goal L} {l r : L.Ty} (h : g.sides = some (l, r)) :
    M.Solves θ g ↔ M.eval θ L.valueKind l = M.eval θ L.valueKind r := by
  cases g with
  | eq a b => cases h; rfl
  | special g => simp only [Solves, show Sized.specialSides g = some (l, r) from h]

/-- A solution of more entries is one of each part. -/
theorem satisfies_append {θ : M.Valuation} {es fs : List (Entry L)} :
    M.Satisfies θ (es ++ fs) ↔ M.Satisfies θ es ∧ M.Satisfies θ fs := by
  simp only [Satisfies, List.mem_append, or_imp, forall_and]

theorem satisfies_cons {θ : M.Valuation} {e : Entry L} {es : List (Entry L)} :
    M.Satisfies θ (e :: es) ↔ M.Holds θ e ∧ M.Satisfies θ es := by
  simp only [Satisfies, List.mem_cons, forall_eq_or_imp]

theorem satisfies_nil {θ : M.Valuation} : M.Satisfies θ [] := fun _ he => nomatch he

/-- Introducing variables asks nothing of their values. -/
theorem satisfies_intros (θ : M.Valuation) (deps : L.Telescope) :
    M.Satisfies θ deps.intros := by
  intro e he
  obtain ⟨d, -, rfl⟩ := List.mem_map.mp he
  trivial

end Reading

/-- A reading that respects substitution and the rules of the language: what
takes the place of a goal implies it. -/
structure Model (L : Language) [Rules L] [Sized L] extends Reading L where
  asVar_var : ∀ x k, L.asVar? (L.var x k) = some x
  denote_var : ∀ {t : L.Ty} {x : Name}, L.asVar? t = some x → ∀ k, denote k t = algebra.var x k
  denote_arrow : ∀ a b,
    denote L.valueKind (L.arrow a b) =
      algebra.arrow (denote L.valueKind a) (denote L.valueKind b)
  denote_subst : ∀ (σ : Assignment L.Ty) (k : L.Kind) (t : L.Ty),
    denote k (subst σ t) = algebra.subst (toReading.assign algebra.var σ) (denote k t)
  freeVars_denote : ∀ {k : L.Kind} {t : L.Ty}, ∀ p ∈ algebra.freeVars (denote k t),
    p.1 ∈ freeVars t
  decompose : ∀ {θ : algebra.Valuation} {l r : L.Ty} {goals : List (Goal L)},
    Rules.decompose l r = .ok goals → (∀ g ∈ goals, toReading.Solves θ g) →
    toReading.eval θ L.valueKind l = toReading.eval θ L.valueKind r
  literal : ∀ {value : Binary64} {t : L.Ty}, Rules.literal value = .ok t →
    algebra.literal? = some (denote L.valueKind t)
  finish : ∀ {t u : L.Ty}, Rules.finish t = .ok u →
    denote L.valueKind u = denote L.valueKind t

namespace Model

variable [Rules L] [Sized L] (M : Model L)

/-- Where variables stand for themselves, a type has the value that it denotes. -/
theorem eval_id (k : L.Kind) (t : L.Ty) : M.eval M.algebra.var k t = M.denote k t :=
  M.algebra.subst_id _

theorem eval_var {t : L.Ty} {x : Name} (h : L.asVar? t = some x) (θ : M.Valuation) (k : L.Kind) :
    M.eval θ k t = θ x k := by
  rw [Reading.eval, M.denote_var h, M.algebra.subst_var]

/-- An arrow is read as an arrow between the values of its sides. -/
theorem eval_arrow (θ : M.Valuation) (a b : L.Ty) :
    M.eval θ L.valueKind (L.arrow a b) =
      M.algebra.arrow (M.eval θ L.valueKind a) (M.eval θ L.valueKind b) := by
  rw [Reading.eval, M.denote_arrow, M.algebra.subst_arrow]
  rfl

/-- The value of a type depends on the variables that occur in it. -/
theorem eval_congr {θ θ' : M.Valuation} {t : L.Ty} (h : ∀ x ∈ freeVars t, θ x = θ' x)
    (k : L.Kind) : M.eval θ k t = M.eval θ' k t := by
  apply M.algebra.subst_congr
  intro p hp
  rw [h _ (M.freeVars_denote p hp)]

/-- The value of a type after a substitution is its value where the substituted
variables have the values of their types. -/
theorem eval_subst (θ : M.Valuation) (σ : Assignment L.Ty) (k : L.Kind) (t : L.Ty) :
    M.eval θ k (subst σ t) = M.eval (M.assign θ σ) k t := by
  rw [Reading.eval, M.denote_subst, M.algebra.subst_subst]
  apply M.algebra.subst_congr
  intro p _
  unfold Reading.assign
  cases σ p.1 with
  | some u => exact congrArg _ (M.eval_id p.2 u)
  | none => exact M.algebra.subst_var θ p.1 p.2

/-- Substituting a definition changes nothing where the definition holds. -/
theorem assign_single {θ : M.Valuation} {x : Name} {u : L.Ty} (h : ∀ k, θ x k = M.eval θ k u) :
    M.assign θ (.single x u) = θ := by
  funext y k
  unfold Reading.assign Assignment.single
  by_cases hy : y = x
  · subst hy
    rw [if_pos rfl]
    exact (h k).symm
  · rw [if_neg hy]

/-- So a definition that holds may be substituted without changing values. -/
theorem eval_subst1 {θ : M.Valuation} {x : Name} {u : L.Ty} (h : ∀ k, θ x k = M.eval θ k u)
    (k : L.Kind) (t : L.Ty) : M.eval θ k (subst1 x u t) = M.eval θ k t := by
  rw [subst1, M.eval_subst, M.assign_single h]

/-- A scheme without quantified variables stands for the value of its type alone. -/
theorem denotes_mono (θ : M.Valuation) (t : L.Ty) (v : M.algebra.Ty L.valueKind) :
    M.Denotes θ (.mono t) v ↔ v = M.eval θ L.valueKind t := by
  constructor
  · rintro ⟨η, hη, rfl⟩
    rw [show η = θ from funext fun x => hη x List.not_mem_nil]
    rfl
  · exact fun hv => ⟨θ, fun _ _ => rfl, hv⟩

/-- To unwind definitions is to evaluate where they have been made to hold, from
the first to the last. -/
theorem eval_unwind (θ : M.Valuation) (defs : List (Name × L.Ty)) (k : L.Kind) (t : L.Ty) :
    M.eval θ k (unwind defs t) = M.eval (M.extend θ defs) k t := by
  induction defs generalizing θ with
  | nil => rfl
  | cons d defs ih =>
      change M.eval θ k (subst1 d.1 d.2 (unwind defs t)) = _
      rw [subst1, M.eval_subst, ih]
      rfl

theorem assign_of_not_mem (θ : M.Valuation) {x y : Name} (u : L.Ty) (h : y ≠ x) :
    M.assign θ (.single x u) y = θ y := by
  funext k
  simp only [Reading.assign, Assignment.single, if_neg h]

theorem assign_single_self (θ : M.Valuation) (x : Name) (u : L.Ty) (k : L.Kind) :
    M.assign θ (.single x u) x k = M.eval θ k u := by
  simp only [Reading.assign, Assignment.single, if_pos]

/-- Variables that are not defined keep their values. -/
theorem extend_of_not_mem (θ : M.Valuation) {defs : List (Name × L.Ty)} {y : Name}
    (h : y ∉ defs.map Prod.fst) : M.extend θ defs y = θ y := by
  induction defs generalizing θ with
  | nil => rfl
  | cons d defs ih =>
      rw [List.map_cons, List.mem_cons, not_or] at h
      rw [Reading.extend, ih _ h.2, M.assign_of_not_mem θ d.2 h.1]

/-- Where the definitions hold already, nothing is changed. -/
theorem extend_of_satisfies {θ : M.Valuation} {es : List (Entry L)} (h : M.Satisfies θ es) :
    M.extend θ (definitions es) = θ := by
  induction es with
  | nil => rfl
  | cons e es ih =>
      obtain ⟨hHead, hRest⟩ := M.satisfies_cons.mp h
      cases e with
      | define x type kind =>
          change M.extend (M.assign θ (.single x type)) (definitions es) = θ
          rw [M.assign_single hHead, ih hRest]
      | _ => exact ih hRest

/-- No move of the solver loses a condition: what solves the new entries solves
the old ones. Where a constraint passes a definition, the definition holds, so
that it may be substituted. -/
theorem satisfies_of_move [FreeVars L.Special] {θ : M.Valuation} {old new : List (Entry L)}
    (h : Move old new) (hNew : M.Satisfies θ new) : M.Satisfies θ old := by
  cases h with
  | recast =>
      rw [M.satisfies_cons] at hNew ⊢
      exact ⟨Eq.symm hNew.1, hNew.2⟩
  | lower deps g =>
      rw [M.satisfies_append, M.satisfies_cons] at hNew
      exact M.satisfies_cons.mpr hNew.2
  | sink =>
      rw [M.satisfies_cons, M.satisfies_cons] at hNew ⊢
      exact ⟨hNew.2.1, hNew.1, hNew.2.2⟩
  | pass =>
      rw [M.satisfies_cons, M.satisfies_cons] at hNew ⊢
      exact ⟨hNew.2.1, hNew.1, hNew.2.2⟩
  | lift =>
      rw [M.satisfies_cons] at hNew ⊢
      exact ⟨trivial, M.satisfies_cons.mpr hNew⟩
  | unfold hSides =>
      rw [M.satisfies_cons, M.satisfies_cons] at hNew ⊢
      obtain ⟨hGoal, hDefine, hNil⟩ := hNew
      refine ⟨hDefine, (M.solves_of_sides hSides).mpr ?_, hNil⟩
      have hEq : M.eval θ _ (subst1 _ _ _) = M.eval θ _ (subst1 _ _ _) := hGoal
      rwa [M.eval_subst1 hDefine, M.eval_subst1 hDefine] at hEq
  | solve hSides hVar hFree =>
      rw [M.satisfies_cons] at hNew
      rw [M.satisfies_cons, M.satisfies_cons]
      refine ⟨trivial, (M.solves_of_sides hSides).mpr ?_, hNew.2⟩
      rw [M.eval_var hVar]
      exact hNew.1 _
  | drop hLeft hRight =>
      refine M.satisfies_cons.mpr ⟨?_, M.satisfies_nil⟩
      change M.eval θ _ _ = M.eval θ _ _
      rw [M.eval_var hLeft, M.eval_var hRight]
  | split h =>
      refine M.satisfies_cons.mpr ⟨M.decompose h fun g hg => ?_, M.satisfies_nil⟩
      exact hNew _ (List.mem_map_of_mem hg)

/-- By induction, no sequence of moves does. -/
theorem satisfies_of_moves [FreeVars L.Special] {θ : M.Valuation} {es fs : List (Entry L)}
    (h : Moves es fs) (hNew : M.Satisfies θ fs) : M.Satisfies θ es := by
  induction h with
  | refl => exact hNew
  | tail _ hLast ih =>
      obtain ⟨pre, post, hMove⟩ := hLast
      apply ih
      rw [M.satisfies_append, M.satisfies_append] at hNew ⊢
      exact ⟨hNew.1, M.satisfies_of_move hMove hNew.2.1, hNew.2.2⟩

section

variable [FreeVars L.Special] (D : Discipline L)

/-- Whether entries without constraints hold depends on the values of the
variables that are declared. -/
theorem satisfies_congr {θ θ' : M.Valuation} {K : L.Telescope} {es : List (Entry L)}
    (hSettled : Settled es) (hScoped : D.Scoped K es)
    (h : ∀ p ∈ K ++ declared es, θ p.1 = θ' p.1) (hHolds : M.Satisfies θ es) :
    M.Satisfies θ' es := by
  induction es generalizing K with
  | nil => exact M.satisfies_nil
  | cons e es ih =>
      rw [M.satisfies_cons] at hHolds ⊢
      have hHead := hSettled e List.mem_cons_self
      rw [declared_cons, ← List.append_assoc] at h
      refine ⟨?_, ih (fun f hf => hSettled f (List.mem_cons_of_mem _ hf)) hScoped.2 h hHolds.2⟩
      cases e with
      | define x type kind =>
          intro k
          have hx : θ x = θ' x := by
            apply h (x, kind)
            exact List.mem_append_left _ (List.mem_append_right _ List.mem_cons_self)
          have hType : M.eval θ k type = M.eval θ' k type := by
            refine M.eval_congr (fun y hy => ?_) k
            obtain ⟨j, hj⟩ := D.ty_declared hScoped.1 y hy
            exact h (y, j) (List.mem_append_left _ (List.mem_append_left _ hj))
          rw [← hx, ← hType]
          exact hHolds.1 k
      | constraint c => cases hHead
      | _ => trivial

/-- The variables of the value of a type are those that the type may use, at the
kinds it may use them at. -/
def Compatible : Prop := ∀ {K : L.Scope} {t : L.Ty} {k : L.Kind}, D.Ty K t k →
  ∀ p ∈ M.algebra.freeVars (M.denote k t), K p.1 p.2

variable {M D}

/-- The value of a type that makes sense depends on its variables at the kinds
they are declared with. -/
theorem eval_agree (hCompatible : M.Compatible D) {θ θ' : M.Valuation} {K : L.Telescope}
    {t : L.Ty} {k : L.Kind} (hTy : D.Ty K.Declares t k) (h : M.Agree K θ θ') :
    M.eval θ k t = M.eval θ' k t := by
  apply M.algebra.subst_congr
  intro p hp
  exact h p (hCompatible hTy p hp)

/-- So does what a scheme stands for, where its free variables are declared. -/
theorem denotes_congr (hCompatible : M.Compatible D) {θ θ' : M.Valuation} {K : L.Telescope}
    {s : L.Scheme} (hScheme : D.Scheme K.Declares s) (h : M.Agree K θ θ')
    {v : M.algebra.Ty L.valueKind} (hv : M.Denotes θ s v) : M.Denotes θ' s v := by
  obtain ⟨η, hη, rfl⟩ := hv
  refine ⟨fun x => if x ∈ s.quantified.map Prod.fst then η x else θ' x, fun x hx => if_neg hx, ?_⟩
  apply M.algebra.subst_congr
  intro p hp
  rcases hCompatible hScheme p hp with hQuantified | ⟨hNot, hFree⟩
  · have hMem := List.mem_reverse.mp (Name.mem_of_lookup hQuantified)
    rw [if_pos (List.mem_map_of_mem (f := Prod.fst) hMem)]
  · rw [if_neg hNot, hη p.1 hNot]
    exact h p hFree

variable (M D)

/-- Giving the defined variables their values from the first to the last makes
all definitions hold. -/
theorem satisfies_extend {K : L.Telescope} {es : List (Entry L)} (θ : M.Valuation)
    (hSettled : Settled es) (hScoped : D.Scoped K es)
    (hNodup : ((K ++ declared es).map Prod.fst).Nodup) :
    M.Satisfies (M.extend θ (definitions es)) es := by
  induction es generalizing K θ with
  | nil => exact M.satisfies_nil
  | cons e es ih =>
      have hHead := hSettled e List.mem_cons_self
      rw [declared_cons, ← List.append_assoc] at hNodup
      have hRest := fun θ => ih θ (fun f hf => hSettled f (List.mem_cons_of_mem _ hf)) hScoped.2
        hNodup
      rw [M.satisfies_cons]
      cases e with
      | define x type kind =>
          refine ⟨fun k => ?_, hRest _⟩
          change M.extend (M.assign θ (.single x type)) (definitions es) x k =
            M.eval (M.extend (M.assign θ (.single x type)) (definitions es)) k type
          -- Neither the variable nor what its definition mentions is defined later.
          rw [List.map_append, List.nodup_append] at hNodup
          have hLater : ∀ y ∈ (K ++ [(x, kind)]).map Prod.fst,
              y ∉ (definitions es).map Prod.fst := by
            intro y hy hMem
            exact hNodup.2.2 y hy y (mem_declared_of_definitions hMem) rfl
          have hType : ∀ y ∈ freeVars type,
              M.extend (M.assign θ (.single x type)) (definitions es) y = θ y := by
            intro y hy
            obtain ⟨j, hj⟩ := D.ty_declared hScoped.1 y hy
            have hMem : y ∈ (K ++ [(x, kind)]).map Prod.fst :=
              List.mem_map_of_mem (f := Prod.fst) (List.mem_append_left _ hj)
            have hNe : y ≠ x := by
              rintro rfl
              exact not_mem_of_nodup hNodup.1 (List.mem_map_of_mem hj)
            rw [M.extend_of_not_mem _ (hLater y hMem), M.assign_of_not_mem θ type hNe]
          rw [M.eval_congr hType k, M.extend_of_not_mem _ (hLater x (by simp)),
            M.assign_single_self]
      | constraint c => cases hHead
      | _ => exact ⟨trivial, hRest _⟩

end

end Model

end HindleyMilner
