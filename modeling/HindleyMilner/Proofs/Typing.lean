import HindleyMilner.Term
import HindleyMilner.Total
import Mathlib.Data.List.Forall2

/-! Declarative typing with let-polymorphism, over any algebra of types. Types
are sorted by kinds, so a variable of one kind is never the same as a variable of
another kind with the same name. An algebra may identify types that are written
differently: its types are taken up to those equations. -/
namespace HindleyMilner

theorem lookup_map_snd {α β : Type} (f : α → β) (pairs : List (Name × α)) (x : Name) :
    (pairs.map fun p => (p.1, f p.2)).lookup x = (pairs.lookup x).map f := by
  induction pairs with
  | nil => rfl
  | cons p pairs ih =>
      rw [List.map_cons, List.lookup_cons, List.lookup_cons, ih]
      cases x == p.1 <;> rfl

/-- The types that terms can have, with variables and simultaneous substitution.
Literals need not have a type. -/
structure TypeAlgebra (κ : Type) (value : κ) where
  Ty : κ → Type
  var : Name → (k : κ) → Ty k
  arrow : Ty value → Ty value → Ty value
  literal? : Option (Ty value)
  freeVars : {k : κ} → Ty k → List (Name × κ)
  subst : (Name → (k : κ) → Ty k) → {k : κ} → Ty k → Ty k
  subst_var : ∀ θ x k, subst θ (var x k) = θ x k
  subst_arrow : ∀ θ a b, subst θ (arrow a b) = arrow (subst θ a) (subst θ b)
  subst_literal : ∀ θ t, literal? = some t → subst θ t = t
  subst_congr : ∀ {θ θ' : Name → (k : κ) → Ty k} {k : κ} {t : Ty k},
    (∀ p ∈ freeVars t, θ p.1 p.2 = θ' p.1 p.2) → subst θ t = subst θ' t
  subst_subst : ∀ θ θ' {k : κ} (t : Ty k),
    subst θ (subst θ' t) = subst (fun x j => subst θ (θ' x j)) t
  subst_id : ∀ {k : κ} (t : Ty k), subst var t = t

namespace TypeAlgebra

variable {κ : Type} {value : κ} (A : TypeAlgebra κ value)

/-- A type of its kind for every variable. -/
abbrev Valuation := Name → (k : κ) → A.Ty k

/-- A type with some of its variables quantified. -/
structure Scheme where
  quantified : List (Name × κ)
  body : A.Ty value

/-- What is known of each term variable. The nearest binding comes first. -/
abbrev Env := List (Name × A.Scheme)

/-- For each term variable the types it may be used at. -/
abbrev Uses := List (Name × (A.Ty value → Prop))

variable {A}

namespace Scheme

def mono (t : A.Ty value) : A.Scheme := ⟨[], t⟩

/-- The types that a scheme stands for when its free variables have the given
values. -/
def Under (s : A.Scheme) (ρ : A.Valuation) (t : A.Ty value) : Prop :=
  ∃ η : A.Valuation, (∀ x k, (x, k) ∉ s.quantified → η x k = ρ x k) ∧ t = A.subst η s.body

/-- The types that a scheme can be used at. -/
def Instance (s : A.Scheme) : A.Ty value → Prop := s.Under A.var

/-- Without quantified variables, a scheme may be used at its type alone. -/
theorem under_mono {t : A.Ty value} {ρ : A.Valuation} {u : A.Ty value} :
    (mono t).Under ρ u ↔ u = A.subst ρ t := by
  constructor
  · rintro ⟨η, hη, rfl⟩
    apply A.subst_congr
    intro p _
    exact hη p.1 p.2 List.not_mem_nil
  · rintro rfl
    exact ⟨ρ, fun _ _ _ => rfl, rfl⟩

/-- The one instance of such a scheme is its type. -/
theorem instance_mono {t u : A.Ty value} : (mono t).Instance u ↔ u = t := by
  rw [Instance, under_mono, A.subst_id]

end Scheme

namespace Env

/-- The uses that an environment allows when its free variables have the given
values. -/
def under (Γ : A.Env) (ρ : A.Valuation) : A.Uses := Γ.map fun p => (p.1, p.2.Under ρ)

end Env

variable [DecidableEq κ]

/-- The variables of a scheme that are not quantified. -/
def Scheme.freeVars (s : A.Scheme) : List (Name × κ) :=
  (A.freeVars s.body).filter fun p => p ∉ s.quantified

def Env.freeVars (Γ : A.Env) : List (Name × κ) := Γ.flatMap fun p => p.2.freeVars

/-- The scheme of a type in an environment: every variable that is not free in
the environment is quantified. -/
def generalize (Γ : A.Env) (t : A.Ty value) : A.Scheme :=
  ⟨(A.freeVars t).filter fun p => p ∉ Γ.freeVars, t⟩

/-- The typing judgement. -/
inductive Typing : A.Env → Term → A.Ty value → Prop where
  | var {Γ : A.Env} {x : Name} {s : A.Scheme} {t : A.Ty value}
      (hLookup : Γ.lookup x = some s) (hInstance : s.Instance t) : Typing Γ (.var x) t
  | lam {Γ : A.Env} {x : Name} {body : Term} {a b : A.Ty value}
      (hBody : Typing ((x, .mono a) :: Γ) body b) : Typing Γ (.lam x body) (A.arrow a b)
  | app {Γ : A.Env} {function argument : Term} {a b : A.Ty value}
      (hFunction : Typing Γ function (A.arrow a b)) (hArgument : Typing Γ argument a) :
      Typing Γ (.app function argument) b
  | letIn {Γ : A.Env} {x : Name} {bound body : Term} {a b : A.Ty value}
      (hBound : Typing Γ bound a) (hBody : Typing ((x, generalize Γ a) :: Γ) body b) :
      Typing Γ (.letIn x bound body) b
  | float {Γ : A.Env} {literal : Binary64} {t : A.Ty value}
      (hLiteral : A.literal? = some t) : Typing Γ (.float literal) t

/-- The variables are those of the environment, and every listed use is an
instance of the variable's scheme. -/
def Covers (Γ : A.Env) (uses : A.Uses) : Prop :=
  List.Forall₂ (fun p q => p.1 = q.1 ∧ ∀ t, q.2 t → p.2.Instance t) Γ uses

/-- The variables are those of the environment, and every instance of a
scheme is a listed use. -/
def CoveredBy (Γ : A.Env) (uses : A.Uses) : Prop :=
  List.Forall₂ (fun p q => p.1 = q.1 ∧ ∀ t, p.2.Instance t → q.2 t) Γ uses

omit [DecidableEq κ] in
/-- Lists that go together entry by entry bind the same variables, and what they
bind goes together. -/
theorem lookup_of_forall₂ {P : A.Scheme → (A.Ty value → Prop) → Prop} {Γ : A.Env}
    {uses : A.Uses} (h : List.Forall₂ (fun p q => p.1 = q.1 ∧ P p.2 q.2) Γ uses) (x : Name) :
    (Γ.lookup x = none ∧ uses.lookup x = none) ∨
      ∃ s use, Γ.lookup x = some s ∧ uses.lookup x = some use ∧ P s use := by
  induction h with
  | nil => exact .inl ⟨rfl, rfl⟩
  | @cons p q Γ uses hHead _ ih =>
      obtain ⟨y, s⟩ := p
      obtain ⟨z, use⟩ := q
      obtain ⟨rfl, hHead⟩ := hHead
      by_cases hx : x = y
      · subst hx
        exact .inr ⟨s, use, List.lookup_cons_self, List.lookup_cons_self, hHead⟩
      · have hBeq : (x == y) = false := beq_eq_false_iff_ne.mpr hx
        simpa only [List.lookup_cons, hBeq] using ih

omit [DecidableEq κ] in
/-- A covering environment binds what is used, to schemes that have at least
the instances needed. -/
theorem Covers.lookup {Γ : A.Env} {uses : A.Uses} (h : Covers Γ uses) (x : Name) :
    (Γ.lookup x = none ∧ uses.lookup x = none) ∨ ∃ s use,
      Γ.lookup x = some s ∧ uses.lookup x = some use ∧ ∀ t, use t → s.Instance t :=
  lookup_of_forall₂ (P := fun s use => ∀ t, use t → s.Instance t) h x

omit [DecidableEq κ] in
/-- An environment that is covered binds what may be used, at no more than
what it may be used at. -/
theorem CoveredBy.lookup {Γ : A.Env} {uses : A.Uses} (h : CoveredBy Γ uses) (x : Name) :
    (Γ.lookup x = none ∧ uses.lookup x = none) ∨ ∃ s use,
      Γ.lookup x = some s ∧ uses.lookup x = some use ∧ ∀ t, s.Instance t → use t :=
  lookup_of_forall₂ (P := fun s use => ∀ t, s.Instance t → use t) h x

omit [DecidableEq κ] in
theorem lookup_under (Γ : A.Env) (ρ : A.Valuation) (x : Name) :
    (Γ.under ρ).lookup x = (Γ.lookup x).map fun s => s.Under ρ :=
  lookup_map_snd (fun s : A.Scheme => s.Under ρ) Γ x

/-- A name that starts with more letters than the names of a list have. -/
def apart (names : List Name) (x : Name) : Name :=
  String.ofList (List.replicate (total String.length names + 1) 'z') ++ x

/-- Different variables get different new names. -/
theorem apart_inj {names : List Name} {x y : Name} :
    apart names x = apart names y ↔ x = y := by
  refine ⟨fun h => ?_, fun h => h ▸ rfl⟩
  simpa [apart, ← String.toList_inj] using h

/-- A new name is longer than all the names it has to avoid. -/
theorem apart_not_mem (names : List Name) (x : Name) : apart names x ∉ names := by
  intro h
  have hTotal := total_erase String.length h
  have hLength : (apart names x).length = total String.length names + 1 + x.length := by
    simp [apart]
  omega

/-- A type may be used at its value under any substitution that fixes the
variables of the environment. -/
theorem instance_of_subst {Γ : A.Env} {ρ : A.Valuation}
    (h : ∀ p ∈ Γ.freeVars, ρ p.1 p.2 = A.var p.1 p.2) (t : A.Ty value) :
    (generalize Γ t).Instance (A.subst ρ t) := by
  -- The substitution may be taken to fix everything that is not quantified.
  refine ⟨fun x k => if (x, k) ∈ (generalize Γ t).quantified then ρ x k else A.var x k,
    fun x k hx => if_neg hx, ?_⟩
  apply A.subst_congr
  rintro ⟨x, k⟩ hx
  by_cases hFree : (x, k) ∈ Γ.freeVars
  · rw [h _ hFree]
    exact (ite_self _).symm
  · have hQuantified : (x, k) ∈ (generalize Γ t).quantified :=
      List.mem_filter.mpr ⟨hx, decide_eq_true hFree⟩
    exact (if_pos hQuantified).symm

omit [DecidableEq κ] in
/-- The new names of some variables can be given the values of these variables,
and names in use can stay as they are. -/
theorem exists_unrename (used : List Name) (vars : Name → κ → Prop) (η : A.Valuation) :
    ∃ ρ : A.Valuation, (∀ x k, vars x k → ρ (apart used x) k = η x k) ∧
      ∀ y ∈ used, ∀ k, ρ y k = A.var y k := by
  classical
  refine ⟨fun y k => if h : ∃ x, y = apart used x ∧ vars x k then η h.choose k else A.var y k,
    fun x k hx => ?_, fun y hy k => dif_neg ?_⟩
  · have hEx : ∃ y, apart used x = apart used y ∧ vars y k := ⟨x, rfl, hx⟩
    have hSame : hEx.choose = x := (apart_inj.mp hEx.choose_spec.1).symm
    simp only [dif_pos hEx, hSame]
  · rintro ⟨x, rfl, -⟩
    exact apart_not_mem used x hy

/-- Some variables of a type can be given new names, and the others their
values, such that every way to fill in the former is an instance. -/
theorem exists_generalize_instance (Γ : A.Env) (vars : Name → κ → Prop) (θ : A.Valuation)
    (t : A.Ty value) :
    ∃ θ₁ : A.Valuation, (∀ x k, ¬vars x k → θ₁ x k = θ x k) ∧
      ∀ η : A.Valuation, (∀ x k, ¬vars x k → η x k = θ x k) →
        (generalize Γ (A.subst θ₁ t)).Instance (A.subst η t) := by
  classical
  let used : List Name :=
    Γ.freeVars.map Prod.fst
      ++ (A.freeVars t).flatMap fun p => (A.freeVars (θ p.1 p.2)).map Prod.fst
  let θ₁ : A.Valuation := fun x k =>
    if vars x k then A.var (apart used x) k else θ x k
  refine ⟨θ₁, fun x k hx => if_neg hx, fun η hη => ?_⟩
  obtain ⟨ρ, hRenamed, hFixed⟩ := exists_unrename used vars η
  have hSubst : A.subst ρ (A.subst θ₁ t) = A.subst η t := by
    rw [A.subst_subst]
    apply A.subst_congr
    rintro ⟨x, k⟩ hx
    by_cases hVars : vars x k
    · simp only [θ₁, if_pos hVars, A.subst_var]
      exact hRenamed x k hVars
    · have hUsed : ∀ p ∈ A.freeVars (θ x k), ρ p.1 p.2 = A.var p.1 p.2 := by
        intro p hp
        apply hFixed
        apply List.mem_append_right
        exact List.mem_flatMap.mpr ⟨(x, k), hx, List.mem_map_of_mem hp⟩
      simp only [θ₁, if_neg hVars]
      rw [A.subst_congr hUsed, A.subst_id, hη x k hVars]
  rw [← hSubst]
  apply instance_of_subst
  intro p hp
  exact hFixed p.1 (List.mem_append_left _ (List.mem_map_of_mem hp)) p.2

/-- Values given to variables that are not free in an environment
change none of its uses. -/
theorem under_congr {Γ : A.Env} {ρ ρ' : A.Valuation}
    (h : ∀ p ∈ Γ.freeVars, ρ p.1 p.2 = ρ' p.1 p.2) {q : Name × A.Scheme} (hq : q ∈ Γ)
    {t : A.Ty value} (ht : q.2.Under ρ t) : q.2.Under ρ' t := by
  classical
  obtain ⟨η, hη, rfl⟩ := ht
  refine ⟨fun x k => if (x, k) ∈ q.2.quantified then η x k else ρ' x k,
    fun x k hx => if_neg hx, ?_⟩
  apply A.subst_congr
  rintro ⟨x, k⟩ hx
  by_cases hQuantified : (x, k) ∈ q.2.quantified
  · exact (if_pos hQuantified).symm
  · have hFree : (x, k) ∈ Γ.freeVars :=
      List.mem_flatMap.mpr ⟨q, hq, List.mem_filter.mpr ⟨hx, decide_eq_true hQuantified⟩⟩
    change η x k = if (x, k) ∈ q.2.quantified then η x k else ρ' x k
    rw [if_neg hQuantified, hη x k hQuantified, h _ hFree]

/-- Covering depends on the values of the variables that are free in the
environment. -/
theorem Covers.congr {Γ Γ' : A.Env} {ρ ρ' : A.Valuation}
    (h : ∀ p ∈ Γ.freeVars, ρ p.1 p.2 = ρ' p.1 p.2) (hCovers : Covers Γ' (Γ.under ρ)) :
    Covers Γ' (Γ.under ρ') := by
  have hSub : ∀ Δ : A.Env, (∀ q ∈ Δ, q ∈ Γ) → ∀ Δ', Covers Δ' (Δ.under ρ) →
      Covers Δ' (Δ.under ρ') := by
    intro Δ
    induction Δ with
    | nil => exact fun _ _ hΔ => hΔ
    | cons q Δ ih =>
        intro hMem Δ' hΔ
        cases hΔ with
        | cons hHead hTail =>
            refine .cons ⟨hHead.1, fun t ht => hHead.2 t ?_⟩
              (ih (fun r hr => hMem r (List.mem_cons_of_mem _ hr)) _ hTail)
            exact under_congr (fun p hp => (h p hp).symm) (hMem q List.mem_cons_self) ht
  exact hSub Γ (fun _ hq => hq) Γ' hCovers

/-- A derivation may be instantiated: it holds in every environment that covers
the substituted one. -/
theorem Typing.subst {Γ : A.Env} {e : Term} {t : A.Ty value} (h : Typing Γ e t)
    (ρ : A.Valuation) {Γ' : A.Env} (hCovers : Covers Γ' (Γ.under ρ)) :
    Typing Γ' e (A.subst ρ t) := by
  induction h generalizing ρ Γ' with
  | @var Γ x s t hLookup hInstance =>
      rcases hCovers.lookup x with ⟨-, hNone⟩ | ⟨s', use, hs', hUse, hTypes⟩
      · rw [lookup_under, hLookup] at hNone
        cases hNone
      · rw [lookup_under, hLookup] at hUse
        cases hUse
        obtain ⟨η, hη, rfl⟩ := hInstance
        refine .var hs' (hTypes _ ⟨fun x k => A.subst ρ (η x k), fun x k hx => ?_, ?_⟩)
        · change A.subst ρ (η x k) = ρ x k
          rw [hη x k hx, A.subst_var]
        · rw [A.subst_subst]
  | lam _ ih =>
      rw [A.subst_arrow]
      refine .lam (ih ρ (.cons ⟨rfl, fun u hu => ?_⟩ hCovers))
      exact Scheme.instance_mono.mpr (Scheme.under_mono.mp hu)
  | app _ _ ihFunction ihArgument =>
      have hFunction := ihFunction ρ hCovers
      rw [A.subst_arrow] at hFunction
      exact .app hFunction (ihArgument ρ hCovers)
  | @letIn Γ x bound body a b _ _ ihBound ihBody =>
      obtain ⟨ρ₁, hρ₁, hTypes⟩ :=
        exists_generalize_instance Γ' (fun x k => (x, k) ∈ (generalize Γ a).quantified) ρ a
      have hFree : ∀ p ∈ Γ.freeVars, ρ p.1 p.2 = ρ₁ p.1 p.2 := by
        intro p hp
        refine (hρ₁ p.1 p.2 fun hQuantified => ?_).symm
        exact of_decide_eq_true (List.mem_filter.mp hQuantified).2 hp
      refine .letIn (ihBound ρ₁ (hCovers.congr hFree)) (ihBody ρ (.cons ⟨rfl, ?_⟩ hCovers))
      rintro u ⟨η, hη, rfl⟩
      exact hTypes η hη
  | float hLiteral =>
      rw [A.subst_literal ρ _ hLiteral]
      exact .float hLiteral

omit [DecidableEq κ] in
/-- An environment covers its own uses, where variables stand for themselves. -/
theorem covers_self (Γ : A.Env) : Covers Γ (Γ.under A.var) := by
  induction Γ with
  | nil => exact .nil
  | cons p Γ ih => exact .cons ⟨rfl, fun _ h => h⟩ ih

/-- A term has every type that a let may use it at. -/
theorem Typing.of_generalize {Γ : A.Env} {e : Term} {a t : A.Ty value} (h : Typing Γ e a)
    (hInstance : (generalize Γ a).Instance t) : Typing Γ e t := by
  obtain ⟨ρ, hρ, rfl⟩ := hInstance
  refine h.subst ρ ((covers_self Γ).congr fun p hp => ?_)
  refine (hρ p.1 p.2 fun hQuantified => ?_).symm
  exact of_decide_eq_true (List.mem_filter.mp hQuantified).2 hp

end TypeAlgebra

end HindleyMilner
