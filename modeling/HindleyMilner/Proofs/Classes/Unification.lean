import HindleyMilner.Proofs.Classes.Overlap

/-! Most general unifiers of types. The functions of two applications are unified first, and
then their arguments with what was found put in. What comes out makes both types equal, up
to the kinds they carry, and every solution that keeps kinds is an instance of it. -/
namespace HindleyMilner.Classes

namespace Subst

/-- Substitutions that assign the same to every variable are equal. -/
theorem ext_toAssignment {s t : Subst} (h : ∀ x, s.toAssignment x = t.toAssignment x) : s = t := by
  obtain ⟨s⟩ := s
  obtain ⟨t⟩ := t
  exact congrArg Subst.mk (Std.ExtTreeMap.ext_getElem? fun {x} => h x)

/-- A composition assigns what the second one assigns, with the first one
applied to it, and otherwise what the first one assigns. -/
theorem toAssignment_compose (s t : Subst) (x : Name) :
    (s.compose t).toAssignment x =
      ((t.toAssignment x).map (Ty.subst s.toAssignment)).or (s.toAssignment x) := by
  rw [toAssignment, compose, Std.ExtTreeMap.getElem?_union, Std.ExtTreeMap.getElem?_map]
  rfl

theorem subst_empty (u : Ty) : u.subst empty.toAssignment = u := by
  induction u with
  | var x k => rw [Ty.subst, toAssignment_empty, Option.getD_none]
  | con c k => rfl
  | app f a ihf iha => rw [Ty.subst, ihf, iha]

theorem subst_single (x : Name) (t u : Ty) :
    u.subst (single x t).toAssignment = subst1 x t u :=
  Ty.subst_congr fun y _ => toAssignment_single x y t

/-- Applying a composition is applying its parts, the second one first. -/
theorem subst_compose (s t : Subst) (u : Ty) :
    u.subst (s.compose t).toAssignment = (u.subst t.toAssignment).subst s.toAssignment := by
  induction u with
  | var x k =>
      rw [Ty.subst, Ty.subst, toAssignment_compose]
      cases t.toAssignment x with
      | some v => rfl
      | none => rfl
  | con c k => rfl
  | app f a ihf iha => rw [Ty.subst, Ty.subst, Ty.subst, ihf, iha]

/-- Composition is associative, so it does not matter in which order parts of a
solution are joined. -/
theorem compose_assoc (s t u : Subst) : (s.compose t).compose u = s.compose (t.compose u) := by
  apply ext_toAssignment
  intro x
  simp only [toAssignment_compose]
  cases u.toAssignment x with
  | some v => simp only [Option.map_some, Option.some_or, subst_compose]
  | none => simp only [Option.map_none, Option.none_or]

theorem empty_compose (s : Subst) : empty.compose s = s := by
  apply ext_toAssignment
  intro x
  rw [toAssignment_compose, toAssignment_empty, Option.or_none]
  cases s.toAssignment x with
  | some v => rw [Option.map_some, subst_empty]
  | none => rfl

theorem compose_empty (s : Subst) : s.compose empty = s := by
  apply ext_toAssignment
  intro x
  rw [toAssignment_compose, toAssignment_empty, Option.map_none, Option.none_or]

end Subst

/-- The substitution of one variable that makes it equal to a type, if the type
has its kind and does not mention it. -/
def bindVar (x : Name) (k : Kind) (t : Ty) : Option Subst :=
  if t.asVar? = some x then some .empty
  else if t.hasKind k ∧ x ∉ t.freeVars then some (.single x t)
  else none

inductive UnifiesTo : Ty → Ty → Option Subst → Prop where
  | left (x : Name) (k : Kind) (t : Ty) : UnifiesTo (.var x k) t (bindVar x k t)
  | right {t : Ty} (hRigid : t.asVar? = none) (x : Name) (k : Kind) :
      UnifiesTo t (.var x k) (bindVar x k t)
  | con (a b : Name) (j k : Kind) :
      UnifiesTo (.con a j) (.con b k) (if a = b then some .empty else none)
  | conApp (c : Name) (k : Kind) (f a : Ty) : UnifiesTo (.con c k) (.app f a) none
  | appCon (f a : Ty) (c : Name) (k : Kind) : UnifiesTo (.app f a) (.con c k) none
  /-- The functions do not unify. -/
  | function {f g : Ty} (h : UnifiesTo f g none) (a b : Ty) :
      UnifiesTo (.app f a) (.app g b) none
  /-- The functions unify, and the arguments are unified after them. -/
  | argument {f g a b : Ty} {s : Subst} {found : Option Subst} (hFunction : UnifiesTo f g (some s))
      (hArgument : UnifiesTo (s.apply a) (s.apply b) found) :
      UnifiesTo (.app f a) (.app g b) (found.map (·.compose s))

/-- The recursion comes to one result, as the form of the two types says
which rule applies and the functions of two applications are unified
before their arguments. -/
theorem UnifiesTo.unique {l r : Ty} {o o' : Option Subst} (h : UnifiesTo l r o)
    (h' : UnifiesTo l r o') : o = o' := by
  induction h generalizing o' with
  | left x k t =>
      cases h' with
      | left => rfl
      | right hRigid => cases hRigid
  | right hRigid x k =>
      cases h' with
      | left => cases hRigid
      | right => rfl
  | con a b j k =>
      cases h'
      rfl
  | conApp c k f a =>
      cases h'
      rfl
  | appCon f a c k =>
      cases h'
      rfl
  | function h a b ih =>
      cases h' with
      | function => rfl
      | argument hFunction => cases ih hFunction
  | argument hFunction hArgument ihFunction ihArgument =>
      cases h' with
      | function hNone => cases ihFunction hNone
      | argument hFunction' hArgument' =>
          cases ihFunction hFunction'
          rw [ihArgument hArgument']

theorem Ty.asVar?_eq_none {t : Ty} (h : ∀ x k, t = var x k → False) : t.asVar? = none := by
  cases t with
  | var x k => exact (h x k rfl).elim
  | _ => rfl

namespace Equations

def apply (s : Subst) (eqs : Equations) : Equations :=
  eqs.map fun e => (s.apply e.1, s.apply e.2)

theorem apply_empty (eqs : Equations) : eqs.apply .empty = eqs := by
  rw [apply, List.map_id'' fun e => Prod.ext (Subst.subst_empty e.1) (Subst.subst_empty e.2)]

theorem apply_single (x : Name) (t : Ty) (eqs : Equations) :
    eqs.apply (.single x t) = eqs.subst1 x t :=
  List.map_congr_left fun e _ => Prod.ext (Subst.subst_single x t e.1) (Subst.subst_single x t e.2)

/-- Equations are substituted by a composition as types are. -/
theorem apply_compose (s t : Subst) (eqs : Equations) :
    eqs.apply (s.compose t) = (eqs.apply t).apply s := by
  rw [apply, apply, apply, List.map_map]
  exact List.map_congr_left fun e _ =>
    Prod.ext (Subst.subst_compose s t e.1) (Subst.subst_compose s t e.2)

inductive SolvesTo : Equations → Option Subst → Prop where
  | nil : SolvesTo [] (some .empty)
  | fail {l r : Ty} (h : UnifiesTo l r none) (eqs : Equations) : SolvesTo ((l, r) :: eqs) none
  | next {l r : Ty} {eqs : Equations} {s : Subst} {found : Option Subst}
      (hFirst : UnifiesTo l r (some s)) (hRest : SolvesTo (eqs.apply s) found) :
      SolvesTo ((l, r) :: eqs) (found.map (·.compose s))

/-- An equation that is solved as it stands goes. -/
theorem SolvesTo.skip {l r : Ty} {eqs : Equations} {found : Option Subst}
    (hFirst : UnifiesTo l r (some .empty)) (h : SolvesTo eqs found) :
    SolvesTo ((l, r) :: eqs) found := by
  have hNext := SolvesTo.next hFirst ((apply_empty eqs).symm ▸ h)
  simpa only [Subst.compose_empty, Option.map_id'] using hNext

/-- An equation that binds a variable is solved by that binding, and the others
are solved after it. -/
theorem SolvesTo.bind {l r : Ty} {x : Name} {t : Ty} {eqs : Equations} {found : Option Subst}
    (hFirst : UnifiesTo l r (some (.single x t))) (h : SolvesTo (eqs.subst1 x t) found) :
    SolvesTo ((l, r) :: eqs) (found.map fun s => s.compose (.single x t)) :=
  .next hFirst ((apply_single x t eqs).symm ▸ h)

/-- Two applications are unified as their parts are, one after the other. -/
theorem SolvesTo.app {f a g b : Ty} {eqs : Equations} {found : Option Subst}
    (h : SolvesTo ((f, g) :: (a, b) :: eqs) found) :
    SolvesTo ((.app f a, .app g b) :: eqs) found := by
  cases h with
  | fail hNone => exact .fail (.function hNone a b) eqs
  | @next _ _ _ s found hFunction hRest =>
      cases hRest with
      | fail hNone => exact .fail (.argument hFunction hNone) eqs
      | @next _ _ _ t found hArgument hRest =>
          have hBoth := SolvesTo.next (.argument hFunction hArgument)
            ((apply_compose t s eqs).symm ▸ hRest)
          simpa only [Option.map_map, Function.comp_def, Subst.compose_assoc] using hBoth

/-- What the solver of equation lists returns is what the recursion comes to, by
induction along the solver's own recursion. -/
theorem solvesTo_unify (eqs : Equations) : SolvesTo eqs eqs.unify := by
  fun_induction Equations.unify eqs with
  | case1 => exact .nil
  | case2 x k t eqs hSame ih =>
      have hFirst := UnifiesTo.left x k t
      rw [bindVar, if_pos hSame] at hFirst
      exact .skip hFirst ih
  | case3 x k t eqs hVar hBind ih =>
      have hFirst := UnifiesTo.left x k t
      rw [bindVar, if_neg hVar, if_pos hBind] at hFirst
      exact .bind hFirst ih
  | case4 x k t eqs hVar hBind =>
      have hFirst := UnifiesTo.left x k t
      rw [bindVar, if_neg hVar, if_neg hBind] at hFirst
      exact .fail hFirst eqs
  | case5 t x k eqs hRigid hBind ih =>
      have hFirst := UnifiesTo.right (Ty.asVar?_eq_none hRigid) x k
      rw [bindVar, if_neg (Ty.asVar?_ne hRigid), if_pos hBind] at hFirst
      exact .bind hFirst ih
  | case6 t x k eqs hRigid hBind =>
      have hFirst := UnifiesTo.right (Ty.asVar?_eq_none hRigid) x k
      rw [bindVar, if_neg (Ty.asVar?_ne hRigid), if_neg hBind] at hFirst
      exact .fail hFirst eqs
  | case7 k c j eqs ih =>
      have hFirst := UnifiesTo.con c c k j
      rw [if_pos rfl] at hFirst
      exact .skip hFirst ih
  | case8 a k b j eqs hNe =>
      have hFirst := UnifiesTo.con a b k j
      rw [if_neg hNe] at hFirst
      exact .fail hFirst eqs
  | case9 f a g b eqs ih => exact ih.app
  | case10 c k f a eqs => exact .fail (.conApp c k f a) eqs
  | case11 f a c k eqs => exact .fail (.appCon f a c k) eqs

end Equations

/-- Unification of two types ends, and gives what the recursion comes to. -/
theorem unifiesTo_iff {l r : Ty} {o : Option Subst} : UnifiesTo l r o ↔ o = l.unify r := by
  have hUnify : UnifiesTo l r (l.unify r) := by
    have hRun : Equations.SolvesTo [(l, r)] (l.unify r) := Equations.solvesTo_unify _
    generalize l.unify r = found at hRun
    cases hRun with
    | fail hNone => exact hNone
    | @next _ _ _ s found hFirst hRest =>
        cases hRest
        rwa [Option.map_some, Subst.empty_compose]
  exact ⟨fun h => h.unique hUnify, fun h => h ▸ hUnify⟩

/-- A substitution that is found, and what it is made of. -/
inductive Finds : Ty → Ty → Subst → Prop where
  | var (x : Name) (j k : Kind) : Finds (.var x j) (.var x k) .empty
  | con (c : Name) (j k : Kind) : Finds (.con c j) (.con c k) .empty
  | bind {x : Name} {k : Kind} {t : Ty} (hKind : t.kind = .ok k) (hFree : x ∉ t.freeVars) :
      Finds (.var x k) t (.single x t)
  | turn {l r : Ty} {s : Subst} (h : Finds l r s) : Finds r l s
  | app {f g a b : Ty} {s t : Subst} (hFunction : Finds f g s)
      (hArgument : Finds (a.subst s.toAssignment) (b.subst s.toAssignment) t) :
      Finds (.app f a) (.app g b) (t.compose s)

/-- A variable is bound to itself, which changes nothing, or to a type of its
kind that does not mention it. -/
theorem finds_of_bindVar {x : Name} {k : Kind} {t : Ty} {s : Subst} (h : bindVar x k t = some s) :
    Finds (.var x k) t s := by
  rw [bindVar] at h
  by_cases hSame : t.asVar? = some x
  · rw [if_pos hSame] at h
    cases h
    cases t with
    | var y j =>
        cases hSame
        exact .var x k j
    | _ => cases hSame
  · rw [if_neg hSame] at h
    obtain ⟨⟨hKind, hFree⟩, h⟩ := Option.ite_none_right_eq_some.mp h
    cases h
    exact .bind (Ty.hasKind_iff.mp hKind) hFree

/-- A result of the recursion has a shape that the most general unifier can be
read off by induction. -/
theorem UnifiesTo.finds {l r : Ty} {o : Option Subst} (h : UnifiesTo l r o) {s : Subst}
    (hs : o = some s) : Finds l r s := by
  induction h generalizing s with
  | left x k t => exact finds_of_bindVar hs
  | right hRigid x k => exact .turn (finds_of_bindVar hs)
  | con a b j k =>
      obtain ⟨rfl, hEmpty⟩ := Option.ite_none_right_eq_some.mp hs
      cases hEmpty
      exact .con a j k
  | conApp => cases hs
  | appCon => cases hs
  | function => cases hs
  | argument hFunction hArgument ihFunction ihArgument =>
      obtain ⟨t, ht, rfl⟩ := Option.map_eq_some_iff.mp hs
      exact .app (ihFunction rfl) (ihArgument ht)

theorem finds_of_unify {l r : Ty} {s : Subst} (h : l.unify r = some s) : Finds l r s :=
  UnifiesTo.finds (unifiesTo_iff.mpr rfl) h

def Carries (kinds : Name → Kind) : language.Scope := fun x k => k = kinds x

namespace Ty

/-- What holds of a type if and only if it holds of its parts is
kept by substitution. -/
theorem subst_of_parts {P : Ty → Prop} (hApp : ∀ f a, P (app f a) ↔ P f ∧ P a)
    {τ : Assignment Ty} (hτ : ∀ x u, τ x = some u → P u) {t : Ty} (ht : P t) : P (t.subst τ) := by
  induction t with
  | var x k =>
      rw [subst]
      cases hx : τ x with
      | some u => exact hτ x u hx
      | none => exact ht
  | con c k => exact ht
  | app f a ihf iha =>
      obtain ⟨hf, ha⟩ := (hApp f a).mp ht
      exact (hApp _ _).mpr ⟨ihf hf, iha ha⟩

/-- Substitution keeps types equal but for kinds, since it looks at the names of
variables and not at the kinds they carry. -/
theorem EqualButKinds.subst {t u : Ty} (h : t.EqualButKinds u) (τ : Assignment Ty) :
    (t.subst τ).EqualButKinds (u.subst τ) := by
  induction t generalizing u with
  | var x j =>
      cases u with
      | var y k =>
          obtain ⟨rfl, -⟩ := var.inj h
          rw [Ty.subst, Ty.subst]
          cases τ x with
          | some v => rfl
          | none => rfl
      | _ => cases h
  | con c j =>
      cases u with
      | con d k => exact h
      | _ => cases h
  | app f a ihf iha =>
      cases u with
      | app g b =>
          obtain ⟨hFunction, hArgument⟩ := app.inj h
          exact congrArg₂ app (ihf hFunction) (iha hArgument)
      | _ => cases h

end Ty

namespace Finds

variable {l r : Ty} {s : Subst}

/-- The types that are found are made of parts of those that are unified: a
property of types that holds of an application if and only if it holds of its
parts holds of them. -/
theorem images {P : Ty → Prop} (hApp : ∀ f a, P (.app f a) ↔ P f ∧ P a) (h : Finds l r s)
    (hl : P l) (hr : P r) {x : Name} {u : Ty} (hu : s.toAssignment x = some u) : P u := by
  induction h generalizing x u with
  | var =>
      rw [Subst.toAssignment_empty] at hu
      cases hu
  | con =>
      rw [Subst.toAssignment_empty] at hu
      cases hu
  | bind =>
      rw [Subst.toAssignment_single] at hu
      split at hu
      · cases hu
        exact hr
      · cases hu
  | turn _ ih => exact ih hr hl hu
  | @app f g a b s t _ _ ihFunction ihArgument =>
      obtain ⟨hf, ha⟩ := (hApp f a).mp hl
      obtain ⟨hg, hb⟩ := (hApp g b).mp hr
      have hFirst : ∀ y v, s.toAssignment y = some v → P v := fun y v hv => ihFunction hf hg hv
      have hSecond : ∀ y v, t.toAssignment y = some v → P v := fun y v hv =>
        ihArgument (Ty.subst_of_parts hApp hFirst ha) (Ty.subst_of_parts hApp hFirst hb) hv
      rw [Subst.toAssignment_compose, Option.or_eq_some_iff] at hu
      rcases hu with hu | ⟨-, hu⟩
      · obtain ⟨v, hv, rfl⟩ := Option.map_eq_some_iff.mp hu
        exact Ty.subst_of_parts hApp hSecond (hFirst x v hv)
      · exact hSecond x u hu

/-- The substitution keeps what is annotated annotated. -/
theorem annotated_subst {K : language.Scope} (h : Finds l r s) (hl : l.Annotated K)
    (hr : r.Annotated K) {t : Ty} (ht : t.Annotated K) : (t.subst s.toAssignment).Annotated K :=
  Ty.subst_of_parts (fun _ _ => Ty.annotated_app)
    (fun _ _ hu => h.images (fun _ _ => Ty.annotated_app) hl hr hu) ht

/-- Both types become equal, but for the kinds they carry. Variables
are told apart by their names alone, so nothing more can be said
without looking at kinds. -/
theorem equalButKinds (h : Finds l r s) :
    (l.subst s.toAssignment).EqualButKinds (r.subst s.toAssignment) := by
  induction h with
  | var x j k =>
      rw [Subst.subst_empty, Subst.subst_empty]
      rfl
  | con c j k => rfl
  | @bind x k t hKind hFree =>
      rw [Subst.subst_single, Subst.subst_single, Ty.subst1_of_not_mem hFree]
      simp [subst1, HindleyMilner.subst, Ty.subst, Assignment.single, Ty.EqualButKinds]
  | turn _ ih => exact ih.symm
  | app _ _ ihFunction ihArgument =>
      rw [Subst.subst_compose, Subst.subst_compose]
      exact congrArg₂ Ty.app (ihFunction.subst _) ihArgument

variable {kinds : Name → Kind}

/-- Every variable is bound to a type of its kind. Where two unifiers are
composed, the second replaces variables by types of their kinds, which changes
no kind of what the first has found. -/
theorem kind_of_image (h : Finds l r s) (hl : l.Annotated (Carries kinds))
    (hr : r.Annotated (Carries kinds)) {x : Name} {u : Ty} (hu : s.toAssignment x = some u) :
    u.kind = .ok (kinds x) := by
  induction h generalizing x u with
  | var =>
      rw [Subst.toAssignment_empty] at hu
      cases hu
  | con =>
      rw [Subst.toAssignment_empty] at hu
      cases hu
  | @bind y k t hKind hFree =>
      obtain ⟨rfl, rfl⟩ := Subst.toAssignment_single_eq_some.mp hu
      rw [hKind]
      exact congrArg _ (hl (x, k) List.mem_cons_self)
  | turn _ ih => exact ih hr hl hu
  | @app f g a b s t hFunction hArgument ihFunction ihArgument =>
      obtain ⟨hf, ha⟩ := Ty.annotated_app.mp hl
      obtain ⟨hg, hb⟩ := Ty.annotated_app.mp hr
      have hSecond : ∀ y v, t.toAssignment y = some v → v.kind = .ok (kinds y) := fun y v hv =>
        ihArgument (hFunction.annotated_subst hf hg ha) (hFunction.annotated_subst hf hg hb) hv
      rw [Subst.toAssignment_compose, Option.or_eq_some_iff] at hu
      rcases hu with hu | ⟨-, hu⟩
      · obtain ⟨v, hv, rfl⟩ := Option.map_eq_some_iff.mp hu
        have hAnnotated : v.Annotated (Carries kinds) :=
          hFunction.images (fun _ _ => Ty.annotated_app) hf hg hv
        have hRespects : Ty.Respects t.toAssignment v := by
          intro p hp w hw
          rw [hSecond p.1 w hw, hAnnotated p hp]
        rw [Ty.kind_subst hRespects]
        exact ihFunction hf hg hv
      · exact hSecond x u hu

/-- Both types become equal where variables and constructors are
used at one kind each. -/
theorem subst_eq {σ : Signature} (h : Finds l r s) (hl : l.Annotated (Carries kinds))
    (hr : r.Annotated (Carries kinds)) (hlOver : l.Over σ) (hrOver : r.Over σ) :
    l.subst s.toAssignment = r.subst s.toAssignment := by
  have hOver : ∀ x u, s.toAssignment x = some u → u.Over σ := fun x u hu =>
    h.images (fun _ _ => Iff.rfl) hlOver hrOver hu
  exact Ty.eq_of_relabel_eq (fun x j k hj hk _ => hj.trans hk.symm) h.equalButKinds
    (h.annotated_subst hl hr hl) (h.annotated_subst hl hr hr)
    (Ty.over_subst hlOver fun x _ => hOver x) (Ty.over_subst hrOver fun x _ => hOver x)

/-- Every solution is an instance of what is found: applying the
substitution that is found first makes no difference to the solution. This
is what makes it most general. -/
theorem absorbed {τ : Assignment Ty} (h : Finds l r s) (hl : l.Annotated (Fits τ kinds))
    (hr : r.Annotated (Fits τ kinds)) (hEq : l.subst τ = r.subst τ) {t : Ty}
    (ht : t.Annotated (Fits τ kinds)) : (t.subst s.toAssignment).subst τ = t.subst τ := by
  induction h generalizing t with
  | var => rw [Subst.subst_empty]
  | con => rw [Subst.subst_empty]
  | @bind x k u =>
      rw [Subst.subst_single]
      exact Ty.subst_subst1 (hl (x, k) List.mem_cons_self).1 hEq ht
  | turn _ ih => exact ih hr hl hEq.symm ht
  | @app f g a b s s' hFunction hArgument ihFunction ihArgument =>
      obtain ⟨hf, ha⟩ := Ty.annotated_app.mp hl
      obtain ⟨hg, hb⟩ := Ty.annotated_app.mp hr
      obtain ⟨hEqFunction, hEqArgument⟩ := Ty.app.inj hEq
      have hKept := fun {t : Ty} => hFunction.annotated_subst (t := t) hf hg
      have hFirst := fun {t : Ty} => ihFunction (t := t) hf hg hEqFunction
      have hEqAfter : (a.subst s.toAssignment).subst τ = (b.subst s.toAssignment).subst τ := by
        rw [hFirst ha, hFirst hb, hEqArgument]
      rw [Subst.subst_compose, ihArgument (hKept ha) (hKept hb) hEqAfter (hKept ht), hFirst ht]

end Finds

/-- Unification computes a most general unifier. It ends, with what the
recursion comes to; the substitution that it finds makes both types equal up to
the kinds they carry; and it finds one that absorbs every given solution, where
variables are replaced by types of their kinds. -/
theorem unify_absorbs_solutions (l r : Ty) :
    (∀ o, UnifiesTo l r o ↔ o = l.unify r) ∧
    (∀ s, l.unify r = some s → (s.apply l).EqualButKinds (s.apply r)) ∧
    ∀ (q : Assignment Ty) (kinds : Name → Kind), l.Annotated (Fits q kinds) →
      r.Annotated (Fits q kinds) → subst q l = subst q r →
      ∃ s, l.unify r = some s ∧ ∀ p ∈ l.occurrences ++ r.occurrences,
        subst q (s.apply (Ty.var p.1 p.2)) = subst q (Ty.var p.1 p.2) := by
  refine ⟨fun o => unifiesTo_iff, fun s h => (finds_of_unify h).equalButKinds,
    fun q kinds hl hr hEq => ?_⟩
  have hSolved : Equations.SolvedBy q kinds [(l, r)] :=
    Equations.solvedBy_cons.mpr ⟨⟨hEq, hl, hr⟩, List.forall_mem_nil _, List.forall_mem_nil _⟩
  obtain ⟨s, hs⟩ := Option.isSome_iff_exists.mp hSolved.isSome_unify
  refine ⟨s, hs, fun p hp => (finds_of_unify hs).absorbed hl hr hEq fun p' hp' => ?_⟩
  rw [List.mem_singleton.mp hp']
  exact (List.mem_append.mp hp).elim (hl p) (hr p)

def listPair : Ty :=
  .app (.app (.con "pair" (.constructor 2)) (listOf intType)) (.var "b" .data)

/-- The variable for a constructor stands for lists, the two others for integers. -/
def listSolution : Assignment Ty := fun x =>
  if x = "m" then some (.con "list" (.constructor 1))
  else if x = "a" ∨ x = "b" then some intType else none

/-- Two pairs are unified, and the solution that makes all of their elements
integers is an instance of what is found. -/
theorem unify_absorbs_solutions_listPair :
    ∃ s, Ty.containerPattern.unify listPair = some s ∧
      UnifiesTo Ty.containerPattern listPair (some s) ∧
      (s.apply Ty.containerPattern).EqualButKinds (s.apply listPair) ∧
      subst listSolution (s.apply (Ty.var "b" .data)) = intType := by
  let kinds : Name → Kind := fun x => if x = "m" then .constructor 1 else .data
  have hFits : ∀ p ∈ Ty.containerPattern.occurrences ++ listPair.occurrences,
      Fits listSolution kinds p.1 p.2 := by
    intro p hp
    have hValue : (listSolution p.1).map Ty.kind = some (.ok p.2) ∧ p.2 = kinds p.1 := by
      revert p
      decide
    refine ⟨hValue.2, fun u hu => ?_⟩
    rw [hu] at hValue
    exact Option.some.inj hValue.1
  obtain ⟨hEnds, hEqual, hAbsorbs⟩ := unify_absorbs_solutions Ty.containerPattern listPair
  obtain ⟨hLeft, hRight⟩ := List.forall_mem_append.mp hFits
  obtain ⟨s, hs, hVariables⟩ := hAbsorbs listSolution kinds hLeft hRight rfl
  refine ⟨s, hs, (hEnds _).mpr hs.symm, hEqual s hs, ?_⟩
  exact hVariables ("b", .data) (by decide)

end HindleyMilner.Classes
