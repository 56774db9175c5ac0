import HindleyMilner.Proofs.AlphaEquivalence

/-! Errors about term variables. Inference keeps the bindings of the state that it starts
from, whether or not its context is in order. So a free variable of the term is looked up
among those bindings: only there can one be missing, and then there is no type. -/
namespace HindleyMilner

open Context

variable {L : Language}

namespace State

def scope (s : State L) : List Name := (bindings s.context.entries).map Prod.fst

/-- A variable is in scope if the context binds it. -/
theorem mem_scope {s : State L} {x : Name} :
    x ∈ s.scope ↔ ∃ scheme, .bind x scheme ∈ s.context.entries := by
  simp [scope, mem_bindings]

/-- A variable that is out of scope is not found. -/
theorem lookup_eq_none_iff {s : State L} {x : Name} :
    s.context.lookup x = none ↔ x ∉ s.scope := by
  rw [lookup_eq_bindings, List.lookup_eq_none_iff]
  simp only [scope, List.mem_map, not_exists, not_and, bne_iff_ne, ne_eq]
  exact forall₂_congr fun _ _ => not_congr eq_comm

/-- An abstraction brings its variable into scope. -/
theorem scope_enterLam (s : State L) (x : Name) : (s.enterLam x).scope = x :: s.scope := by
  rw [scope, bindings_enterLam]
  rfl

theorem scope_marker (s : State L) : (s.push .marker).scope = s.scope := by
  rw [scope, bindings_marker]
  rfl

theorem scope_bind (s : State L) (x : Name) (scheme : L.Scheme) :
    (s.push (.bind x scheme)).scope = x :: s.scope := by
  simp [scope, push, Context.push, bindings, Entry.binding?]

end State

/-- The nearest binding is the one that is removed. -/
theorem bindings_removeBinding {ctx : Context L} {x : Name} {scheme : L.Scheme}
    {bs : List (Name × L.Scheme)} {removed : L.Scheme × Context L}
    (h : bindings ctx.entries = (x, scheme) :: bs) (hRemove : ctx.removeBinding x = .ok removed) :
    bindings removed.2.entries = bs := by
  obtain ⟨rest, hSplit, hRest, -⟩ := splitBinding_of_bindings h
  rw [Context.removeBinding, hSplit] at hRemove
  cases hRemove
  exact hRest

section

variable [Rules L] [Terminating L] (hL : IgnoresNames L) {e : Term} {s : State L} {r : Synthesis L}

include hL

/-- Synthesis keeps the bindings of the state, whatever else stands in its
context. Every binding that it adds is nearer than those that were there, so it
is the one that is removed. -/
theorem Synthesizes.bindings_eq (h : Synthesizes State.unify e s r) :
    bindings r.state.context.entries = bindings s.context.entries := by
  induction h with
  | var hLookup =>
      rw [State.instantiate, State.pushAll_eq, bindings_append,
        bindings_of_fixed_nil (fixed_intros _)]
      rfl
  | lam _ hRemove ih =>
      exact bindings_removeBinding (ih.trans (State.bindings_enterLam _ _)) hRemove
  | @app function argument s solved f a _ _ hSolve ihFunction ihArgument =>
      calc bindings solved.context.entries
          = bindings (a.state.equate f.type.head a.type.head).context.entries :=
            hL.bindings_unify hSolve
        _ = bindings a.state.context.entries := by
            rw [State.entries_equate, bindings_append]
            rfl
        _ = bindings s.context.entries := ihArgument.trans ihFunction
  | @letIn x bound body s b inner skimmed made removed _ hSkim _ _ hRemove ihBound ihBody =>
      have hOuter : bindings skimmed.1.entries = bindings s.context.entries := by
        rw [bindings_skim hSkim, ihBound, State.bindings_marker]
      have hInner : bindings inner.state.context.entries =
          (x, made.scheme) :: bindings skimmed.1.entries := by
        rw [ihBody, State.push, Context.push, bindings_append]
        rfl
      rw [bindings_removeBinding hInner hRemove, hOuter]
  | float _ => rfl

/-- Synthesis leaves the scope as it was. -/
theorem Synthesizes.scope_eq (h : Synthesizes State.unify e s r) : r.state.scope = s.scope := by
  rw [State.scope, h.bindings_eq hL]
  rfl

/-- The scope in which the body of a let is looked at. -/
theorem Synthesizes.scope_generalized {skimmed : Context L × List (Entry L)}
    (h : Synthesizes State.unify e (s.push .marker) r) (hSkim : r.state.context.skim = .ok skimmed)
    (x : Name) (scheme : L.Scheme) :
    (State.push ⟨r.state.supply, skimmed.1⟩ (.bind x scheme)).scope = x :: s.scope := by
  rw [State.scope_bind, State.scope, bindings_skim hSkim, h.bindings_eq hL, State.bindings_marker]
  rfl

/-- A term with a type has no free variable out of scope. The second part
of a term is looked at in the state that the first has left, which binds
the same variables. -/
theorem Synthesizes.mem_scope (h : Synthesizes State.unify e s r) {y : Name}
    (hy : y ∈ e.freeVars) : y ∈ s.scope := by
  induction h with
  | @var x s scheme hLookup =>
      obtain rfl := List.mem_singleton.mp hy
      by_contra hNot
      rw [State.lookup_eq_none_iff.mpr hNot] at hLookup
      cases hLookup
  | lam _ _ ih =>
      simp only [Term.freeVars, List.mem_filter, decide_eq_true_eq] at hy
      have hInner := ih hy.1
      rw [State.scope_enterLam] at hInner
      exact (List.mem_cons.mp hInner).resolve_left hy.2
  | app hFunction _ _ ihFunction ihArgument =>
      rcases List.mem_append.mp hy with hy | hy
      · exact ihFunction hy
      · rw [← hFunction.scope_eq hL]
        exact ihArgument hy
  | letIn hBound hSkim _ _ _ ihBound ihBody =>
      simp only [Term.freeVars, List.mem_append, List.mem_filter, decide_eq_true_eq] at hy
      rcases hy with ⟨hy, hNe⟩ | hy
      · have hInner := ihBody hy
        rw [hBound.scope_generalized hL hSkim] at hInner
        exact (List.mem_cons.mp hInner).resolve_left hNe
      · rw [← State.scope_marker]
        exact ihBound hy
  | float _ => cases hy

end

def NotUnbound (e : TypeError) : Prop := ∀ x, e ≠ .unboundVariable x

theorem notUnbound_malformed (reason : String) : NotUnbound (.malformed reason) :=
  fun _ h => nomatch h

theorem notUnbound_occurs (x : Name) (type : String) : NotUnbound (.occurs x type) :=
  fun _ h => nomatch h

/-- An error that, if it says that a variable is unbound, names one of the given
variables that is not in the given scope. -/
def NamesMissing (vars scope : List Name) (e : TypeError) : Prop :=
  ∀ x, e = .unboundVariable x → x ∈ vars ∧ x ∉ scope

/-- A computation that does not speak of unbound variables names none wrongly. -/
theorem FailsOnly.namesMissing {α : Type} {m : Except TypeError α} (h : FailsOnly NotUnbound m)
    {vars scope : List Name} : FailsOnly (NamesMissing vars scope) m :=
  h.mono fun _ he x hx => absurd hx (he x)

/-- The rules of a language do not speak of unbound variables. -/
theorem FailsOnly.notUnbound {α : Type} {m : Except TypeError α}
    (h : FailsOnly TypeError.IsOfRules m) : FailsOnly NotUnbound m := by
  refine h.mono fun e he => ?_
  rintro x rfl
  exact he

/-- A variable that is missing in the scope of a bound variable is another one,
and is missing outside. -/
theorem NamesMissing.unbind {x : Name} {vars scope : List Name} {e : TypeError}
    (h : NamesMissing vars (x :: scope) e) : NamesMissing (vars.filter (· ≠ x)) scope e := by
  intro y hy
  obtain ⟨hVars, hScope⟩ := h y hy
  rw [List.mem_cons, not_or] at hScope
  exact ⟨List.mem_filter.mpr ⟨hVars, by simp [hScope.1]⟩, hScope.2⟩

/-- A variable that is missing for a part of a term is missing for the whole. -/
theorem NamesMissing.mono {vars vars' scope : List Name} {e : TypeError} (hVars : vars ⊆ vars')
    (h : NamesMissing vars scope e) : NamesMissing vars' scope e :=
  fun x hx => ⟨hVars (h x hx).1, (h x hx).2⟩

/-- Removing a binding that is not there blames the context, not the term. -/
theorem removeBinding_notUnbound (ctx : Context L) (x : Name) :
    FailsOnly NotUnbound (ctx.removeBinding x) := by
  rw [Context.removeBinding]
  split
  · exact .ok _
  · exact .error (notUnbound_malformed _)

theorem skim_notUnbound (ctx : Context L) : FailsOnly NotUnbound ctx.skim := by
  rw [Context.skim]
  generalize ctx.entries.reverse = stack
  generalize ([] : List (Entry L)) = taken
  induction stack generalizing taken with
  | nil => exact .error (notUnbound_malformed _)
  | cons e stack ih =>
      cases e with
      | marker => exact .ok _
      | intro x kind => exact ih _
      | define x type kind => exact ih _
      | _ => exact .error (notUnbound_malformed _)

variable [Rules L]

/-- Neither the rules nor the solver of a language complain about a term
variable. -/
structure SparesVariables (L : Language) [Rules L] : Prop where
  rules : OwnErrors L
  step : ∀ s : State L, FailsOnly NotUnbound s.step

namespace SparesVariables

variable [Terminating L] (h : SparesVariables L) (hL : IgnoresNames L)

include h

/-- The solver does not speak of term variables. -/
theorem unify (s : State L) : FailsOnly NotUnbound s.unify :=
  State.unify_failsOnly (fun _ => True) (fun _ _ => trivial) (fun _ => h.step _) trivial

omit [Terminating L] in
theorem reduce (ps : List L.Pred) (ctx : Context L) : FailsOnly NotUnbound (Rules.reduce ps ctx) :=
  (h.rules.reduce ps ctx).notUnbound

include hL

/-- If synthesis misses a variable, then it is a free one of the term and not in
scope. In the body of a binder the bound variable is in scope, so the one that
is missed is another and is free outside as well. -/
theorem synthesize_namesMissing (e : Term) (depth : Nat) (s : State L) :
    FailsOnly (NamesMissing e.freeVars s.scope)
      (synthesize (Logged.unifyWith false) e depth s).result := by
  induction e generalizing depth s with
  | var x =>
      rw [result_synthesize_var]
      cases hLookup : s.context.lookup x with
      | none =>
          apply FailsOnly.error
          intro y hy
          cases hy
          exact ⟨List.mem_singleton_self x, State.lookup_eq_none_iff.mp hLookup⟩
      | some scheme => exact .ok _
  | lam x body ih =>
      rw [result_synthesize_lam]
      have hBody := ih (depth + 1) (s.enterLam x)
      rw [State.scope_enterLam] at hBody
      apply (hBody.mono fun _ => NamesMissing.unbind).bind
      intro inner _
      exact (removeBinding_notUnbound _ x).namesMissing.bind fun _ _ => .ok _
  | app function argument ihFunction ihArgument =>
      rw [result_synthesize_app]
      have hFunction := (ihFunction (depth + 1) s).mono fun _ h =>
        h.mono (List.subset_append_left function.freeVars argument.freeVars)
      apply hFunction.bind
      intro f hRun
      simp only [synthesize_eq_ok, Logged.result_unifyWith] at hRun
      have hArgument := (ihArgument (depth + 1) f.state).mono fun _ h =>
        h.mono (List.subset_append_right function.freeVars argument.freeVars)
      rw [hRun.scope_eq hL] at hArgument
      apply hArgument.bind
      intro a _
      rw [Logged.result_unifyWith]
      exact (h.unify _).namesMissing.bind fun _ _ => .ok _
  | letIn x bound body ihBound ihBody =>
      rw [result_synthesize_letIn]
      have hBound := (ihBound (depth + 1) (s.push .marker)).mono fun _ h =>
        h.mono (List.subset_append_right (body.freeVars.filter (· ≠ x)) bound.freeVars)
      rw [State.scope_marker] at hBound
      apply hBound.bind
      intro b hRun
      simp only [synthesize_eq_ok, Logged.result_unifyWith] at hRun
      apply (skim_notUnbound _).namesMissing.bind
      intro skimmed hSkim
      apply (generalize_failsOnly h.reduce _ _ _).namesMissing.bind
      intro made _
      have hBody := ihBody (depth + 1)
        (State.push ⟨b.state.supply, skimmed.1⟩ (.bind x made.scheme))
      rw [hRun.scope_generalized hL hSkim] at hBody
      have hBody := hBody.mono fun _ h =>
        h.unbind.mono (List.subset_append_left (body.freeVars.filter (· ≠ x)) bound.freeVars)
      apply hBody.bind
      intro inner _
      exact (removeBinding_notUnbound _ x).namesMissing.bind fun _ _ => .ok _
  | float value =>
      rw [result_synthesize_float]
      exact (h.rules.literal value).notUnbound.namesMissing.bind fun _ _ => .ok _

/-- If inference says that a variable is unbound, then it is a free variable of
the term and out of scope. -/
theorem infer_namesMissing (s : State L) (e : Term) :
    FailsOnly (NamesMissing e.freeVars s.scope) (infer s e) := by
  rw [result_infer]
  apply (h.synthesize_namesMissing hL e 0 s).bind
  intro r _
  have hResolve : FailsOnly NotUnbound (resolveType r.state.context.normalize r.type) := by
    apply (h.rules.finish _).notUnbound.bind
    intro head _
    exact (h.reduce _ _).bind fun _ _ => .ok _
  exact hResolve.namesMissing

end SparesVariables

/-- An equation fails with errors about types, if the rules of the language do. -/
theorem OwnErrors.solveEq_notUnbound (h : OwnErrors L) (f : Focus L) (deps : L.Telescope)
    (l r : L.Ty) : FailsOnly NotUnbound (f.solveEq deps l r) :=
  Focus.solveEq_failsOnly notUnbound_malformed notUnbound_occurs (h.decompose l r).notUnbound
    fun eq _ => (h.flexRigid _ deps eq).notUnbound

/-- Where all constraints are equations, no step of the solver
speaks of term variables. -/
theorem EquationsOnly.sparesVariables (hOnly : EquationsOnly L) (hRules : OwnErrors L) :
    SparesVariables L where
  rules := hRules
  step s e hError := by
    obtain ⟨⟨deps, goal⟩, f, -, -, hSolve⟩ := State.step_eq_error hError
    cases goal with
    | special g => exact (hOnly.special g).elim
    | eq l r => exact hRules.solveEq_notUnbound f deps l r e hSolve

theorem Units.sparesVariables : SparesVariables Units.language where
  rules := Units.ownErrors
  step s e hError := by
    obtain ⟨⟨deps, goal⟩, f, -, -, hSolve⟩ := State.step_eq_error hError
    cases goal with
    | eq l r => exact Units.ownErrors.solveEq_notUnbound f deps l r e hSolve
    | special g =>
        cases g with
        | hull x shape =>
            exact Focus.walk_failsOnly notUnbound_malformed notUnbound_occurs _ deps _ e hSolve
        | identity unit =>
            exact Units.solveUnit_failsOnly (fun _ _ h => nomatch h)
              (fun _ _ => notUnbound_malformed) (fun _ _ _ => notUnbound_malformed)
              (fun _ _ _ _ _ _ => .inl fun _ _ _ h => nomatch h) e hSolve

/-- What inference says about term variables in a language that spares them: it
names one as unbound only if that is so, and it finds no type where one is. -/
theorem SparesVariables.unbound_exact [Terminating L] (h : SparesVariables L)
    (hL : IgnoresNames L) (s : State L) (e : Term) :
    (∀ x, infer s e = .error (.unboundVariable x) →
      x ∈ e.freeVars ∧ ∀ scheme, .bind x scheme ∉ s.context.entries) ∧
    ((∃ x ∈ e.freeVars, ∀ scheme, .bind x scheme ∉ s.context.entries) →
      ∀ q, infer s e ≠ .ok q) := by
  have hScope : ∀ x, x ∉ s.scope ↔ ∀ scheme, .bind x scheme ∉ s.context.entries := by
    simp only [State.mem_scope, not_exists, implies_true]
  refine ⟨fun x hError => ?_, ?_⟩
  · obtain ⟨hFree, hMissing⟩ := h.infer_namesMissing hL s e _ hError x rfl
    exact ⟨hFree, (hScope x).mp hMissing⟩
  · rintro ⟨x, hFree, hUnbound⟩ q hOk
    obtain ⟨r, hRun, -⟩ := infer_eq_ok.mp hOk
    exact (hScope x).mpr hUnbound (hRun.mem_scope hL hFree)

/-- Whatever the state, inference says that a variable is unbound only if it is
a free one of the term that the state does not bind, and it finds no type if
there is such a variable. -/
theorem infer_unboundVariable_exact :
    (∀ (s : State Simple.language) (e : Term),
      (∀ x, infer s e = .error (.unboundVariable x) →
        x ∈ e.freeVars ∧ ∀ scheme, .bind x scheme ∉ s.context.entries) ∧
      ((∃ x ∈ e.freeVars, ∀ scheme, .bind x scheme ∉ s.context.entries) →
        ∀ q, infer s e ≠ .ok q)) ∧
    (∀ (s : State Classes.language) (e : Term),
      (∀ x, infer s e = .error (.unboundVariable x) →
        x ∈ e.freeVars ∧ ∀ scheme, .bind x scheme ∉ s.context.entries) ∧
      ((∃ x ∈ e.freeVars, ∀ scheme, .bind x scheme ∉ s.context.entries) →
        ∀ q, infer s e ≠ .ok q)) ∧
    ∀ (s : State Units.language) (e : Term),
      (∀ x, infer s e = .error (.unboundVariable x) →
        x ∈ e.freeVars ∧ ∀ scheme, .bind x scheme ∉ s.context.entries) ∧
      ((∃ x ∈ e.freeVars, ∀ scheme, .bind x scheme ∉ s.context.entries) →
        ∀ q, infer s e ≠ .ok q) := by
  refine ⟨fun s e => ?_, fun s e => ?_, fun s e => ?_⟩
  · have hSpares := Simple.equationsOnly.sparesVariables Simple.ownErrors
    exact hSpares.unbound_exact Simple.ignoresNames s e
  · have hSpares := Classes.equationsOnly.sparesVariables Classes.ownErrors
    exact hSpares.unbound_exact Classes.ignoresNames s e
  · exact Units.sparesVariables.unbound_exact Units.ignoresNames s e

/-- A let whose bound term mentions the variable that it binds,
which is free there. -/
def recursiveLet : Term :=
  .letIn "g" (.lam "x" (.app (.var "x") (.var "g"))) (.app (.var "f") (.var "g"))

/-- A state with a constraint that mentions no declared variable. -/
def Simple.strayState : State Simple.language :=
  ⟨.empty, ⟨[.bind "f" (.mono (.var "a")), .ofGoal (.eq (.var "b") (.var "c")), .marker]⟩⟩

theorem infer_unboundVariable_exact_recursiveLet :
    (infer Simple.strayState recursiveLet = .error (.unboundVariable "g") ∧
      "g" ∈ recursiveLet.freeVars ∧
      ∀ scheme, .bind "g" scheme ∉ Simple.strayState.context.entries) ∧
    (infer Classes.memberState recursiveLet = .error (.unboundVariable "g") ∧
      "g" ∈ recursiveLet.freeVars ∧
      ∀ scheme, .bind "g" scheme ∉ Classes.memberState.context.entries) ∧
    (infer Units.productState recursiveLet = .error (.unboundVariable "g") ∧
      "g" ∈ recursiveLet.freeVars ∧
      ∀ scheme, .bind "g" scheme ∉ Units.productState.context.entries) ∧
    ∀ q, infer Units.productState recursiveLet ≠ .ok q := by
  have hSimple : infer Simple.strayState recursiveLet = .error (.unboundVariable "g") := by
    decide +kernel
  have hClasses : infer Classes.memberState recursiveLet = .error (.unboundVariable "g") := by
    decide +kernel
  have hUnits : infer Units.productState recursiveLet = .error (.unboundVariable "g") := by
    decide +kernel
  have hMissing := (infer_unboundVariable_exact.2.2 _ _).1 _ hUnits
  exact ⟨⟨hSimple, (infer_unboundVariable_exact.1 _ _).1 _ hSimple⟩,
    ⟨hClasses, (infer_unboundVariable_exact.2.1 _ _).1 _ hClasses⟩, ⟨hUnits, hMissing⟩,
    (infer_unboundVariable_exact.2.2 _ _).2 ⟨"g", hMissing⟩⟩

end HindleyMilner
