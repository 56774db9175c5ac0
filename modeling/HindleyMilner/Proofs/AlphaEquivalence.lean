import HindleyMilner.Proofs.BindingNames

/-! Inference gives the same result for terms that differ only in the names of bound
variables. Both terms are walked side by side: the two contexts differ in the names of
the bindings that were added on the way, and a variable is found at the same place. -/
namespace HindleyMilner

open Context

/-- Two variables stand for the same, where the names that are bound around them
are given in pairs, the innermost first. -/
inductive SameVariable : List (Name × Name) → Name → Name → Prop where
  | free (x : Name) : SameVariable [] x x
  | bound (x y : Name) (bound : List (Name × Name)) : SameVariable ((x, y) :: bound) x y
  | skip {x y a b : Name} {bound : List (Name × Name)} (hx : x ≠ a) (hy : y ≠ b)
      (h : SameVariable bound x y) : SameVariable ((a, b) :: bound) x y

/-- Two terms are the same up to the names they bind, where the names that are
bound around them are given in pairs, the innermost first. -/
inductive SameUnder : List (Name × Name) → Term → Term → Prop where
  | var {bound : List (Name × Name)} {x y : Name} (h : SameVariable bound x y) :
      SameUnder bound (.var x) (.var y)
  | lam {bound : List (Name × Name)} {x y : Name} {body body' : Term}
      (h : SameUnder ((x, y) :: bound) body body') : SameUnder bound (.lam x body) (.lam y body')
  | app {bound : List (Name × Name)} {function function' argument argument' : Term}
      (hFunction : SameUnder bound function function')
      (hArgument : SameUnder bound argument argument') :
      SameUnder bound (.app function argument) (.app function' argument')
  | letIn {bound : List (Name × Name)} {x y : Name} {value value' body body' : Term}
      (hValue : SameUnder bound value value') (hBody : SameUnder ((x, y) :: bound) body body') :
      SameUnder bound (.letIn x value body) (.letIn y value' body')
  | float {bound : List (Name × Name)} (value : Binary64) :
      SameUnder bound (.float value) (.float value)

/-- Terms that differ only in the names of bound variables. -/
abbrev AlphaEq : Term → Term → Prop := SameUnder []

namespace Term

/-- All names of a term, those of its binders among them. -/
def names : Term → List Name
  | var x => [x]
  | lam x body => x :: body.names
  | app function argument => function.names ++ argument.names
  | letIn x value body => x :: value.names ++ body.names
  | float _ => []

/-- Put one name for the free occurrences of another. -/
def rename (x y : Name) : Term → Term
  | var z => var (if z = x then y else z)
  | lam z body => lam z (if z = x then body else body.rename x y)
  | app function argument => app (function.rename x y) (argument.rename x y)
  | letIn z value body => letIn z (value.rename x y) (if z = x then body else body.rename x y)
  | float value => float value

end Term

/-- A binder is passed by every other variable. -/
theorem SameVariable.under {bound : List (Name × Name)} {z z' w : Name}
    (h : SameVariable bound z z') (hz : z = w → z' = w) (hz' : z' = w → z = w) :
    SameVariable ((w, w) :: bound) z z' := by
  by_cases hEq : z = w
  · rw [hz hEq, hEq]
    exact .bound w w bound
  · exact .skip hEq (fun hEq' => hEq (hz' hEq')) h

/-- A term is the same as itself where each name it mentions stands for itself. -/
theorem SameUnder.refl {bound : List (Name × Name)} {e : Term}
    (h : ∀ z ∈ e.names, SameVariable bound z z) : SameUnder bound e e := by
  induction e generalizing bound with
  | var x => exact .var (h x List.mem_cons_self)
  | lam x body ih =>
      exact .lam (ih fun z hz => (h z (List.mem_cons_of_mem _ hz)).under id id)
  | app function argument ihFunction ihArgument =>
      exact .app (ihFunction fun z hz => h z (List.mem_append_left _ hz))
        (ihArgument fun z hz => h z (List.mem_append_right _ hz))
  | letIn x value body ihValue ihBody =>
      refine .letIn (ihValue fun z hz => h z ?_) (ihBody fun z hz => (h z ?_).under id id)
      · exact List.mem_append_left _ (List.mem_cons_of_mem _ hz)
      · exact List.mem_append_right _ hz
  | float value => exact .float value

/-- Below a binder of the name that is replaced nothing changes any
more, and below any other binder the replacement goes on with that name
bound on both sides. -/
theorem SameUnder.rename_body {bound : List (Name × Name)} {x y w : Name} {body : Term}
    (hw : w ≠ y) (h : ∀ z ∈ body.names, SameVariable bound z (if z = x then y else z))
    (ih : (∀ z ∈ body.names, SameVariable ((w, w) :: bound) z (if z = x then y else z)) →
      SameUnder ((w, w) :: bound) body (body.rename x y)) :
    SameUnder ((w, w) :: bound) body (if w = x then body else body.rename x y) := by
  by_cases hEq : w = x
  · rw [if_pos hEq]
    refine .refl fun z hz => ?_
    have hSame := h z hz
    by_cases hz : z = x
    · rw [hz, ← hEq]
      exact .bound w w bound
    · rw [if_neg hz] at hSame
      exact hSame.under id id
  · rw [if_neg hEq]
    refine ih fun z hz => (h z hz).under (fun hzw => ?_) fun hzw => ?_
    · rw [hzw, if_neg hEq]
    · split at hzw
      · exact absurd hzw.symm hw
      · exact hzw

/-- A name may be put for one that is bound outside, if the term does not
mention it yet. Below a binder the names that are bound are extended by the
binder's own, which is neither of the two, so the induction goes through
with a longer list. -/
theorem SameUnder.rename {bound : List (Name × Name)} {x y : Name} {e : Term} (hy : y ∉ e.names)
    (h : ∀ z ∈ e.names, SameVariable bound z (if z = x then y else z)) :
    SameUnder bound e (e.rename x y) := by
  induction e generalizing bound with
  | var z => exact .var (h z List.mem_cons_self)
  | lam w body ih =>
      rw [Term.names, List.mem_cons, not_or] at hy
      obtain ⟨hw, hy⟩ := hy
      exact .lam (rename_body (Ne.symm hw) (fun z hz => h z (List.mem_cons_of_mem _ hz)) (ih hy))
  | app function argument ihFunction ihArgument =>
      rw [Term.names, List.mem_append, not_or] at hy
      obtain ⟨hFunction, hArgument⟩ := hy
      exact .app (ihFunction hFunction fun z hz => h z (List.mem_append_left _ hz))
        (ihArgument hArgument fun z hz => h z (List.mem_append_right _ hz))
  | letIn w value body ihValue ihBody =>
      rw [Term.names, List.mem_append, List.mem_cons, not_or, not_or] at hy
      obtain ⟨⟨hw, hValue⟩, hBody⟩ := hy
      refine .letIn (ihValue hValue fun z hz => h z ?_)
        (rename_body (Ne.symm hw) (fun z hz => h z ?_) (ihBody hBody))
      · exact List.mem_append_left _ (List.mem_cons_of_mem _ hz)
      · exact List.mem_append_right _ hz
  | float value => exact .float value

/-- Renaming the variable that is bound last. -/
theorem SameUnder.rename_bound {bound : List (Name × Name)} {x y : Name} {e : Term}
    (hy : y ∉ e.names) (h : ∀ z ∈ e.names, z ≠ x → SameVariable bound z z) :
    SameUnder ((x, y) :: bound) e (e.rename x y) := by
  refine .rename hy fun z hz => ?_
  by_cases hEq : z = x
  · rw [if_pos hEq, hEq]
    exact .bound x y bound
  · rw [if_neg hEq]
    exact .skip hEq (fun hEq => hy (hEq ▸ hz)) (h z hz hEq)

/-- Renaming a parameter to a name that the body does not mention
gives the same function. -/
theorem alphaEq_rename_lam {x y : Name} {body : Term} (hy : y ∉ body.names) :
    AlphaEq (.lam x body) (.lam y (body.rename x y)) :=
  .lam (.rename_bound hy fun z _ _ => .free z)

/-- So does renaming what a let binds. -/
theorem alphaEq_rename_letIn {x y : Name} {value body : Term} (hy : y ∉ body.names) :
    AlphaEq (.letIn x value body) (.letIn y value (body.rename x y)) :=
  .letIn (.refl fun z _ => .free z) (.rename_bound hy fun z _ _ => .free z)

variable {L : Language}

/-- Bindings with the same schemes in the same order, the nearest of which have
names that are given in pairs, and all others have the same names. -/
inductive Paired : List (Name × Name) → List (Name × L.Scheme) → List (Name × L.Scheme) → Prop where
  | outer (bindings : List (Name × L.Scheme)) : Paired [] bindings bindings
  | inner {bound : List (Name × Name)} {bindings bindings' : List (Name × L.Scheme)} (x y : Name)
      (scheme : L.Scheme) (h : Paired bound bindings bindings') :
      Paired ((x, y) :: bound) ((x, scheme) :: bindings) ((y, scheme) :: bindings')

/-- A variable is found at the same place. -/
theorem Paired.lookup_eq {bound : List (Name × Name)} {bindings bindings' : List (Name × L.Scheme)}
    (h : Paired bound bindings bindings') {x y : Name} (hSame : SameVariable bound x y) :
    bindings.lookup x = bindings'.lookup y := by
  induction h with
  | outer bindings =>
      cases hSame
      rfl
  | inner a b scheme _ ih =>
      cases hSame with
      | bound => rw [List.lookup_cons_self, List.lookup_cons_self]
      | skip hx hy hSame =>
          rw [List.lookup_cons, List.lookup_cons, beq_false_of_ne hx, beq_false_of_ne hy]
          exact ih hSame

/-- A variable that is not found has one name: only names of bindings are paired
with others, and those are found. -/
theorem Paired.eq_of_lookup_eq_none {bound : List (Name × Name)}
    {bindings bindings' : List (Name × L.Scheme)} (h : Paired bound bindings bindings') {x y : Name}
    (hSame : SameVariable bound x y) (hNone : bindings.lookup x = none) : x = y := by
  induction h with
  | outer bindings =>
      cases hSame
      rfl
  | inner a b scheme _ ih =>
      cases hSame with
      | bound =>
          rw [List.lookup_cons_self] at hNone
          cases hNone
      | skip hx hy hSame =>
          rw [List.lookup_cons, beq_false_of_ne hx] at hNone
          exact ih hSame hNone

/-- States that differ only in the names of the nearest bindings. -/
structure Alike (bound : List (Name × Name)) (s s' : State L) : Prop where
  anonymous_eq : s.anonymous = s'.anonymous
  paired : Paired bound (bindings s.context.entries) (bindings s'.context.entries)

namespace Alike

variable {bound : List (Name × Name)} {s s' : State L} (h : Alike bound s s')

include h

theorem supply_eq : s.supply = s'.supply := by
  change s.anonymous.supply = s'.anonymous.supply
  rw [h.anonymous_eq]

theorem entries_eq :
    s.context.entries.map Entry.anonymous = s'.context.entries.map Entry.anonymous :=
  congrArg (fun s : State L => s.context.entries) h.anonymous_eq

/-- Variables that stand for the same have the same scheme in
contexts that are alike. -/
theorem lookup_eq {x y : Name} (hSame : SameVariable bound x y) :
    s.context.lookup x = s'.context.lookup y := by
  rw [lookup_eq_bindings, lookup_eq_bindings]
  exact h.paired.lookup_eq hSame

/-- Entries that bind nothing are added. -/
theorem append {es : List (Entry L)} (hes : bindings es = []) (supply : Supply) :
    Alike bound ⟨supply, ⟨s.context.entries ++ es⟩⟩ ⟨supply, ⟨s'.context.entries ++ es⟩⟩ where
  anonymous_eq := by
    simp only [State.anonymous, Context.anonymous, List.map_append, h.entries_eq]
  paired := by
    rw [bindings_append, bindings_append, hes]
    exact h.paired

/-- A variable is bound. -/
theorem bind (x y : Name) (scheme : L.Scheme) :
    Alike ((x, y) :: bound) (s.push (.bind x scheme)) (s'.push (.bind y scheme)) where
  anonymous_eq := by
    simp only [State.anonymous, Context.anonymous, State.push, Context.push, List.map_append,
      h.entries_eq, h.supply_eq]
    rfl
  paired := by
    rw [State.push, Context.push, bindings_append, State.push, Context.push, bindings_append]
    exact .inner x y scheme h.paired

/-- Below a function the two parameters are bound to one new variable, so they
stand for the same. -/
theorem enterLam (x y : Name) : Alike ((x, y) :: bound) (s.enterLam x) (s'.enterLam y) := by
  rw [State.enterLam, State.enterLam, State.draw, State.draw, h.supply_eq]
  exact (h.append rfl _).bind x y _

/-- A marker binds nothing and is the same in both contexts. -/
theorem marker : Alike bound (s.push .marker) (s'.push .marker) := by
  rw [State.push, State.push, h.supply_eq]
  exact h.append rfl _

/-- Instances of one scheme draw the same names, since both supplies are the
same. -/
theorem instantiate (scheme : L.Scheme) :
    Alike bound (s.instantiate scheme) (s'.instantiate scheme) := by
  rw [State.instantiate, State.instantiate, State.pushAll_eq, State.pushAll_eq, h.supply_eq]
  exact h.append (bindings_of_fixed_nil (fixed_intros _)) _

/-- The equation of an application introduces the same variable on both sides. -/
theorem equate (function argument : L.Ty) :
    Alike bound (s.equate function argument) (s'.equate function argument) := by
  rw [State.equate, State.equate, State.draw, State.draw, h.supply_eq]
  exact (h.append rfl _).append rfl _

end Alike

/-- The nearest binding is the one that is removed, and without names it is the
nearest one of all. -/
theorem splitBinding_of_bindings {es : List (Entry L)} {x : Name} {scheme : L.Scheme}
    {bs : List (Name × L.Scheme)} (h : bindings es = (x, scheme) :: bs) :
    ∃ rest, splitBinding x es = some (scheme, rest) ∧ bindings rest = bs ∧
      splitBinding "" (es.map Entry.anonymous) = some (scheme, rest.map Entry.anonymous) := by
  induction es generalizing bs with
  | nil => cases h
  | cons e es ih =>
      rw [← List.singleton_append, bindings_append] at h
      cases hes : bindings es with
      | cons b bs' =>
          rw [hes] at h
          cases h
          obtain ⟨rest, hSplit, hRest, hAnonymous⟩ := ih hes
          refine ⟨e :: rest, splitBinding_cons_of_some hSplit e, ?_,
            splitBinding_cons_of_some hAnonymous _⟩
          rw [← List.singleton_append, bindings_append, hRest]
          rfl
      | nil =>
          have hNone : splitBinding "" (es.map Entry.anonymous) = none := by
            apply splitBinding_of_bindings_nil
            rw [bindings_anonymous, hes, List.map_nil]
          rw [hes] at h
          cases e with
          | bind y scheme' =>
              cases h
              refine ⟨es, ?_, hes, ?_⟩
              · rw [splitBinding_cons_of_none (splitBinding_of_bindings_nil hes)]
                exact if_pos rfl
              · rw [List.map_cons, splitBinding_cons_of_none hNone]
                simp [Entry.anonymous, Entry.binding?]
          | _ => cases h

/-- The binding that was added last is removed from both states, and leaves them
alike with one pair of names fewer. -/
theorem Alike.removeBinding {bound : List (Name × Name)} {x y : Name} {s s' : State L}
    (h : Alike ((x, y) :: bound) s s') :
    ∃ removed removed', s.context.removeBinding x = .ok removed ∧
      s'.context.removeBinding y = .ok removed' ∧
      Alike bound ⟨s.supply, removed.2⟩ ⟨s'.supply, removed'.2⟩ := by
  have hPaired := h.paired
  generalize hBindings : bindings s.context.entries = bs at hPaired
  generalize hBindings' : bindings s'.context.entries = bs' at hPaired
  cases hPaired with
  | inner x y scheme hRest =>
      obtain ⟨rest, hSplit, rfl, hAnonymous⟩ := splitBinding_of_bindings hBindings
      obtain ⟨rest', hSplit', rfl, hAnonymous'⟩ := splitBinding_of_bindings hBindings'
      refine ⟨(scheme, ⟨rest⟩), (scheme, ⟨rest'⟩), ?_, ?_, ?_, hRest⟩
      · rw [Context.removeBinding, hSplit]
      · rw [Context.removeBinding, hSplit']
      · rw [h.entries_eq, hAnonymous'] at hAnonymous
        have hEntries := (Prod.mk.inj (Option.some.inj hAnonymous)).2
        simp only [State.anonymous, Context.anonymous, h.supply_eq, hEntries]

/-- What is taken off above a marker binds nothing. -/
theorem bindings_skimFrom {stack taken above : List (Entry L)} {rest : Context L}
    (h : skimFrom stack taken = .ok (rest, above)) :
    bindings rest.entries = bindings stack.reverse := by
  induction stack generalizing taken with
  | nil => cases h
  | cons e stack ih =>
      rw [List.reverse_cons, bindings_append]
      cases e with
      | marker =>
          cases h
          rfl
      | intro x kind => exact ih h
      | define x type kind => exact ih h
      | _ => cases h

/-- Taking off what stands above a marker leaves all bindings. -/
theorem bindings_skim {ctx rest : Context L} {above : List (Entry L)}
    (h : ctx.skim = .ok (rest, above)) : bindings rest.entries = bindings ctx.entries := by
  have hStack := bindings_skimFrom h
  rwa [List.reverse_reverse] at hStack

/-- Two computations fail in the same way, or succeed with results that are
related. -/
inductive Together {α β : Type} (R : α → β → Prop) :
    Except TypeError α → Except TypeError β → Prop where
  | error (e : TypeError) : Together R (.error e) (.error e)
  | ok {a : α} {b : β} (h : R a b) : Together R (.ok a) (.ok b)

namespace Together

variable {α β γ δ : Type} {R : α → β → Prop} {S : γ → δ → Prop}

/-- Computations go together if what they start with does, and if related
results lead to computations that do. -/
theorem bind {m : Except TypeError α} {m' : Except TypeError β} {f : α → Except TypeError γ}
    {f' : β → Except TypeError δ} (hm : Together R m m')
    (hf : ∀ a b, R a b → Together S (f a) (f' b)) : Together S (m >>= f) (m' >>= f') := by
  cases hm with
  | error e => exact .error e
  | ok h => exact hf _ _ h

/-- Results that are the same in some view are related by what follows from
that, and errors are the same since a view does not touch them. -/
theorem of_map_eq {m m' : Except TypeError α} {view : α → γ} (h : m.map view = m'.map view)
    {R : α → α → Prop} (hR : ∀ a b, m = .ok a → m' = .ok b → view a = view b → R a b) :
    Together R m m' := by
  cases m with
  | error e =>
      cases m' with
      | error e' =>
          cases h
          exact .error e
      | ok b => cases h
  | ok a =>
      cases m' with
      | error e' => cases h
      | ok b => exact .ok (hR a b rfl rfl (Except.ok.inj h))

end Together

section

variable [Rules L] {bound : List (Name × Name)} {s s' : State L}

/-- Solvers that ignore names come to contexts that are alike, or fail
with the same error. -/
theorem Alike.unify [Terminating L] (hL : IgnoresNames L) (h : Alike bound s s') :
    Together (Alike bound) s.unify s'.unify := by
  have hMap : s.unify.map State.anonymous = s'.unify.map State.anonymous := by
    rw [← hL.unify, ← hL.unify, h.anonymous_eq]
  refine .of_map_eq hMap fun t t' hRun hRun' hSame => ⟨hSame, ?_⟩
  rw [hL.bindings_unify hRun, hL.bindings_unify hRun']
  exact h.paired

/-- A let is generalized in the same way, and leaves contexts that are
alike. What is taken off above the marker binds no term variable, so it is
the same on both sides. -/
theorem Alike.generalize (hL : IgnoresNames L) (h : Alike bound s s') (type : L.Qualified) :
    Together (fun found found' =>
        Alike bound ⟨s.supply, found.1⟩ ⟨s'.supply, found'.1⟩ ∧
          HindleyMilner.generalize found.1 found.2 type =
            HindleyMilner.generalize found'.1 found'.2 type)
      s.context.skim s'.context.skim := by
  have hContext : s.context.anonymous = s'.context.anonymous :=
    congrArg Context.mk h.entries_eq
  have hMap : s.context.skim.map (Prod.map Context.anonymous (List.map Entry.anonymous)) =
      s'.context.skim.map (Prod.map Context.anonymous (List.map Entry.anonymous)) := by
    rw [← skim_anonymous, ← skim_anonymous, hContext]
  refine .of_map_eq hMap fun found found' hSkim hSkim' hSame => ?_
  obtain ⟨hRest, hAbove⟩ := Prod.mk.inj hSame
  refine ⟨⟨?_, ?_⟩, ?_⟩
  · simp only [State.anonymous, hRest, h.supply_eq]
  · rw [bindings_skim hSkim, bindings_skim hSkim']
    exact h.paired
  · rw [← hL.generalize, hRest, hAbove, hL.generalize]

/-- Synthesis of terms that are the same up to the names they bind fails in the
same way or gives the same type, and leaves states that are still alike. The
induction is on how the terms are the same, and binders add a pair of names to
those under which the states are alike. -/
theorem SameUnder.synthesize [Terminating L] (hL : IgnoresNames L) (trace : Bool) {e e' : Term}
    (h : SameUnder bound e e') (depth : Nat) (hs : Alike bound s s') :
    Together (fun r r' => r.type = r'.type ∧ Alike bound r.state r'.state)
      (HindleyMilner.synthesize (Logged.unifyWith trace) e depth s).result
      (HindleyMilner.synthesize (Logged.unifyWith trace) e' depth s').result := by
  induction h generalizing depth s s' with
  | @var bound x y hSame =>
      rw [result_synthesize_var, result_synthesize_var, ← hs.lookup_eq hSame]
      cases hLookup : s.context.lookup x with
      | none =>
          rw [lookup_eq_bindings] at hLookup
          rw [hs.paired.eq_of_lookup_eq_none hSame hLookup]
          exact .error _
      | some scheme => exact .ok ⟨by rw [hs.supply_eq], hs.instantiate scheme⟩
  | @lam bound x y body body' _ ih =>
      rw [result_synthesize_lam, result_synthesize_lam]
      apply (ih (depth + 1) (hs.enterLam x y)).bind
      rintro inner inner' ⟨hType, hInner⟩
      obtain ⟨removed, removed', hRemoved, hRemoved', hRest⟩ := hInner.removeBinding
      rw [hRemoved, hRemoved']
      refine .ok ⟨?_, hRest⟩
      rw [hType, State.draw, State.draw, hs.supply_eq]
  | app _ _ ihFunction ihArgument =>
      rw [result_synthesize_app, result_synthesize_app]
      apply (ihFunction (depth + 1) hs).bind
      rintro f f' ⟨hf, hFunction⟩
      apply (ihArgument (depth + 1) hFunction).bind
      rintro a a' ⟨ha, hArgument⟩
      rw [Logged.result_unifyWith, Logged.result_unifyWith, hf, ha]
      apply ((hArgument.equate _ _).unify hL).bind
      intro solved solved' hSolved
      refine .ok ⟨?_, hSolved⟩
      rw [State.draw, State.draw, hArgument.supply_eq]
  | @letIn bound x y value value' body body' _ _ ihValue ihBody =>
      rw [result_synthesize_letIn, result_synthesize_letIn]
      apply (ihValue (depth + 1) hs.marker).bind
      rintro b b' ⟨hb, hValue⟩
      rw [hb]
      apply (hValue.generalize hL b'.type).bind
      rintro found found' ⟨hFound, hMade⟩
      rw [hMade]
      cases HindleyMilner.generalize found'.1 found'.2 b'.type with
      | error e => exact .error e
      | ok made =>
          apply (ihBody (depth + 1) (hFound.bind x y made.scheme)).bind
          rintro inner inner' ⟨hType, hInner⟩
          obtain ⟨removed, removed', hRemoved, hRemoved', hRest⟩ := hInner.removeBinding
          rw [hRemoved, hRemoved']
          refine .ok ⟨?_, hRest⟩
          rw [hType]
  | float value =>
      rw [result_synthesize_float, result_synthesize_float]
      cases Rules.literal (L := L) value with
      | error e => exact .error e
      | ok type => exact .ok ⟨rfl, hs⟩

/-- Inference from any state has the same result for terms that differ in the
names they bind, as no names are paired to begin with. -/
theorem AlphaEq.result_inferLogged [Terminating L] (hL : IgnoresNames L) (trace : Bool)
    {e e' : Term} (h : AlphaEq e e') (s : State L) :
    (inferLogged trace s e).result = (inferLogged trace s e').result := by
  have hRun := h.synthesize hL trace 0 (s := s) ⟨rfl, .outer _⟩
  simp only [inferLogged, Logged.result_bind, Logged.result_report, Logged.result_ofExcept]
  generalize (synthesize (Logged.unifyWith trace) e 0 s).result = m at hRun ⊢
  generalize (synthesize (Logged.unifyWith trace) e' 0 s).result = m' at hRun ⊢
  cases hRun with
  | error err => rfl
  | @ok r r' hSame =>
      obtain ⟨hType, hAlike⟩ := hSame
      have hContext : r.state.context.anonymous = r'.state.context.anonymous :=
        congrArg Context.mk hAlike.entries_eq
      change resolveType r.state.context.normalize r.type =
        resolveType r'.state.context.normalize r'.type
      rw [hType, ← hL.resolveType, ← normalize_anonymous, hContext, normalize_anonymous,
        hL.resolveType]

end

/-- Inference gives the same type, with the same names of type variables, or the
same error for terms that differ only in the names of bound variables. -/
theorem infer_eq_of_alphaEq {e e' : Term} (h : AlphaEq e e') (trace : Bool) :
    (∀ s : State Simple.language,
      (inferLogged trace s e).result = (inferLogged trace s e').result) ∧
    (∀ s : State Classes.language,
      (inferLogged trace s e).result = (inferLogged trace s e').result) ∧
    ∀ s : State Units.language,
      (inferLogged trace s e).result = (inferLogged trace s e').result :=
  ⟨h.result_inferLogged Simple.ignoresNames trace,
    h.result_inferLogged Classes.ignoresNames trace,
    h.result_inferLogged Units.ignoresNames trace⟩

/-- A variable that a let shadows in the bound term and not in the body. -/
def shadowingTerm : Term := .letIn "y" (.lam "f" (.var "f")) (.app (.var "y") (.var "f"))

/-- What a let binds is renamed, and then the parameter of a function whose old
name the context binds as well. -/
theorem infer_eq_of_alphaEq_shadowing :
    (inferLogged false Simple.openState shadowingTerm).result =
      (inferLogged false Simple.openState
        (.letIn "z" (.lam "f" (.var "f")) (.app (.var "z") (.var "f")))).result ∧
    (inferLogged true Classes.memberState (.lam "f" shadowingTerm)).result =
      (inferLogged true Classes.memberState
        (.lam "g" (.letIn "y" (.lam "f" (.var "f")) (.app (.var "y") (.var "g"))))).result ∧
    (inferLogged true Units.productState (.lam "f" shadowingTerm)).result =
      (inferLogged true Units.productState
        (.lam "g" (.letIn "y" (.lam "f" (.var "f")) (.app (.var "y") (.var "g"))))).result := by
  have hLet : AlphaEq shadowingTerm (.letIn "z" (.lam "f" (.var "f"))
      (Term.rename "y" "z" (.app (.var "y") (.var "f")))) := alphaEq_rename_letIn (by decide)
  have hLam : AlphaEq (.lam "f" shadowingTerm) (.lam "g" (shadowingTerm.rename "f" "g")) :=
    alphaEq_rename_lam (by decide)
  obtain ⟨-, hClasses, hUnits⟩ := infer_eq_of_alphaEq hLam true
  exact ⟨(infer_eq_of_alphaEq hLet false).1 _, hClasses _, hUnits _⟩

end HindleyMilner
