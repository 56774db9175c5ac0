import HindleyMilner.Inference

/-! Successful synthesis as a relation. It says for each form of term what the
algorithm has done when it succeeds, without events and depths, and synthesis
succeeds with exactly the results that are related. -/
namespace HindleyMilner

variable {L : Language}

namespace State

/-- The state in which the body of a function is looked at. -/
def enterLam (s : State L) (x : Name) : State L :=
  ((s.draw "t").2.push (.intro (s.draw "t").1 L.valueKind)).push
    (.bind x (.mono (L.var (s.draw "t").1 L.valueKind)))

/-- The state in which a function type is to take an argument type to a new
variable. -/
def equate (s : State L) (function argument : L.Ty) : State L :=
  ((s.draw "t").2.push (.intro (s.draw "t").1 L.valueKind)).push
    (.ofGoal (.eq function (L.arrow argument (L.var (s.draw "t").1 L.valueKind))))

/-- The state after the variables of an instance of a scheme were introduced. -/
def instantiate (s : State L) (scheme : L.Scheme) : State L :=
  State.pushAll { s with supply := (scheme.instantiate s.supply "t" L.var).supply }
    (Language.Telescope.intros (scheme.instantiate s.supply "t" L.var).intros)

end State

variable [Rules L]

/-- Synthesis of a term from a state succeeds with a result, where constraints
are solved by the given function. -/
inductive Synthesizes (solve : State L → Except TypeError (State L)) :
    Term → State L → Synthesis L → Prop where
  | var {x : Name} {s : State L} {scheme : L.Scheme}
      (hLookup : s.context.lookup x = some scheme) :
      Synthesizes solve (.var x) s
        ⟨s.instantiate scheme, (scheme.instantiate s.supply "t" L.var).body⟩
  | lam {x : Name} {body : Term} {s : State L} {inner : Synthesis L}
      {removed : L.Scheme × Context L}
      (hBody : Synthesizes solve body (s.enterLam x) inner)
      (hRemove : inner.state.context.removeBinding x = .ok removed) :
      Synthesizes solve (.lam x body) s
        ⟨⟨inner.state.supply, removed.2⟩, ⟨inner.type.predicates,
          L.arrow (L.var (s.draw "t").1 L.valueKind) inner.type.head⟩⟩
  | app {function argument : Term} {s solved : State L} {f a : Synthesis L}
      (hFunction : Synthesizes solve function s f)
      (hArgument : Synthesizes solve argument f.state a)
      (hSolve : solve (a.state.equate f.type.head a.type.head) = .ok solved) :
      Synthesizes solve (.app function argument) s
        ⟨solved, ⟨f.type.predicates ++ a.type.predicates,
          L.var (a.state.draw "t").1 L.valueKind⟩⟩
  | letIn {x : Name} {bound body : Term} {s : State L} {b inner : Synthesis L}
      {skimmed : Context L × List (Entry L)} {made : Generalized L}
      {removed : L.Scheme × Context L}
      (hBound : Synthesizes solve bound (s.push .marker) b)
      (hSkim : b.state.context.skim = .ok skimmed)
      (hGeneralize : generalize skimmed.1 skimmed.2 b.type = .ok made)
      (hBody : Synthesizes solve body
        (State.push ⟨b.state.supply, skimmed.1⟩ (.bind x made.scheme)) inner)
      (hRemove : inner.state.context.removeBinding x = .ok removed) :
      Synthesizes solve (.letIn x bound body) s
        ⟨⟨inner.state.supply, removed.2⟩,
          ⟨made.deferred ++ inner.type.predicates, inner.type.head⟩⟩
  | float {value : Binary64} {s : State L} {type : L.Ty}
      (hLiteral : Rules.literal value = .ok type) :
      Synthesizes solve (.float value) s ⟨s, .ofType type⟩

/-- Synthesis of a term from a state comes to the synthesis of one of its parts
from another state. -/
inductive Passes (solve : State L → Except TypeError (State L)) :
    Term → State L → Term → State L → Prop where
  | here {e : Term} {s : State L} : Passes solve e s e s
  | lam {x : Name} {body part : Term} {s t : State L}
      (h : Passes solve body (s.enterLam x) part t) : Passes solve (.lam x body) s part t
  | function {function argument part : Term} {s t : State L}
      (h : Passes solve function s part t) : Passes solve (.app function argument) s part t
  | argument {function argument part : Term} {s t : State L} {f : Synthesis L}
      (hFunction : Synthesizes solve function s f) (h : Passes solve argument f.state part t) :
      Passes solve (.app function argument) s part t
  | bound {x : Name} {bound body part : Term} {s t : State L}
      (h : Passes solve bound (s.push .marker) part t) : Passes solve (.letIn x bound body) s part t
  | body {x : Name} {bound body part : Term} {s t : State L} {b : Synthesis L}
      {skimmed : Context L × List (Entry L)} {made : Generalized L}
      (hBound : Synthesizes solve bound (s.push .marker) b)
      (hSkim : b.state.context.skim = .ok skimmed)
      (hGeneralize : generalize skimmed.1 skimmed.2 b.type = .ok made)
      (h : Passes solve body (State.push ⟨b.state.supply, skimmed.1⟩ (.bind x made.scheme))
        part t) : Passes solve (.letIn x bound body) s part t

/-- Synthesis of a term from a state has to solve the constraints of another
state, which are those of an application. -/
def Poses (solve : State L → Except TypeError (State L)) (e : Term) (s problem : State L) : Prop :=
  ∃ function argument t f a, Passes solve e s (.app function argument) t ∧
    Synthesizes solve function t f ∧ Synthesizes solve argument f.state a ∧
    problem = a.state.equate f.type.head a.type.head

theorem map_eq_ok {ε α β : Type} {m : Except ε α} {f : α → β} {b : β} :
    m.map f = .ok b ↔ ∃ a, m = .ok a ∧ f a = b := by
  cases m with
  | error e => simp [Except.map]
  | ok a => simp [Except.map]

section

variable (solve : State L → Logged L (State L)) (depth : Nat) (s : State L)

/-- Synthesis for a variable, without its log: the scheme that the context binds
to it is instantiated. -/
theorem result_synthesize_var (x : Name) :
    (synthesize solve (.var x) depth s).result =
      match s.context.lookup x with
      | none => .error (.unboundVariable x)
      | some scheme =>
          .ok ⟨s.instantiate scheme, (scheme.instantiate s.supply "t" L.var).body⟩ := by
  simp only [synthesize, Logged.result_bind, Logged.result_report]
  cases s.context.lookup x <;> rfl

/-- Synthesis for an abstraction, without its log: its variable is bound to a
new type variable while its body is looked at. -/
theorem result_synthesize_lam (x : Name) (body : Term) :
    (synthesize solve (.lam x body) depth s).result =
      ((synthesize solve body (depth + 1) (s.enterLam x)).result >>= fun inner =>
        inner.state.context.removeBinding x >>= fun removed =>
          .ok ⟨⟨inner.state.supply, removed.2⟩, ⟨inner.type.predicates,
            L.arrow (L.var (s.draw "t").1 L.valueKind) inner.type.head⟩⟩) := by
  simp only [synthesize, Logged.result_bind, Logged.result_report, Logged.result_ofExcept]
  rfl

/-- Synthesis for an application, without its log: the function, its argument,
and the equation between their types are solved in this order. -/
theorem result_synthesize_app (function argument : Term) :
    (synthesize solve (.app function argument) depth s).result =
      ((synthesize solve function (depth + 1) s).result >>= fun f =>
        (synthesize solve argument (depth + 1) f.state).result >>= fun a =>
          (solve (a.state.equate f.type.head a.type.head)).result >>= fun solved =>
            .ok ⟨solved, ⟨f.type.predicates ++ a.type.predicates,
              L.var (a.state.draw "t").1 L.valueKind⟩⟩) := by
  simp only [synthesize, Logged.result_bind, Logged.result_report]
  rfl

/-- Synthesis for a let, without its log: what the bound term has left above the
marker is generalized, and the body is looked at where the result is bound. -/
theorem result_synthesize_letIn (x : Name) (bound body : Term) :
    (synthesize solve (.letIn x bound body) depth s).result =
      ((synthesize solve bound (depth + 1) (s.push .marker)).result >>= fun b =>
        b.state.context.skim >>= fun skimmed =>
          generalize skimmed.1 skimmed.2 b.type >>= fun made =>
            (synthesize solve body (depth + 1) (State.push ⟨b.state.supply, skimmed.1⟩
                (.bind x made.scheme))).result >>= fun inner =>
              inner.state.context.removeBinding x >>= fun removed =>
                .ok ⟨⟨inner.state.supply, removed.2⟩,
                  ⟨made.deferred ++ inner.type.predicates, inner.type.head⟩⟩) := by
  simp only [synthesize, Logged.result_bind, Logged.result_report, Logged.result_ofExcept]
  rfl

/-- Synthesis for a number, without its log: the language gives the type. -/
theorem result_synthesize_float (value : Binary64) :
    (synthesize solve (.float value) depth s).result =
      (Rules.literal value >>= fun type => .ok ⟨s, .ofType type⟩) := by
  simp only [synthesize, Logged.result_bind, Logged.result_ofExcept]
  rfl

end

/-- Synthesis succeeds with the result that the rules of synthesis give, for the
same way of solving. Both directions are by induction on the term. -/
theorem synthesize_eq_ok {solve : State L → Logged L (State L)} {e : Term} {depth : Nat}
    {s : State L} {r : Synthesis L} :
    (synthesize solve e depth s).result = .ok r ↔
      Synthesizes (fun s => (solve s).result) e s r := by
  induction e generalizing depth s r with
  | var x =>
      rw [result_synthesize_var]
      constructor
      · intro h
        cases hLookup : s.context.lookup x with
        | none =>
            rw [hLookup] at h
            cases h
        | some scheme =>
            rw [hLookup] at h
            cases h
            exact .var hLookup
      · rintro (hLookup | _)
        rw [hLookup]
  | lam x body ih =>
      simp only [result_synthesize_lam, bind_eq_ok, Except.ok.injEq, ih]
      constructor
      · rintro ⟨inner, hBody, removed, hRemove, rfl⟩
        exact .lam hBody hRemove
      · rintro (_ | ⟨hBody, hRemove⟩)
        exact ⟨_, hBody, _, hRemove, rfl⟩
  | app function argument ihFunction ihArgument =>
      simp only [result_synthesize_app, bind_eq_ok, Except.ok.injEq, ihFunction, ihArgument]
      constructor
      · rintro ⟨f, hFunction, a, hArgument, solved, hSolve, rfl⟩
        exact .app hFunction hArgument hSolve
      · rintro (_ | _ | ⟨hFunction, hArgument, hSolve⟩)
        exact ⟨_, hFunction, _, hArgument, _, hSolve, rfl⟩
  | letIn x bound body ihBound ihBody =>
      simp only [result_synthesize_letIn, bind_eq_ok, Except.ok.injEq, ihBound, ihBody]
      constructor
      · rintro ⟨b, hBound, skimmed, hSkim, made, hGeneralize, inner, hBody, removed, hRemove, rfl⟩
        exact .letIn hBound hSkim hGeneralize hBody hRemove
      · rintro (_ | _ | _ | ⟨hBound, hSkim, hGeneralize, hBody, hRemove⟩)
        exact ⟨_, hBound, _, hSkim, _, hGeneralize, _, hBody, _, hRemove, rfl⟩
  | float value =>
      simp only [result_synthesize_float, bind_eq_ok, Except.ok.injEq]
      constructor
      · rintro ⟨type, hLiteral, rfl⟩
        exact .float hLiteral
      · rintro (_ | _ | _ | _ | hLiteral)
        exact ⟨_, hLiteral, rfl⟩

/-- Inference, without its log: a type is synthesized, and the normalized
context resolves it. -/
theorem result_infer [Terminating L] (s : State L) (e : Term) :
    infer s e = ((synthesize (Logged.unifyWith false) e 0 s).result >>= fun r =>
      resolveType r.state.context.normalize r.type) := by
  simp only [infer, inferLogged, Logged.result_bind, Logged.result_report, Logged.result_ofExcept]
  rfl

/-- A result of synthesis as a result of inference. -/
theorem infer_eq_ok [Terminating L] {s : State L} {e : Term} {q : L.Qualified} :
    infer s e = .ok q ↔ ∃ r, Synthesizes State.unify e s r ∧
      resolveType r.state.context.normalize r.type = .ok q := by
  simp only [result_infer, bind_eq_ok, synthesize_eq_ok, Logged.result_unifyWith]

theorem inferType_eq_ok [Terminating L] {s : State L} {e : Term} {t : L.Ty} :
    inferType s e = .ok t ↔ ∃ q, infer s e = .ok q ∧ q.head = t := map_eq_ok

end HindleyMilner
