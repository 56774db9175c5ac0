import HindleyMilner.Solver.Rules

/-! Generalization at a let. The bound term is inferred above a marker, so the
variables that may be quantified are those introduced above it. -/
namespace HindleyMilner

variable {L : Language}

namespace Context

/-- Take entries, the newest first, down to the marker. The second list holds
those taken so far, the oldest first. -/
def skimFrom : List (Entry L) → List (Entry L) → Except TypeError (Context L × List (Entry L))
  | [], _ => .error (.malformed "missing locality marker")
  | e :: below, taken =>
      match e with
      | .marker => .ok (⟨below.reverse⟩, taken)
      | .intro .. | .define .. => skimFrom below (e :: taken)
      | _ => .error (.malformed "only intros and definitions may follow a locality marker")

/-- The context below the last marker, and the variables above it. -/
def skim (ctx : Context L) : Except TypeError (Context L × List (Entry L)) :=
  skimFrom ctx.entries.reverse []

/-- The variables that some entries introduce and leave unsolved. -/
def unsolved (entries : List (Entry L)) : L.Telescope :=
  entries.filterMap fun
    | .intro x kind => some (x, kind)
    | _ => none

end Context

/-- Predicates divided by the variables they mention. -/
structure SplitPredicates (L : Language) where
  /-- Those that mention a variable that is not generalized. -/
  deferred : List L.Pred
  retained : List L.Pred

/-- Reduce predicates, and divide them by whether they mention only
the given variables. -/
def splitPredicates [Rules L] (ps : List L.Pred) (ctx : Context L) (generalized : List Name) :
    Except TypeError (SplitPredicates L) := do
  let reduced ← Rules.reduce ps ctx
  let isLocal (p : L.Pred) : Bool := (freeVars p).all fun x => x ∈ generalized
  .ok ⟨reduced.filter fun p => !isLocal p, reduced.filter isLocal⟩

/-- A scheme, with the predicates that were left out of it. -/
structure Generalized (L : Language) where
  scheme : L.Scheme
  deferred : List L.Pred

/-- The scheme of a let-bound term whose type is given. The definitions
above the marker are substituted, and its unsolved variables are
quantified. Predicates that mention a variable from outside are left to
the enclosing term. -/
def generalize [Rules L] (ctx : Context L) (above : List (Entry L)) (type : L.Qualified) :
    Except TypeError (Generalized L) := do
  let body := Context.unwind (Context.definitions above) type
  let quantified := Context.unsolved above
  let split ← splitPredicates body.predicates ctx (quantified.map Prod.fst)
  .ok ⟨⟨quantified, ⟨split.retained, body.head⟩⟩, split.deferred⟩

end HindleyMilner
