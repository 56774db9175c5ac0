import HindleyMilner.Context

/-! States of the solver, and the view of a state from its first constraint. -/
namespace HindleyMilner

/-- A supply of fresh names together with a context. -/
structure State (L : Language) where
  supply : Supply
  context : Context L

/-- A variable equated with a type that is not a variable. -/
structure FlexRigid (L : Language) where
  name : Name
  /-- The variable as a type. -/
  flex : L.Ty
  rigid : L.Ty

/-- A context opened at its first constraint. -/
structure Focus (L : Language) where
  supply : Supply
  /-- The entries below the constraint, the nearest first. -/
  below : List (Entry L)
  /-- The entries above the constraint, the nearest first. -/
  above : List (Entry L)

variable {L : Language}

namespace Focus

/-- Put the context back together with some entries in place of the constraint. -/
def resume (f : Focus L) (emitted : List (Entry L)) : State L :=
  ⟨f.supply, ⟨f.below.reverse ++ (emitted ++ f.above)⟩⟩

/-- Put lifted variables back below the constraint. -/
def lower (f : Focus L) (deps : L.Telescope) : Focus L :=
  { f with below := deps.intros.reverse ++ f.below }

/-- Take the entry just below the constraint. -/
def pop (f : Focus L) : Except TypeError (Entry L × Focus L) :=
  match f.below with
  | top :: below => .ok (top, { f with below })
  | [] => .error (.malformed "a constraint mentions a variable that was never introduced")

/-- The fault of a constraint that is not the first. -/
def notFirst : TypeError := .malformed "constraint below the first constraint"

end Focus

namespace State

def empty : State L := ⟨.empty, .empty⟩

def push (s : State L) (e : Entry L) : State L := { s with context := s.context.push e }

def pushAll (s : State L) (es : List (Entry L)) : State L := es.foldl push s

def draw (s : State L) (stem : String) : Name × State L :=
  let drawn := s.supply.draw stem
  (drawn.1, { s with supply := drawn.2 })

def canStep (s : State L) : Bool := s.context.hasConstraint

/-- Split entries at the first constraint, given those passed so far. The
constraint is taken out where it is found, so no fault can arise between finding
its place and reading it there. -/
def splitFirst (below : List (Entry L)) :
    List (Entry L) → Option (List (Entry L) × Constraint L × List (Entry L))
  | [] => none
  | .constraint c :: above => some (below, c, above)
  | e :: above => splitFirst (e :: below) above

/-- The first constraint, with the context opened there. -/
def focus? (s : State L) : Option (Constraint L × Focus L) :=
  (splitFirst [] s.context.entries).map fun (below, c, above) => (c, ⟨s.supply, below, above⟩)

def firstConstraint? (s : State L) : Option (Constraint L) :=
  s.context.entries.findSome? Entry.constraint?

instance : Text.Pretty (State L) := ⟨fun p s => Text.doc p s.context⟩

end State

end HindleyMilner
