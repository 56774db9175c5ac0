import HindleyMilner.Binary64
import HindleyMilner.Solver.State

/-! The rules of the solver. An equation between a variable and another type
walks down the context: it passes the entries that do not concern it, picks up
the variables its other side depends on, and becomes a definition where its
variable was introduced. What differs between languages is collected in
`Rules`. -/
namespace HindleyMilner

variable {L : Language}

/-- What a language adds to the solver and to inference. -/
class Rules (L : Language) where
  /-- The goals that replace the equality of two types neither of which is a
  variable. -/
  decompose : L.Ty → L.Ty → Except TypeError (List (Goal L))
  /-- What becomes of an equation between a variable and another type that
  carries the given variables: either it walks down the context, or constraints
  replace it. -/
  flexRigid : Supply → L.Telescope → FlexRigid L →
    Except TypeError (Option (Supply × List (Constraint L)))
  /-- One step of a constraint whose goal only this language has. -/
  special : Focus L → L.Telescope → L.Special → Except TypeError (State L)
  /-- The type of a literal. -/
  literal : Binary64 → Except TypeError L.Ty
  /-- Simplify the predicates of an inferred type. -/
  reduce : List L.Pred → Context L → Except TypeError (List L.Pred)
  /-- The form in which an inferred type is given out. -/
  finish : L.Ty → Except TypeError L.Ty

namespace Focus

/-- One step of an equation between a variable and another type against the
entry below it. The goal is what the equation is written as while it walks. -/
def walk (goal : Goal L) (f : Focus L) (deps : L.Telescope) (eq : FlexRigid L) :
    Except TypeError (State L) := do
  let (top, f) ← f.pop
  match top with
  | .intro x kind =>
      if x = eq.name then
        if mentions eq.rigid x then .error (.occurs x (Text.plain eq.rigid))
        else .ok (f.resume (deps.intros ++ [.define x eq.rigid kind]))
      else if mentions eq.rigid x then .ok (f.resume [.constraint ⟨(x, kind) :: deps, goal⟩])
      else .ok (f.resume [.constraint ⟨deps, goal⟩, top])
  | .define x type _ =>
      let goal :=
        if x = eq.name ∨ mentions eq.rigid x then
          .eq (subst1 x type eq.flex) (subst1 x type eq.rigid)
        else goal
      .ok (f.resume (deps.intros ++ [.ofGoal goal, top]))
  | .constraint _ => .error notFirst
  | top => .ok (f.resume [.constraint ⟨deps, goal⟩, top])

/-- One step of an equation between two different variables against the entry
below it. The variable that was introduced last is defined. -/
def meetVars (f : Focus L) (a b : Name) (left right : L.Ty) : Except TypeError (State L) := do
  let (top, f) ← f.pop
  match top with
  | .intro x kind =>
      if x = a then .ok (f.resume [.define a right kind])
      else if x = b then .ok (f.resume [.define b left kind])
      else .ok (f.resume [.ofGoal (.eq left right), top])
  | .define x type _ =>
      if x = a ∨ x = b then
        .ok (f.resume [.ofGoal (.eq (subst1 x type left) (subst1 x type right)), top])
      else .ok (f.resume [.ofGoal (.eq left right), top])
  | .constraint _ => .error notFirst
  | top => .ok (f.resume [.ofGoal (.eq left right), top])

/-- One step of an equation between a variable and another type. -/
def flexRigid [Rules L] (f : Focus L) (deps : L.Telescope) (eq : FlexRigid L) :
    Except TypeError (State L) := do
  match ← Rules.flexRigid f.supply deps eq with
  | none => f.walk (.eq eq.flex eq.rigid) deps eq
  | some (supply, constraints) =>
      .ok ({ f with supply }.resume (constraints.map .constraint))

def solveEq [Rules L] (f : Focus L) (deps : L.Telescope) (left right : L.Ty) :
    Except TypeError (State L) :=
  match L.asVar? left, L.asVar? right with
  | some x, none => f.flexRigid deps ⟨x, left, right⟩
  | none, some x => f.flexRigid deps ⟨x, right, left⟩
  | some a, some b =>
      if a = b then .ok (f.resume deps.intros)
      else (f.lower deps).meetVars a b left right
  | none, none => do
      let goals ← Rules.decompose left right
      .ok ((f.lower deps).resume (goals.map .ofGoal))

def solve [Rules L] (f : Focus L) (c : Constraint L) : Except TypeError (State L) :=
  match c.goal with
  | .eq left right => f.solveEq c.deps left right
  | .special g => Rules.special f c.deps g

end Focus

/-- Take one step at the first constraint. A state without
constraints stays as it is. -/
def State.step [Rules L] (s : State L) : Except TypeError (State L) :=
  match s.focus? with
  | some (c, f) => f.solve c
  | none => .ok s

end HindleyMilner
