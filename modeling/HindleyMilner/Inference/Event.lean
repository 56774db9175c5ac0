import HindleyMilner.Solver.State
import HindleyMilner.Term
import HindleyMilner.Text.Indent

/-! What inference reports while it runs. Events are values; their wording is
made when they are read. -/
namespace HindleyMilner

open Text

/-- How detailed an event is. -/
inductive Level where
  | debug
  | trace
deriving DecidableEq, Repr

def Level.label : Level → String
  | debug => "DEBUG"
  | trace => "TRACE"

/-- Something that happened during inference. Depths count the terms around the
one an event is about. -/
inductive Event (L : Language) where
  /-- A term is about to be checked. -/
  | checking (term : Term)
  /-- The solver is about to take a step at a constraint. -/
  | solving (c : Constraint L)
  /-- The context after a step of the solver, with the number of the step. -/
  | stepped (index : Nat) (ctx : Context L)
  /-- The context at the end. -/
  | finished (ctx : Context L)
  /-- The type of a term is about to be found. -/
  | entered (depth : Nat) (term : Term)
  /-- The scheme of a variable that a let binds. -/
  | generalized (depth : Nat) (x : Name) (scheme : L.Scheme)
  /-- The type of a term was found. -/
  | left (depth : Nat) (term : Term) (type : L.Qualified)

namespace Event

variable {L : Language}

def level : Event L → Level
  | solving _ => .trace
  | _ => .debug

/-- The rule for a form of term. -/
def ruleName : Term → String
  | .var _ => "[var]"
  | .lam .. => "[lam]"
  | .app .. => "[app]"
  | .letIn .. => "[let]"
  | .float _ => "[float]"

/-- What the rule for a term sets out to solve. -/
def goalText : Term → String
  | .var x => x
  | .letIn x bound _ => x ++ " = " ++ plain bound
  | term => plain term

/-- What the rule for a term found. -/
def foundText : Term → L.Qualified → String
  | .var x, type => x ++ " : " ++ plain type
  | _, type => plain type

def margin (depth : Nat) : String := String.ofList (List.replicate depth tab).flatten

/-- The wording of an event. -/
def message : Event L → String
  | checking term => "checking " ++ plain term
  | solving c => "solving: " ++ plain c
  | stepped index ctx => "step " ++ index.repr ++ ": " ++ plain ctx
  | finished ctx => "final context: " ++ plain ctx
  | entered depth term => margin depth ++ ruleName term ++ " solving: " ++ goalText term
  | generalized depth x scheme =>
      margin depth ++ "[let] generalized: " ++ x ++ " : " ++ plain scheme
  | left depth term type => margin depth ++ ruleName term ++ " done: " ++ foundText term type

def line (e : Event L) : String := e.level.label ++ " " ++ e.message

end Event

end HindleyMilner
