import HindleyMilner.Diagnostic
import HindleyMilner.Name

/-! What can make inference fail. Types and kinds are kept as the text they
print as, so the errors of all type languages share one type. -/
namespace HindleyMilner

inductive TypeError where
  /-- A term variable without a binding. -/
  | unboundVariable (name : Name)
  /-- Two types with different constructors at their heads. -/
  | mismatch (left right : String)
  /-- A variable that would have to contain itself. -/
  | occurs (name : Name) (type : String)
  | kindMismatch (expected found : String)
  /-- A predicate about a constructed type that no instance provides. -/
  | noInstance (predicate : String)
  | overlap (candidate existing : String)
  /-- A unit equation without solution, or unit arithmetic that leaves the range
  of exponents. -/
  | unitMismatch (unit : String)
  /-- A context that breaks the rules of the solver. -/
  | malformed (reason : String)
  | unknownClass (name : Name)
  | duplicateClass (name : Name)
  /-- A term the type language has no rule for. -/
  | unsupportedTerm (term : String)
  | unsupported (feature : String)
deriving DecidableEq, Repr

namespace TypeError

def quoted (s : String) : String := "`" ++ s ++ "`"

def message : TypeError → String
  | unboundVariable x => "unbound variable " ++ quoted x
  | mismatch l r => "cannot unify " ++ quoted l ++ " with " ++ quoted r
  | occurs x t => "occurs check failed: " ++ quoted x ++ " occurs in " ++ quoted t
  | kindMismatch e f => "kind mismatch: expected " ++ quoted e ++ ", found " ++ quoted f
  | noInstance p => "no instance for " ++ quoted p
  | overlap c e => "instance " ++ quoted c ++ " overlaps with " ++ quoted e
  | unitMismatch u => "unit equation " ++ quoted u ++ " has no solution"
  | malformed m => "malformed context: " ++ m
  | unknownClass c => "unknown class " ++ quoted c
  | duplicateClass c => "class " ++ quoted c ++ " is already declared"
  | unsupportedTerm t => quoted t ++ " is not supported by this language"
  | unsupported f => "unsupported: " ++ f

/-- Whether the fault lies with the engine rather than with its input. -/
def isInternal : TypeError → Bool
  | malformed _ => true
  | _ => false

/-- What is said beside the message, if anything. -/
def note? : TypeError → Option String
  | occurs .. => some "the type would be infinite"
  | noInstance _ => some "no instance matches and the argument is not a type variable"
  | malformed _ => some "this is a bug in the inference engine"
  | _ => none

def toDiagnostic (e : TypeError) : Diagnostic := ⟨e.message, e.note?.toList⟩

def toReport (e : TypeError) : Report := .ofDiagnostic e.toDiagnostic

end TypeError

/-- A computation in two parts succeeds exactly if both parts do, the second one
from what the first one gave. -/
theorem bind_eq_ok {ε α β : Type} {m : Except ε α} {f : α → Except ε β} {b : β} :
    (m >>= f) = .ok b ↔ ∃ a, m = .ok a ∧ f a = .ok b := by
  cases m with
  | error e =>
      constructor
      · intro h
        cases h
      · rintro ⟨a, ha, -⟩
        cases ha
  | ok a =>
      constructor
      · exact fun h => ⟨a, rfl, h⟩
      · rintro ⟨_, ⟨⟩, h⟩
        exact h

end HindleyMilner
