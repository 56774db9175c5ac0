import HindleyMilner.Classes.Resolution
import HindleyMilner.Solver.Rules
import HindleyMilner.Term

/-! The rules of the language with classes. A variable is defined by a type of its own
kind, if the type is not a variable too. -/
namespace HindleyMilner.Classes

/-- Constructors are equal if their names are, and applications if their parts
are. -/
def decompose : Ty → Ty → Except TypeError (List (Goal language))
  | .con a k, .con b j =>
      if a = b then .ok []
      else .error (.mismatch (Text.plain (Ty.con a k)) (Text.plain (Ty.con b j)))
  | .app f a, .app g b => .ok [.eq f g, .eq a b]
  | l, r => .error (.mismatch (Text.plain l) (Text.plain r))

def sameKind (expected found : Ty) : Except TypeError Unit := do
  let k ← expected.kind
  let j ← found.kind
  if k = j then .ok () else .error (.kindMismatch (Text.plain k) (Text.plain j))

instance : Rules language where
  decompose := decompose
  flexRigid _ _ eq := do
    sameKind eq.flex eq.rigid
    .ok none
  special _ _ g := nomatch g
  literal value := .error (.unsupportedTerm (Text.plain (Term.float value)))
  reduce ps ctx := (reduce ctx searchLimit ps).toExcept
  finish := .ok

end HindleyMilner.Classes
