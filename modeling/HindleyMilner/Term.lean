import HindleyMilner.Binary64
import HindleyMilner.Name
import HindleyMilner.Text.Pretty

/-! Terms of the lambda calculus with let bindings and floating point literals. -/
namespace HindleyMilner

inductive Term where
  | var (x : Name)
  /-- The function of `x` with the given body. -/
  | lam (x : Name) (body : Term)
  | app (function argument : Term)
  /-- The body with `x` bound to another term, which does not see the binding. -/
  | letIn (x : Name) (bound body : Term)
  | float (value : Binary64)
deriving DecidableEq, Repr

namespace Term

/-- A function applied to several arguments in turn. -/
def apps (function : Term) (arguments : List Term) : Term := arguments.foldl app function

def freeVars : Term → List Name
  | var x => [x]
  | lam x body => body.freeVars.filter (· ≠ x)
  | app function argument => function.freeVars ++ argument.freeVars
  | letIn x bound body => body.freeVars.filter (· ≠ x) ++ bound.freeVars
  | float _ => []

open Text in
/-- The document of a term. Abstractions and let bindings reach as far right as
they can, so they are put in parentheses anywhere but at the top. -/
def toDoc (p : Position) : Term → Doc
  | var x => Doc.text x
  | float value => Doc.styled .constant value.text
  | lam x body =>
      parensIf (p ≠ .top) (Token.lambda ++ Doc.text x ++ Token.period ++ body.toDoc .top)
  | app function argument =>
      applyDoc p (fun q => function.toDoc q) (fun q => argument.toDoc q)
  | letIn x bound body =>
      parensIf (p ≠ .top)
        (Doc.styled .keyword "let" ++ Doc.text (" " ++ x ++ " ") ++ Token.equals ++ Token.space
          ++ bound.toDoc .top ++ Token.spaced (Doc.styled .keyword "in") ++ body.toDoc .top)

instance : Text.Pretty Term := ⟨toDoc⟩

end Term

end HindleyMilner
