import HindleyMilner.Language

/-! Entries of a typing context. A constraint is an entry like any other: it
stands above the entries it talks about until it is solved. -/
namespace HindleyMilner

open Text

/-- What a constraint asks for. -/
inductive Goal (L : Language) where
  /-- The equality of two types. -/
  | eq (left right : L.Ty)
  /-- What only this language asks for. -/
  | special (g : L.Special)

/-- A pending constraint. -/
structure Constraint (L : Language) where
  /-- The variables the constraint carries. They were lifted out of the context
  because the goal depends on them, and they go back in, in order, when it is
  reached. -/
  deps : L.Telescope
  goal : Goal L

/-- An entry of a context. -/
inductive Entry (L : Language) where
  /-- An unsolved type variable. -/
  | intro (x : Name) (kind : L.Kind)
  /-- A solved type variable, with the kind it was introduced with. -/
  | define (x : Name) (type : L.Ty) (kind : L.Kind)
  /-- A term variable. -/
  | bind (x : Name) (scheme : L.Scheme)
  /-- Where the bound term of a let starts. -/
  | marker
  | declare (d : L.Decl)
  | constraint (c : Constraint L)

variable {L : Language}

/-- Lifted variables as entries again. -/
def Language.Telescope.intros (deps : L.Telescope) : List (Entry L) :=
  deps.map fun (x, kind) => .intro x kind

def Goal.toDoc : Goal L → Doc
  | eq left right => doc .top left ++ Token.spaced Token.equation ++ doc .top right
  | special g => doc .top g

namespace Constraint

/-- The constraint that carries no variables. -/
def ofGoal (g : Goal L) : Constraint L := ⟨[], g⟩

/-- The document of the variables a constraint carries. -/
def depsDoc (deps : L.Telescope) : Doc :=
  if deps.isEmpty then []
  else
    Doc.separated Token.comma (deps.map fun (x, kind) =>
      Doc.styled .typeVariable x ++ Token.colon ++ doc .top kind)
      ++ Token.bar

/-- The document of a constraint: the variables it carries, then its goal. -/
def toDoc (c : Constraint L) : Doc :=
  Token.openBracket ++ depsDoc c.deps ++ c.goal.toDoc ++ Token.closeBracket

instance : Pretty (Constraint L) := ⟨fun _ => toDoc⟩

end Constraint

namespace Entry

def definition? : Entry L → Option (Name × L.Ty)
  | define x type _ => some (x, type)
  | _ => none

/-- The entry of a goal that carries no variables. -/
def ofGoal (g : Goal L) : Entry L := constraint (.ofGoal g)

def isConstraint : Entry L → Bool
  | constraint _ => true
  | _ => false

def constraint? : Entry L → Option (Constraint L)
  | constraint c => some c
  | _ => none

/-- The document of an entry. -/
def toDoc : Entry L → Doc
  | intro x kind => Doc.styled .typeVariable x ++ Token.spaced Token.colon ++ doc .top kind
  | define x type kind =>
      Doc.styled .typeVariable x ++ Token.spaced Token.define ++ doc .top type
        ++ Token.spaced Token.colon ++ doc .top kind
  | bind x scheme => Doc.styled .keyword x ++ Token.spaced Token.colon ++ scheme.toDoc
  | marker => Token.marker
  | declare d => doc .top d
  | constraint c => c.toDoc

instance : Pretty (Entry L) := ⟨fun _ => toDoc⟩

end Entry

end HindleyMilner
