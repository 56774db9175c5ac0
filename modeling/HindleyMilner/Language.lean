import HindleyMilner.Scheme

/-! Type languages. The solver and the inference algorithm are written once for
all of them; a language says what its kinds, types, predicates, declarations and
constraints are. -/
namespace HindleyMilner

open Text

/-- A type language. -/
structure Language where
  Kind : Type
  Ty : Type
  Pred : Type
  Decl : Type
  /-- What constraints can ask for beside the equality of types. -/
  Special : Type
  [prettyKind : Pretty Kind]
  [prettyTy : Pretty Ty]
  [prettyPred : Pretty Pred]
  [prettyDecl : Pretty Decl]
  [prettySpecial : Pretty Special]
  [freeVarsTy : FreeVars Ty]
  [freeVarsPred : FreeVars Pred]
  [substituteTy : Substitute Ty Ty]
  [substitutePred : Substitute Ty Pred]
  /-- The kind of the types that terms have. -/
  valueKind : Kind
  /-- A variable as a type. -/
  var : Name → Kind → Ty
  /-- The type of functions. -/
  arrow : Ty → Ty → Ty
  /-- The variable, if a type is one. -/
  asVar? : Ty → Option Name

namespace Language

attribute [instance] prettyKind prettyTy prettyPred prettyDecl prettySpecial freeVarsTy
  freeVarsPred substituteTy substitutePred

abbrev Qualified (L : Language) := HindleyMilner.Qualified L.Ty L.Pred

abbrev Scheme (L : Language) := HindleyMilner.Scheme L.Kind L.Ty L.Pred

/-- Type variables with their kinds, in order. -/
abbrev Telescope (L : Language) := List (Name × L.Kind)

end Language

end HindleyMilner
