import HindleyMilner.Classes.Kind
import HindleyMilner.Scheme
import HindleyMilner.TypeError

/-! Types built from constructors and variables of any kind, the predicates on
them and the classes these come from. -/
namespace HindleyMilner.Classes

/-- A type. Every occurrence of a variable or constructor carries its kind. -/
inductive Ty where
  | var (x : Name) (kind : Kind)
  | con (c : Name) (kind : Kind)
  | app (function argument : Ty)
deriving DecidableEq, Repr

namespace Ty

/-- The name of the function type constructor. -/
def arrowName : Name := "->"

def fn (domain codomain : Ty) : Ty :=
  app (app (con arrowName (Kind.constructor 2)) domain) codomain

/-- The type of curried functions of several arguments. -/
def fns (domains : List Ty) (codomain : Ty) : Ty := domains.foldr fn codomain

/-- Domain and codomain, if the type is that of functions. The constructor is
known by its name, whatever kind it carries. -/
def asFn? : Ty → Option (Ty × Ty)
  | app (app (con c _) domain) codomain => if c = arrowName then some (domain, codomain) else none
  | _ => none

def asVar? : Ty → Option Name
  | var x _ => some x
  | _ => none

/-- The kind of a type, computed from the kinds its parts carry. -/
def kind : Ty → Except TypeError Kind
  | var _ k => .ok k
  | con _ k => .ok k
  | app f a => do
      match ← f.kind with
      | .arrow domain codomain =>
          let found ← a.kind
          if domain = found then .ok codomain
          else .error (.kindMismatch (Text.plain domain) (Text.plain found))
      | .data => .error (.kindMismatch "k1 -> k2" (Text.plain Kind.data))

def hasKind (t : Ty) (k : Kind) : Bool :=
  match t.kind with
  | .ok found => found = k
  | .error _ => false

def isHeadNormal : Ty → Bool
  | var .. => true
  | con .. => false
  | app f _ => f.isHeadNormal

def freeVars : Ty → List Name
  | var x _ => [x]
  | con .. => []
  | app f a => f.freeVars ++ a.freeVars

/-- Replace all assigned variables at once, whatever kind they carry. -/
def subst (σ : Assignment Ty) : Ty → Ty
  | var x k => (σ x).getD (var x k)
  | con c k => con c k
  | app f a => app (f.subst σ) (a.subst σ)

instance : FreeVars Ty := ⟨freeVars⟩
instance : Substitute Ty Ty := ⟨subst⟩

open Text in
def toDoc (p : Position) : Ty → Doc
  | var x _ => Doc.styled .typeVariable x
  | con c _ => Doc.styled .constant c
  | app (app (con c k) a) b =>
      if c = arrowName then arrowDoc p (fun q => a.toDoc q) (fun q => b.toDoc q)
      else applyDoc p (fun q => (app (con c k) a).toDoc q) (fun q => b.toDoc q)
  | app f a => applyDoc p (fun q => f.toDoc q) (fun q => a.toDoc q)

instance : Text.Pretty Ty := ⟨toDoc⟩

end Ty

/-- The statement that a type belongs to a class. -/
structure Predicate where
  className : Name
  argument : Ty
deriving DecidableEq, Repr

namespace Predicate

def isHeadNormal (p : Predicate) : Bool := p.argument.isHeadNormal

instance : FreeVars Predicate := ⟨fun p => p.argument.freeVars⟩
instance : Substitute Ty Predicate := ⟨fun σ p => { p with argument := p.argument.subst σ }⟩

instance : Text.Pretty Predicate :=
  ⟨fun _ p => Text.Doc.styled .tag p.className ++ Text.Token.space ++ p.argument.toDoc .argument⟩

end Predicate

abbrev QualifiedType := Qualified Ty Predicate
abbrev TypeScheme := Scheme Kind Ty Predicate

/-- A class with its instances in the order of their declaration. The head of an
instance's body is the type that is made a member, and its predicates are what
the instance needs. -/
structure ClassDecl where
  name : Name
  instances : List TypeScheme
deriving DecidableEq, Repr

open Text in
instance : Text.Pretty ClassDecl :=
  ⟨fun _ d => Doc.styled .keyword "class" ++ Token.space ++ Doc.styled .tag d.name ++ Token.space
    ++ Doc.delimited Token.openBracket Token.closeBracket Token.comma
      (d.instances.map Scheme.toDoc)⟩

end HindleyMilner.Classes
