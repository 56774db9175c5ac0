import HindleyMilner.Substitution
import HindleyMilner.Text.Pretty
import HindleyMilner.TypeError

/-! Types with sequences. A sequence stands for a run of types, and a dotted
tail for any number of further ones. A variable of sequence kind may be replaced
by a sequence, which then joins the sequence around it and spreads applications
over its elements. -/
namespace HindleyMilner.Sequence

inductive Kind where
  /-- The kind of the types that values have. -/
  | data
  | arrow (domain codomain : Kind)
  /-- The kind of sequences. -/
  | seq (element : Kind)
deriving DecidableEq, Repr

open Text in
def Kind.toDoc (p : Position) : Kind → Doc
  | data => Token.star
  | arrow a b => arrowDoc p (fun q => a.toDoc q) (fun q => b.toDoc q)
  | seq k => Token.openBracket ++ k.toDoc .top ++ Token.closeBracket

instance : Text.Pretty Kind := ⟨Kind.toDoc⟩

/-- A type. Every occurrence of a variable or constructor carries its kind. -/
inductive Ty where
  | var (x : Name) (kind : Kind)
  | con (c : Name) (kind : Kind)
  | app (function argument : Ty)
  /-- A run of types. -/
  | seq (elements : List Ty)
  /-- A run of types followed by any number of further ones. -/
  | dotted (elements : List Ty) (tail : Ty)
deriving Repr

namespace Ty

mutual

/-- Equality of types is decided node by node. -/
def decEq : (a b : Ty) → Decidable (a = b)
  | var x k, var y l =>
      decidable_of_iff (x = y ∧ k = l) (by simp)
  | con x k, con y l =>
      decidable_of_iff (x = y ∧ k = l) (by simp)
  | app f a, app g b =>
      match decEq f g, decEq a b with
      | isTrue h₁, isTrue h₂ => isTrue (h₁ ▸ h₂ ▸ rfl)
      | isFalse h, _ => isFalse fun he => h (Ty.app.inj he).1
      | _, isFalse h => isFalse fun he => h (Ty.app.inj he).2
  | seq as, seq bs =>
      match decEqAll as bs with
      | isTrue h => isTrue (h ▸ rfl)
      | isFalse h => isFalse fun he => h (Ty.seq.inj he)
  | dotted as s, dotted bs t =>
      match decEqAll as bs, decEq s t with
      | isTrue h₁, isTrue h₂ => isTrue (h₁ ▸ h₂ ▸ rfl)
      | isFalse h, _ => isFalse fun he => h (Ty.dotted.inj he).1
      | _, isFalse h => isFalse fun he => h (Ty.dotted.inj he).2
  | var .., con .. | var .., app .. | var .., seq .. | var .., dotted ..
  | con .., var .. | con .., app .. | con .., seq .. | con .., dotted ..
  | app .., var .. | app .., con .. | app .., seq .. | app .., dotted ..
  | seq .., var .. | seq .., con .. | seq .., app .. | seq .., dotted ..
  | dotted .., var .. | dotted .., con .. | dotted .., app .. | dotted .., seq .. =>
      isFalse nofun

def decEqAll : (as bs : List Ty) → Decidable (as = bs)
  | [], [] => isTrue rfl
  | [], _ :: _ => isFalse nofun
  | _ :: _, [] => isFalse nofun
  | a :: as, b :: bs =>
      match decEq a b, decEqAll as bs with
      | isTrue h₁, isTrue h₂ => isTrue (h₁ ▸ h₂ ▸ rfl)
      | isFalse h, _ => isFalse fun he => h (List.cons.inj he).1
      | _, isFalse h => isFalse fun he => h (List.cons.inj he).2

end

instance : DecidableEq Ty := decEq

/-- The kind of a type, computed from the kinds its parts carry. A sequence is
one of data types, whatever its elements are. -/
def kind : Ty → Except TypeError Kind
  | var _ k => .ok k
  | con _ k => .ok k
  | app f a => do
      match ← f.kind with
      | .arrow domain codomain =>
          let found ← a.kind
          if domain = found then .ok codomain
          else .error (.kindMismatch (Text.plain domain) (Text.plain found))
      | found => .error (.kindMismatch "k1 -> k2" (Text.plain found))
  | seq _ => .ok (.seq .data)
  | dotted .. => .ok (.seq .data)

def hasKind (t : Ty) (k : Kind) : Bool :=
  match t.kind with
  | .ok found => found = k
  | .error _ => false

mutual

def freeVars : Ty → List Name
  | var x _ => [x]
  | con .. => []
  | app f a => f.freeVars ++ a.freeVars
  | seq elements => freeVarsAll elements
  | dotted elements tail => freeVarsAll elements ++ tail.freeVars

def freeVarsAll : List Ty → List Name
  | [] => []
  | t :: ts => t.freeVars ++ freeVarsAll ts

end

instance : FreeVars Ty := ⟨freeVars⟩

mutual

/-- How deeply sequences nest at the top of the type. -/
def depth : Ty → Nat
  | var .. => 0
  | con .. => 0
  | app .. => 0
  | seq elements => depthAll elements + 1
  | dotted elements tail => max (depthAll elements) tail.depth + 1

def depthAll : List Ty → Nat
  | [] => 0
  | t :: ts => max t.depth (depthAll ts)

end

/-- The depth of each element of a sequence. Other types have no elements. -/
def levels : Ty → List Nat
  | seq elements => elements.map depth
  | dotted elements _ => elements.map depth
  | _ => []

open Text in
mutual

def toDoc (p : Position) : Ty → Doc
  | var x _ => Doc.styled .typeVariable x
  | con c _ => Doc.styled .constant c
  | app f a => applyDoc p (fun q => f.toDoc q) (fun q => a.toDoc q)
  | seq elements =>
      Token.openBracket ++ Doc.separated Token.comma (docs elements) ++ Token.closeBracket
  | dotted elements tail =>
      Token.openBracket
        ++ Doc.separated Token.comma (docs elements ++ [tail.toDoc .argument ++ Token.ellipsis])
        ++ Token.closeBracket

def docs : List Ty → List Doc
  | [] => []
  | t :: ts => t.toDoc .top :: docs ts

end

instance : Text.Pretty Ty := ⟨toDoc⟩

/-- The application of types of which either may be a sequence. A sequence
without a tail spreads the application over its elements, and two of them are
applied element by element. -/
def spread : Ty → Ty → Except TypeError Ty
  | seq fs, seq as =>
      if fs.length = as.length then .ok (seq (fs.zipWith app as))
      else .error (.kindMismatch ("a sequence of " ++ fs.length.repr)
        ("a sequence of " ++ as.length.repr))
  | seq fs, a => .ok (seq (fs.map fun f => app f a))
  | f, seq as => .ok (seq (as.map fun a => app f a))
  | f, a => .ok (app f a)

mutual

/-- Put a type for a variable. Sequences without a tail join the sequence they
end up in, and a sequence with a tail may do so only at the end. -/
def subst (t : Ty) (x : Name) (u : Ty) : Except TypeError Ty :=
  match t with
  | var y k => .ok (if y = x then u else var y k)
  | con c k => .ok (con c k)
  | app f a => do
      let f ← f.subst x u
      let a ← a.subst x u
      spread f a
  | seq elements => do
      let elements ← substAll elements x u
      .ok (seq elements)
  | dotted elements tail => do
      let elements ← substAll elements x u
      match ← tail.subst x u with
      | seq inner => .ok (seq (elements ++ inner))
      | dotted inner tail => .ok (dotted (elements ++ inner) tail)
      | tail => .ok (dotted elements tail)

/-- Put a type for a variable in a run, joining what becomes a sequence. -/
def substAll (ts : List Ty) (x : Name) (u : Ty) : Except TypeError (List Ty) :=
  match ts with
  | [] => .ok []
  | t :: ts => do
      match ← t.subst x u with
      | seq inner =>
          let ts ← substAll ts x u
          .ok (inner ++ ts)
      | dotted .. =>
          .error (.unsupported "a dotted sequence spliced before the end of a sequence")
      | t =>
          let ts ← substAll ts x u
          .ok (t :: ts)

end

end Ty

end HindleyMilner.Sequence
