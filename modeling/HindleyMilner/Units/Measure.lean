import HindleyMilner.Supply
import HindleyMilner.TypeError
import HindleyMilner.Units.Type

/-! Units of measure in normal form. Units form the free Abelian group over
variables and primitive units, so a unit is given by the exponent of each. Group
operations are written additively: `add` multiplies units and `scale` takes
powers. An operation whose result needs an exponent out of range fails. -/
namespace HindleyMilner.Units

/-- A unit, by the exponents of its variables and of its primitive units. -/
@[ext]
structure Measure where
  vars : Exponents
  prims : Exponents
deriving DecidableEq

namespace Measure

/-- The unit of dimensionless numbers. -/
def identity : Measure := ⟨.zero, .zero⟩

def var (x : Name) : Measure := ⟨.single x, .zero⟩

def prim (p : Name) : Measure := ⟨.zero, .single p⟩

def isIdentity (u : Measure) : Bool := u.vars.isEmpty && u.prims.isEmpty

def isConstant (u : Measure) : Bool := u.vars.isEmpty

def exponent (u : Measure) (x : Name) : Exponent := u.vars.get x

def varCount (u : Measure) : Nat := u.vars.size

instance : FreeVars Measure := ⟨fun u => u.vars.names⟩

/-- The powers that make up a unit: variables in name order, then primitive
units in name order. -/
def factors (u : Measure) : List Ty :=
  u.vars.toList.map (fun (x, e) => .pow (.var x) e) ++
    u.prims.toList.map (fun (p, e) => .pow (.prim p) e)

/-- The canonical type of a unit: its powers multiplied from left to right. -/
def toType (u : Measure) : Ty :=
  match u.factors with
  | [] => .one
  | first :: rest => rest.foldl .mul first

instance : Text.Pretty Measure := ⟨fun p u => u.toType.toDoc p⟩

/-- The failure of an operation on a unit whose result is out of range. -/
def outOfRange (u : Measure) : TypeError := .unitMismatch (Text.plain u)

/-- The unit with the given exponents, or the given error if one of them did not
fit. -/
def ofExponents (e : TypeError) : Option Exponents → Option Exponents → Except TypeError Measure
  | some vars, some prims => .ok ⟨vars, prims⟩
  | _, _ => .error e

/-- The product of two units. A failure is blamed on the first. -/
def add (u v : Measure) : Except TypeError Measure :=
  ofExponents u.outOfRange (u.vars.add? v.vars) (u.prims.add? v.prims)

/-- Apply an operation to every exponent. A failure is blamed on the unit. -/
def mapExponents (u : Measure) (f : Exponent → Option Exponent) : Except TypeError Measure :=
  ofExponents u.outOfRange (u.vars.map? f) (u.prims.map? f)

def scale (u : Measure) (n : Exponent) : Except TypeError Measure :=
  u.mapExponents (·.mul? n)

def invert (u : Measure) : Except TypeError Measure := u.scale (-1)

def subtract (u v : Measure) : Except TypeError Measure := do u.add (← v.invert)

/-- Divide every exponent, rounding toward zero. A unit with a factor cannot
be divided by zero. -/
def divide (u : Measure) (d : Exponent) : Except TypeError Measure :=
  u.mapExponents (·.div? d)

/-- Whether a number divides every exponent. -/
def divisibleBy (u : Measure) (d : Exponent) : Bool :=
  d ≠ 0 && (u.vars.toList ++ u.prims.toList).all fun (_, e) => d.toInt ∣ e.toInt

/-- Whether the exponent of some other variable is at least as large in absolute
value as that of the given one. -/
def hasRival (u : Measure) (x : Name) : Bool :=
  u.vars.toList.any fun (y, f) => y ≠ x && (u.exponent x).toInt.natAbs ≤ f.toInt.natAbs

/-- Solve the equation that makes the unit the identity for a variable, as far
as integer exponents allow: all other exponents are divided by the negated
exponent of the variable. -/
def pivot (u : Measure) (x : Name) : Except TypeError Measure :=
  let e := u.exponent x
  if e = 0 then .ok identity
  else do
    let power ← (var x).scale e
    let rest ← u.subtract power
    let quotient ← rest.divide e
    quotient.invert

def substitute (u : Measure) (x : Name) (v : Measure) : Except TypeError Measure := do
  let difference ← v.subtract (var x)
  let change ← difference.scale (u.exponent x)
  change.add u

end Measure

namespace Ty

/-- The unit that a type of the kind of units stands for. -/
def toMeasure : Ty → Except TypeError Measure
  | var x => .ok (.var x)
  | prim p => .ok (.prim p)
  | one => .ok .identity
  | mul a b => do
      let u ← a.toMeasure
      let v ← b.toMeasure
      u.add v
  | pow a e => do
      let u ← a.toMeasure
      u.scale e
  | arrow .. => .error (.kindMismatch (Text.plain Kind.unit) (Text.plain Kind.value))
  | float _ => .error (.kindMismatch (Text.plain Kind.unit) (Text.plain Kind.value))

/-- The canonical form of a unit, or the type itself if it is none. -/
def renormalized (u : Ty) : Ty :=
  match u.toMeasure with
  | .ok m => m.toType
  | .error _ => u

/-- Replace all assigned variables at once. Units that numbers carry are brought
back to canonical form. -/
def subst (σ : Assignment Ty) : Ty → Ty
  | var x => (σ x).getD (var x)
  | arrow a b => arrow (a.subst σ) (b.subst σ)
  | float u => float (u.subst σ).renormalized
  | one => one
  | mul a b => mul (a.subst σ) (b.subst σ)
  | pow a e => pow (a.subst σ) e
  | prim p => prim p

instance : Substitute Ty Ty := ⟨subst⟩

/-- Bring every unit inside a type to canonical form. -/
def canonical : Ty → Except TypeError Ty
  | var x => .ok (var x)
  | prim p => .ok (prim p)
  | one => .ok one
  | arrow a b => do
      let a ← a.canonical
      let b ← b.canonical
      .ok (arrow a b)
  | float u => do
      let m ← u.toMeasure
      .ok (float m.toType)
  | mul a b => do
      let m ← (mul a b).toMeasure
      .ok m.toType
  | pow a e => do
      let m ← (pow a e).toMeasure
      .ok m.toType

end Ty

/-- The shape of a value type with its units taken out. -/
structure Hull where
  /-- The type with a new variable for the unit of every number. -/
  shape : Ty
  /-- The new variables, from left to right, with the units they stand for. -/
  holes : List (Name × Ty)
  /-- The supply after the new names were drawn. -/
  supply : Supply

/-- Take the units out of a value type. Variables are their own hull. -/
def Ty.hull (supply : Supply) : Ty → Except TypeError Hull
  | var x => .ok ⟨var x, [], supply⟩
  | arrow a b => do
      let left ← a.hull supply
      let right ← b.hull left.supply
      .ok ⟨arrow left.shape right.shape, left.holes ++ right.holes, right.supply⟩
  | float u =>
      let drawn := supply.draw "h"
      .ok ⟨float (var drawn.1), [(drawn.1, u)], drawn.2⟩
  | one => .error unitFound
  | mul .. => .error unitFound
  | pow .. => .error unitFound
  | prim _ => .error unitFound
where
  /-- A unit where a value type is due. -/
  unitFound : TypeError := .kindMismatch (Text.plain Kind.value) (Text.plain Kind.unit)

end HindleyMilner.Units
