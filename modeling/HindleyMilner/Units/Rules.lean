import HindleyMilner.Solver.Rules
import HindleyMilner.Units.Language

/-! The rules of the language with units. An equation of two number types
becomes an equation of their units. A variable equated with a type that carries
units is first equated with the hull of that type, and the units the hull left
out are equated separately. -/
namespace HindleyMilner.Units

/-- The goal that a unit is that of dimensionless numbers. -/
abbrev isOne (unit : Measure) : Goal language := .special (.identity unit)

/-- Two arrows are equal if their domains and their codomains are, and two
number types if the quotient of their units is dimensionless. -/
def decompose : Ty → Ty → Except TypeError (List (Goal language))
  | .arrow a b, .arrow c d => .ok [.eq a c, .eq b d]
  | .float u, .float v => do
      let u ← u.toMeasure
      let v ← v.toMeasure
      let quotient ← u.subtract v
      .ok [isOne quotient]
  | l, r => .error (.mismatch (Text.plain l) (Text.plain r))

/-- The goals that equate the variables of a hull with the units they stand for. -/
def holeGoals : List (Name × Ty) → Except TypeError (List (Goal language))
  | [] => .ok []
  | (h, type) :: holes => do
      let unit ← type.toMeasure
      let quotient ← (Measure.var h).subtract unit
      let goals ← holeGoals holes
      .ok (isOne quotient :: goals)

/-- Equate a variable with the hull of a type, and the variables of the hull
with the units of the type. -/
def equateHull (supply : Supply) (deps : language.Telescope) (eq : FlexRigid language) :
    Except TypeError (Supply × List (Constraint language)) := do
  let hull ← eq.rigid.hull supply
  let goals ← holeGoals hull.holes
  let holes := hull.holes.map fun hole => (hole.1, Kind.unit)
  .ok (hull.supply, ⟨deps ++ holes, .special (.hull eq.name hull.shape)⟩ :: goals.map .ofGoal)

/-- One step of a unit equation at the entry that introduces one of its
variables. The variable is defined at once if the equation can be divided by its
exponent. Otherwise, if another variable has as large an exponent, it is defined
up to a new variable, which leaves smaller exponents. Otherwise another variable
is looked for further down. -/
def eliminate (f : Focus language) (deps : language.Telescope) (unit : Measure) (x : Name)
    (kind : Kind) : Except TypeError (State language) := do
  if unit.divisibleBy (unit.exponent x) then
    let solution ← unit.pivot x
    .ok (f.resume (deps.intros ++ [.define x solution.toType kind]))
  else if unit.hasRival x then
    let drawn := f.supply.draw "b"
    let quotient ← unit.pivot x
    let solution ← quotient.add (.var drawn.1)
    let reduced ← unit.substitute x solution
    let f : Focus language := { f with supply := drawn.2 }
    .ok (f.resume (.intro drawn.1 .unit :: deps.intros
      ++ [.ofGoal (isOne reduced), .define x solution.toType kind]))
  else if 1 < unit.varCount then
    .ok (f.resume [.constraint ⟨(x, kind) :: deps, isOne unit⟩])
  else .error (.unitMismatch (Text.plain unit))

def solveUnit (f : Focus language) (deps : language.Telescope) (unit : Measure) :
    Except TypeError (State language) :=
  if unit.isIdentity then .ok (f.resume deps.intros)
  else if unit.isConstant then .error (.unitMismatch (Text.plain unit))
  else do
    let (top, f) ← f.pop
    match top with
    | .define x type _ =>
        if unit.exponent x = 0 then .ok (f.resume [.constraint ⟨deps, isOne unit⟩, top])
        else
          let value ← type.toMeasure
          let unit ← unit.substitute x value
          .ok (f.resume (deps.intros ++ [.ofGoal (isOne unit), top]))
    | .intro x kind =>
        if unit.exponent x = 0 then .ok (f.resume [.constraint ⟨deps, isOne unit⟩, top])
        else eliminate f deps unit x kind
    | .constraint _ => .error Focus.notFirst
    | top => .ok (f.resume [.constraint ⟨deps, isOne unit⟩, top])

/-- One step of a goal beside the equality of types. -/
def solveSpecial (f : Focus language) (deps : language.Telescope) :
    UnitGoal → Except TypeError (State language)
  | .hull x shape => f.walk (.special (.hull x shape)) deps ⟨x, .var x, shape⟩
  | .identity unit => solveUnit f deps unit

instance : Rules language where
  decompose := decompose
  flexRigid supply deps eq := do
    let made ← equateHull supply deps eq
    .ok (some made)
  special := solveSpecial
  literal _ := .ok (.float .one)
  reduce ps _ := .ok ps
  finish := Ty.canonical

end HindleyMilner.Units
