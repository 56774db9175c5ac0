import HindleyMilner.Classes.Unification
import HindleyMilner.Context
import HindleyMilner.Solver.State

/-! The language of types with classes. Class declarations stand in the context
beside the other entries, and instances are added to them. -/
namespace HindleyMilner.Classes

/-- The language of types with classes. -/
abbrev language : Language where
  Kind := Kind
  Ty := Ty
  Pred := Predicate
  Decl := ClassDecl
  Special := Empty
  valueKind := .data
  var := .var
  arrow := .fn
  asVar? := Ty.asVar?

abbrev ClassContext := Context language
abbrev ClassState := State language

def findClass (ctx : ClassContext) (name : Name) : Option ClassDecl :=
  ctx.decls.find? fun d => d.name = name

def addClass (s : ClassState) (name : Name) : Except TypeError ClassState :=
  match findClass s.context name with
  | some _ => .error (.duplicateClass name)
  | none => .ok (s.push (.declare ⟨name, []⟩))

/-- The instances of a list with their heads, after the variables of each were
renamed apart from those of all others. -/
def freshHeads (supply : Supply) : List TypeScheme → List (TypeScheme × Ty) × Supply
  | [] => ([], supply)
  | scheme :: rest =>
      let made := scheme.instantiate supply "tc" .var
      let others := freshHeads made.supply rest
      ((scheme, made.body.head) :: others.1, others.2)

/-- The first of some instances whose head overlaps with that of a candidate. -/
def findOverlap (existing : List TypeScheme) (candidate : TypeScheme) : Option TypeScheme :=
  let heads := freshHeads .empty existing
  let head := (candidate.instantiate heads.2 "tc" .var).body.head
  (heads.1.find? fun h => h.2.overlaps head).map Prod.fst

/-- An entry with an instance added, if it declares the given class. -/
def extendEntry (className : Name) (candidate : TypeScheme) : Entry language → Entry language
  | .declare d =>
      if d.name = className then .declare { d with instances := d.instances ++ [candidate] }
      else .declare d
  | e => e

/-- Add an instance to a declared class. It is refused if its head unifies with
the head of an instance that is there. -/
def addInstance (s : ClassState) (className : Name) (candidate : TypeScheme) :
    Except TypeError ClassState :=
  match findClass s.context className with
  | none => .error (.unknownClass className)
  | some d =>
      match findOverlap d.instances candidate with
      | some existing => .error (.overlap (Text.plain candidate) (Text.plain existing))
      | none => .ok { s with context := ⟨s.context.entries.map (extendEntry className candidate)⟩ }

end HindleyMilner.Classes
