import HindleyMilner.Sequence.Type

/-! One-way matching of types with sequences, and predicates on them. -/
namespace HindleyMilner.Sequence

/-- The types that a pattern's variables stand for. -/
abbrev Bindings := NameMap Ty

namespace Bindings

/-- The union of bindings that agree where both are defined. -/
def merge (s t : Bindings) : Option Bindings :=
  if t.toList.all fun p => s[p.1]?.all (· = p.2) then some (s ∪ t) else none

/-- The runs that variables stand for: each of the given variables for the types
bound to it, one after the other. -/
def runs (vars : List Name) (found : List Bindings) : Bindings :=
  Std.ExtTreeMap.ofList (vars.map fun x => (x, Ty.seq (found.filterMap fun s => s[x]?)))

end Bindings

namespace Ty

/-- Match every element of a run by itself. -/
def matchAll (pattern : Ty → Except TypeError (Option Bindings)) :
    List Ty → Except TypeError (Option (List Bindings))
  | [] => .ok (some [])
  | t :: ts => do
      let some bindings ← pattern t | .ok none
      let some rest ← matchAll pattern ts | .ok none
      .ok (some (bindings :: rest))

mutual

/-- One-way matching: bindings of the pattern's variables that make it the
target. Elements past those the pattern lists are matched by its tail, and each
variable of the tail stands for the sequence of what it matched. A tail is not
matched against another tail. -/
def matchWith : Ty → Ty → Except TypeError (Option Bindings)
  | var x k, t => .ok (if t.hasKind k then some ((∅ : Bindings).insert x t) else none)
  | con a _, con b _ => .ok (if a = b then some ∅ else none)
  | app f a, app g b => do
      let some left ← f.matchWith g | .ok none
      let some right ← a.matchWith b | .ok none
      .ok (left.merge right)
  | seq patterns, seq elements =>
      if patterns.length = elements.length then matchEach patterns elements ∅ else .ok none
  | dotted patterns tail, seq elements => do
      if elements.length < patterns.length then return none
      let some fixed ← matchEach patterns elements ∅ | .ok none
      let some rest ← matchAll (fun t => tail.matchWith t) (elements.drop patterns.length)
        | .ok none
      .ok (fixed.merge (Bindings.runs tail.freeVars rest))
  | dotted patterns _, dotted elements _ => do
      if elements.length < patterns.length then return none
      let some _ ← matchEach patterns elements ∅ | .ok none
      .error (.unsupported "matching a dotted tail against a dotted tail")
  | _, _ => .ok none

/-- Match a run of patterns with the first elements of a run, adding to the
bindings made so far. -/
def matchEach : List Ty → List Ty → Bindings → Except TypeError (Option Bindings)
  | p :: ps, t :: ts, matched => do
      let some bindings ← p.matchWith t | .ok none
      let some matched := matched.merge bindings | .ok none
      matchEach ps ts matched
  | _, _, matched => .ok (some matched)

end

end Ty

/-- The statement that a type, or each type of a sequence, belongs to a class. -/
structure Predicate where
  className : Name
  argument : Ty
deriving DecidableEq, Repr

namespace Predicate

instance : Text.Pretty Predicate :=
  ⟨fun _ p => Text.Doc.styled .tag p.className ++ Text.Token.space ++ p.argument.toDoc .argument⟩

/-- Put a type for a variable. A predicate on a sequence without a tail becomes
one predicate for each element. -/
def subst (x : Name) (u : Ty) (p : Predicate) :
    Except TypeError (Predicate ⊕ List Predicate) := do
  match ← p.argument.subst x u with
  | .seq elements => .ok (.inr (elements.map fun t => ⟨p.className, t⟩))
  | argument => .ok (.inl ⟨p.className, argument⟩)

end Predicate

end HindleyMilner.Sequence
