import HindleyMilner.Substitution
import HindleyMilner.Supply
import HindleyMilner.Text.Pretty

/-! Qualified types and type schemes, over any kinds `κ`, types `τ` and
predicates `π`. -/
namespace HindleyMilner

/-- A type under predicates on its variables. -/
structure Qualified (τ π : Type) where
  predicates : List π
  head : τ
deriving DecidableEq, Repr

namespace Qualified

variable {τ π : Type}

def ofType (head : τ) : Qualified τ π := ⟨[], head⟩

instance [FreeVars τ] [FreeVars π] : FreeVars (Qualified τ π) :=
  ⟨fun q => freeVars q.head ++ freeVars q.predicates⟩

instance [Substitute τ τ] [Substitute τ π] : Substitute τ (Qualified τ π) :=
  ⟨fun σ q => ⟨subst σ q.predicates, subst σ q.head⟩⟩

open Text in
/-- The document of a qualified type: one predicate stands alone, several
stand in parentheses. -/
def toDoc [Pretty τ] [Pretty π] (q : Qualified τ π) : Doc :=
  (match q.predicates with
    | [] => []
    | [p] => doc .top p ++ Token.spaced Token.fatArrow
    | ps => Doc.delimited Token.openParen Token.closeParen Token.comma (ps.map (doc .top))
        ++ Token.spaced Token.fatArrow)
    ++ doc .top q.head

instance [Text.Pretty τ] [Text.Pretty π] : Text.Pretty (Qualified τ π) := ⟨fun _ => toDoc⟩

end Qualified

/-- A qualified type with some of its variables quantified. -/
structure Scheme (κ τ π : Type) where
  quantified : List (Name × κ)
  body : Qualified τ π
deriving DecidableEq, Repr

namespace Scheme

variable {κ τ π : Type}

def mono (head : τ) : Scheme κ τ π := ⟨[], .ofType head⟩

def isMono (s : Scheme κ τ π) : Bool := s.quantified.isEmpty

instance [FreeVars τ] [FreeVars π] : FreeVars (Scheme κ τ π) :=
  ⟨fun s => (freeVars s.body).filter fun x => x ∉ s.quantified.map Prod.fst⟩

/-- A scheme with its quantified variables renamed. -/
structure Instance (κ τ π : Type) where
  /-- The new variables with their kinds, in the order of the quantifiers. -/
  intros : List (Name × κ)
  body : Qualified τ π
  /-- The supply after the new names were drawn. -/
  supply : Supply

/-- Rename every quantified variable to a fresh name of the given stem. -/
def instantiate [Substitute τ τ] [Substitute τ π] (s : Scheme κ τ π) (supply : Supply)
    (stem : String) (var : Name → κ → τ) : Instance κ τ π :=
  let drawn := supply.drawMany stem s.quantified.length
  let renamed := s.quantified.zip drawn.1
  { intros := renamed.map fun ((_, kind), new) => (new, kind)
    body := subst (Assignment.ofPairs (renamed.map fun ((old, kind), new) => (old, var new kind)))
      s.body
    supply := drawn.2 }

open Text in
/-- The document of a scheme: the quantified variables with their
kinds, then the body. -/
def toDoc [Pretty κ] [Pretty τ] [Pretty π] (s : Scheme κ τ π) : Doc :=
  (if s.isMono then []
    else Token.forAll
      ++ Doc.separated Token.space (s.quantified.map fun (x, kind) =>
          Doc.styled .typeVariable x ++ Token.colon ++ doc .argument kind)
      ++ Token.period ++ Token.space)
    ++ s.body.toDoc

instance [Text.Pretty κ] [Text.Pretty τ] [Text.Pretty π] : Text.Pretty (Scheme κ τ π) :=
  ⟨fun _ => toDoc⟩

end Scheme

end HindleyMilner
