import HindleyMilner.Classes.Language

/-! Instance resolution. A search works off a list of predicates: each one is
settled or makes way for what an instance needs. Instances may need each other
without end, so a search takes a limit on the number of predicates it treats. An
answer found within one limit is found within any larger one. -/
namespace HindleyMilner.Classes

/-- Why a search gives no answer. -/
inductive SearchFailure where
  | fault (e : TypeError)
  /-- The limit was reached before the search found out. -/
  | exhausted
deriving DecidableEq, Repr

abbrev Search (α : Type) := Except SearchFailure α

/-- An answer in which an exhausted search is an error. -/
def Search.toExcept {α : Type} : Search α → Except TypeError α
  | .ok a => .ok a
  | .error (.fault e) => .error e
  | .error .exhausted => .error (.unsupported "instances that need each other without end")

/-- What an instance needs to provide a predicate on the given type, if its
head matches that type. -/
def instanceGoals (argument : Ty) (scheme : TypeScheme) : Option (List Predicate) :=
  (scheme.body.head.matchWith argument).map fun σ => scheme.body.predicates.map σ.apply

/-- What the first instance whose head matches needs. -/
def subgoals (ctx : ClassContext) (p : Predicate) : Except TypeError (Option (List Predicate)) :=
  match findClass ctx p.className with
  | none => .error (.unknownClass p.className)
  | some d => .ok (d.instances.findSome? (instanceGoals p.argument))

/-- Replace predicates by what instances need for them, until only predicates on
type variables are left. The next predicate to treat stands first in the second
list, and the first list holds those found so far, the latest first. -/
def normalizeFrom (ctx : ClassContext) :
    Nat → List Predicate → List Predicate → Search (List Predicate)
  | _, found, [] => .ok found.reverse
  | 0, _, _ :: _ => .error .exhausted
  | limit + 1, found, p :: pending =>
      if p.isHeadNormal then normalizeFrom ctx limit (p :: found) pending
      else
        match subgoals ctx p with
        | .error e => .error (.fault e)
        | .ok none => .error (.fault (.noInstance (Text.plain p)))
        | .ok (some goals) => normalizeFrom ctx limit found (goals ++ pending)

/-- Predicates on type variables that together imply the given ones
through the instances. -/
def headNormalForm (ctx : ClassContext) (limit : Nat) (ps : List Predicate) :
    Search (List Predicate) :=
  normalizeFrom ctx limit [] ps

/-- Whether given predicates imply some others through the instances. The first
that they do not imply ends the search. -/
def entailsAll (ctx : ClassContext) (given : List Predicate) : Nat → List Predicate → Search Bool
  | _, [] => .ok true
  | 0, _ :: _ => .error .exhausted
  | limit + 1, p :: pending =>
      if p ∈ given then entailsAll ctx given limit pending
      else
        match subgoals ctx p with
        | .error e => .error (.fault e)
        | .ok none => .ok false
        | .ok (some goals) => entailsAll ctx given limit (goals ++ pending)

/-- Whether given predicates imply a predicate through the instances. -/
def entails (ctx : ClassContext) (given : List Predicate) (limit : Nat) (p : Predicate) :
    Search Bool :=
  entailsAll ctx given limit [p]

/-- Drop, from the first to the last, every predicate that the others still
there imply. The first list holds those that were kept so far. -/
def simplifyFrom (ctx : ClassContext) (limit : Nat) (kept : List Predicate) :
    List Predicate → Search (List Predicate)
  | [] => .ok kept
  | p :: ps => do
      if ← entails ctx (ps ++ kept) limit p then simplifyFrom ctx limit kept ps
      else simplifyFrom ctx limit (kept ++ [p]) ps

/-- Drop, from the first to the last, every predicate that the
others still there imply. -/
def simplify (ctx : ClassContext) (limit : Nat) (ps : List Predicate) : Search (List Predicate) :=
  simplifyFrom ctx limit [] ps

/-- Bring predicates to head normal form and simplify them. -/
def reduce (ctx : ClassContext) (limit : Nat) (ps : List Predicate) : Search (List Predicate) := do
  let normal ← headNormalForm ctx limit ps
  simplify ctx limit normal

/-- The limit that inference sets for a search. It is out of reach of any search
that comes to an end in practice. -/
def searchLimit : Nat := 1000000000000000000

/-- A larger limit changes no answer that was found within a smaller one. By
induction on the smaller limit: both searches look at the same predicate first
and go on with the same goals, until the answer is there. -/
theorem entailsAll_mono {ctx : ClassContext} {given : List Predicate} {limit more : Nat}
    (hMore : limit ≤ more) {pending : List Predicate}
    (h : entailsAll ctx given limit pending ≠ .error .exhausted) :
    entailsAll ctx given more pending = entailsAll ctx given limit pending := by
  induction limit generalizing more pending with
  | zero =>
      cases pending with
      | nil => simp only [entailsAll]
      | cons p pending => exact absurd rfl h
  | succ limit ih =>
      cases pending with
      | nil => simp only [entailsAll]
      | cons p pending =>
          obtain ⟨more, rfl⟩ : ∃ n, more = n + 1 := ⟨more - 1, by omega⟩
          have hRest := Nat.le_of_succ_le_succ hMore
          simp only [entailsAll] at h ⊢
          by_cases hGiven : p ∈ given
          · simp only [if_pos hGiven] at h ⊢
            exact ih hRest h
          · simp only [if_neg hGiven] at h ⊢
            cases hGoals : subgoals ctx p with
            | error e => rfl
            | ok found =>
                cases found with
                | none => rfl
                | some goals =>
                    rw [hGoals] at h
                    exact ih hRest h

end HindleyMilner.Classes
