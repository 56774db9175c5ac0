import HindleyMilner.Context.Entry
import HindleyMilner.TypeError

/-! Typing contexts: entries in order, the oldest first. An entry refers only to
entries before it, so definitions are applied from the last to the first. -/
namespace HindleyMilner

/-- A context, the oldest entry first. -/
structure Context (L : Language) where
  entries : List (Entry L)

namespace Context

variable {L : Language}

def empty : Context L := ⟨[]⟩

def push (ctx : Context L) (e : Entry L) : Context L := ⟨ctx.entries ++ [e]⟩

def hasConstraint (ctx : Context L) : Bool := ctx.entries.any Entry.isConstraint

/-- The last binding of a term variable in a list of entries, and the list
without it. Both come from one pass, so what is removed is always a binding, and
the only fault of removal is that there is none. -/
def splitBinding (x : Name) : List (Entry L) → Option (L.Scheme × List (Entry L))
  | [] => none
  | e :: es =>
      match splitBinding x es with
      | some (scheme, es) => some (scheme, e :: es)
      | none =>
          match e with
          | .bind y scheme => if y = x then some (scheme, es) else none
          | _ => none

/-- The nearest binding of a term variable. -/
def lookup (ctx : Context L) (x : Name) : Option L.Scheme :=
  (splitBinding x ctx.entries).map Prod.fst

/-- The context without the nearest binding of a term variable, and what that
was. -/
def removeBinding (ctx : Context L) (x : Name) : Except TypeError (L.Scheme × Context L) :=
  match splitBinding x ctx.entries with
  | some (scheme, entries) => .ok (scheme, ⟨entries⟩)
  | none => .error (.malformed ("no binding of " ++ TypeError.quoted x ++ " to remove"))

def decls (ctx : Context L) : List L.Decl :=
  ctx.entries.filterMap fun
    | .declare d => some d
    | _ => none

/-- The variables that some entries define, in order, with their types. -/
def definitions (entries : List (Entry L)) : List (Name × L.Ty) :=
  entries.filterMap Entry.definition?

/-- Substitute definitions one after the other, the last one first. -/
def unwind {α : Type} [Substitute L.Ty α] (defs : List (Name × L.Ty)) (a : α) : α :=
  defs.foldr (fun d a => subst1 d.1 d.2 a) a

/-- Substitute all definitions, the last one first. -/
def apply {α : Type} [Substitute L.Ty α] (ctx : Context L) (a : α) : α :=
  unwind (definitions ctx.entries) a

/-- Substitute in every definition those before it. The given pairs are the
definitions passed so far, the latest first. -/
def normalizeEntries (defined : List (Name × L.Ty)) : List (Entry L) → List (Entry L)
  | [] => []
  | .define x type kind :: es =>
      let type := subst (fun y => defined.lookup y) type
      .define x type kind :: normalizeEntries ((x, type) :: defined) es
  | e :: es => e :: normalizeEntries defined es

/-- Expand every definition until it mentions no defined variable. -/
def normalize (ctx : Context L) : Context L := ⟨normalizeEntries [] ctx.entries⟩

instance : Text.Pretty (Context L) :=
  ⟨fun _ ctx => Text.Doc.separated Text.Token.comma (ctx.entries.map Entry.toDoc)⟩

end Context

end HindleyMilner
