import HindleyMilner.Text.Indent
import HindleyMilner.Text.Style

/-! Diagnostics and reports. A report is rendered as a sequence of writes: one
for its headline, one for each message, and one for each symbol of the notes,
which pass through an indenting filter on their way. -/
namespace HindleyMilner

open Text

/-- A message about the input, with notes that explain it. -/
structure Diagnostic where
  message : String
  notes : List String
deriving DecidableEq, Repr

namespace Diagnostic

/-- The line of the message, with its end. -/
def headline (d : Diagnostic) : String :=
  (Doc.styled .failure "error" ++ Doc.text ": " ++ Doc.text d.message).coloured ++ "\n"

/-- The line of one note, with its end. -/
def noteLine (note : String) : String :=
  (Doc.styled .note "=" ++ Doc.text " note: " ++ Doc.text note).coloured ++ "\n"

/-- The writes that render a diagnostic. Notes are indented by one level. -/
def writes (d : Diagnostic) : List (List Char) :=
  d.headline.toList ::
    ((indent 1).run (d.notes.map fun note => (noteLine note).toList)).map fun c => [c]

end Diagnostic

structure Report where
  diagnostics : List Diagnostic
deriving DecidableEq, Repr

namespace Report

def empty : Report := ⟨[]⟩

def ofDiagnostic (d : Diagnostic) : Report := ⟨[d]⟩

def isEmpty (r : Report) : Bool := r.diagnostics.isEmpty

/-- The first line of a report: all is well, or the number of errors. -/
def headline (r : Report) : String :=
  match r.diagnostics.length with
  | 0 => (Doc.styled .success "Ok").coloured ++ "\n"
  | errors => (Doc.styled .failure (errors.repr ++ " error(s)")).coloured ++ "\n"

/-- The writes that render a report. -/
def writes (r : Report) : List (List Char) :=
  r.headline.toList :: (r.diagnostics.map Diagnostic.writes).flatten

def render (r : Report) : String := String.ofList r.writes.flatten

/-- The report as it comes out of the filter that drops terminal codes. -/
def plain (r : Report) : String := String.ofList (Escape.filter.run r.writes)

end Report

end HindleyMilner
