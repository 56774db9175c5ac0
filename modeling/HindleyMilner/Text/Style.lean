import HindleyMilner.Text.Escape

/-! Styled text. A document is a list of spans, each with the role it plays in
the output. Rendered in colour, a span stands between the terminal codes of its
role and a reset; rendered plainly, all terminal codes are dropped again, also
those that a name or a message brought along. -/
namespace HindleyMilner.Text

/-- The roles that decide how a span looks. -/
inductive Style where
  /-- Text without any styling. -/
  | raw
  /-- Names of classes and other tags. -/
  | tag
  | punctuation
  | keyword
  /-- Literals, type constructors and primitive units. -/
  | constant
  /-- Type variables. -/
  | typeVariable
  | failure
  | success
  | note
deriving DecidableEq, Repr

namespace Style

/-- The code that starts one graphic attribute. -/
def code (number : Nat) : String := String.singleton Escape.esc ++ "[" ++ number.repr ++ "m"

/-- The graphic attributes of a role, in the order they are switched on. -/
def attributes : Style → List Nat
  | raw => []
  | tag => [34, 1]
  | punctuation => [36]
  | keyword => [32]
  | constant => [34]
  | typeVariable => [35, 3]
  | failure => [1, 31]
  | success => [1, 32]
  | note => [34]

/-- Text between the codes of a role and a reset. Raw text stands alone. -/
def paint : Style → String → String
  | raw, text => text
  | style, text => String.join (style.attributes.map code) ++ text ++ code 0

end Style

structure Span where
  style : Style
  text : String
deriving DecidableEq, Repr

/-- A text made of spans. -/
abbrev Doc := List Span

namespace Doc

def text (s : String) : Doc := [⟨.raw, s⟩]

def styled (style : Style) (s : String) : Doc := [⟨style, s⟩]

/-- The rendering with terminal codes. -/
def coloured (d : Doc) : String := String.join (d.map fun span => span.style.paint span.text)

def plain (d : Doc) : String := strip d.coloured

/-- Documents one after the other with a separator between neighbours. -/
def separated (separator : Doc) (items : List Doc) : Doc := (items.intersperse separator).flatten

/-- A separated list between two delimiters. -/
def delimited (opening closing separator : Doc) (items : List Doc) : Doc :=
  opening ++ separated separator items ++ closing

end Doc

end HindleyMilner.Text
