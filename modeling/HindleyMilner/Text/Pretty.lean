import HindleyMilner.Text.Style

/-! Printing values. A value is printed into a position, and the position
decides whether the value needs parentheses there. -/
namespace HindleyMilner.Text

/-- The position a value is printed into. -/
inductive Position where
  | top
  /-- Left of an arrow, or the function of an application. -/
  | left
  /-- The argument of an application, or the base of a power. -/
  | argument
deriving DecidableEq, Repr

/-- Values that print as documents. -/
class Pretty (α : Type) where
  doc : Position → α → Doc

export Pretty (doc)

instance : Pretty Empty := ⟨fun _ x => nomatch x⟩

def pretty {α : Type} [Pretty α] (x : α) : String := (doc .top x).coloured

def plainAt {α : Type} [Pretty α] (p : Position) (x : α) : String := (doc p x).plain

/-- The plain text of a value at the top. -/
def plain {α : Type} [Pretty α] (x : α) : String := plainAt .top x

namespace Token

def punctuation (s : String) : Doc := Doc.styled .punctuation s

def space : Doc := Doc.text " "
def openBracket : Doc := punctuation "["
def closeBracket : Doc := punctuation "]"
def openParen : Doc := punctuation "("
def closeParen : Doc := punctuation ")"
def openAngle : Doc := punctuation "<"
def closeAngle : Doc := punctuation ">"
def equals : Doc := punctuation "="
def define : Doc := punctuation ":="
def equation : Doc := punctuation "=="
def period : Doc := punctuation "."
def colon : Doc := punctuation ":"
def lambda : Doc := punctuation "λ"
def forAll : Doc := punctuation "∀"
def arrow : Doc := punctuation "->"
def fatArrow : Doc := punctuation "=>"
def star : Doc := punctuation "*"
def hash : Doc := punctuation "#"
def caret : Doc := punctuation "^"
def ellipsis : Doc := punctuation "..."
def marker : Doc := punctuation ";;"
def comma : Doc := punctuation "," ++ space
/-- The bar between the variables a constraint carries and the constraint. -/
def bar : Doc := space ++ punctuation "|" ++ space

def spaced (d : Doc) : Doc := space ++ d ++ space

end Token

def parensIf (needed : Bool) (d : Doc) : Doc :=
  if needed then Token.openParen ++ d ++ Token.closeParen else d

/-- A domain, an arrow and a codomain. Arrows associate to the right. -/
def arrowDoc (p : Position) (domain codomain : Position → Doc) : Doc :=
  parensIf (p ≠ .top) (domain .left ++ Token.spaced Token.arrow ++ codomain .top)

/-- A function beside its argument. Application associates to the left. -/
def applyDoc (p : Position) (function argument : Position → Doc) : Doc :=
  parensIf (p = .argument) (function .left ++ Token.space ++ argument .argument)

end HindleyMilner.Text
