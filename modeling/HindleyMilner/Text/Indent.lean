import HindleyMilner.Text.Filter

/-! Indentation of lines. -/
namespace HindleyMilner.Text

/-- The blanks that one level of indentation stands for. -/
def tab : List Char := [' ', ' ']

/-- The filter that starts every line with the given blanks. The blanks go in
front of the line's first symbol, which may be the line end itself, so a blank
line is indented too and a text's last line end is followed by none. -/
def indentBy {α : Type} [DecidableEq α] (lineEnd : α) (blanks : List α) : Filter Bool α where
  start := true
  feed := fun atStart a => (a = lineEnd, if atStart then blanks ++ [a] else [a])

def indent (level : Nat) : Filter Bool Char :=
  indentBy '\n' (List.replicate level tab).flatten

end HindleyMilner.Text
