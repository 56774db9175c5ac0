import HindleyMilner.Text.Filter

/-! Escape segments. A segment runs from an escape symbol through the next
closing symbol, or to the end of the text if it is never closed. An escape
symbol inside a segment does not open another. The terminal codes that colour
text are such segments: they run from ESC through the letter m. A filter drops
the segments symbol by symbol; a writer passes on whole slices of each chunk. -/
namespace HindleyMilner.Text

/-- Whether the next symbol belongs to an escape segment. -/
inductive Escape where
  | outside
  | inside
deriving DecidableEq

namespace Escape

/-- The filter that drops escape segments, for any pair of delimiting symbols. -/
def dropSegments {α : Type} [DecidableEq α] (opening closing : α) : Filter Escape α where
  start := outside
  feed
    | outside, a => if a = opening then (inside, []) else (outside, [a])
    | inside, a => (if a = closing then outside else inside, [])

/-- The scan of a chunk: the slices passed on so far, where the current slice
starts, and whether a segment is open. -/
structure Scan (α : Type) where
  slices : List (List α)
  start : Nat
  state : Escape

/-- Look at one symbol of a chunk, given with its place. A slice ends where a
segment opens, and the next one starts after the segment's end. -/
def Scan.next {α : Type} [DecidableEq α] (opening closing : α) (chunk : List α)
    (scan : Scan α) (symbol : α × Nat) : Scan α :=
  match scan.state with
  | inside =>
      if symbol.1 = closing then { scan with start := symbol.2 + 1, state := outside } else scan
  | outside =>
      if symbol.1 = opening then
        { scan with
          slices := scan.slices ++ [(chunk.take symbol.2).drop scan.start], state := inside }
      else scan

/-- Write one chunk: the state reached and the slices passed on. -/
def writeSlices {α : Type} [DecidableEq α] (opening closing : α) (s : Escape)
    (chunk : List α) : Escape × List (List α) :=
  let scan := chunk.zipIdx.foldl (Scan.next opening closing chunk) ⟨[], 0, s⟩
  let last := if scan.state = outside ∧ scan.start < chunk.length then [chunk.drop scan.start]
    else []
  (scan.state, scan.slices ++ last)

/-- All slices passed on when several chunks are written, one after the other. -/
def passSlices {α : Type} [DecidableEq α] (opening closing : α) (s : Escape) :
    List (List α) → List (List α)
  | [] => []
  | chunk :: chunks =>
      (writeSlices opening closing s chunk).2 ++
        passSlices opening closing (writeSlices opening closing s chunk).1 chunks

/-- The symbol that opens a terminal code. -/
def esc : Char := '\x1b'

/-- The filter that drops terminal codes. -/
def filter : Filter Escape Char := dropSegments esc 'm'

end Escape

def strip (text : String) : String := String.ofList (Escape.filter.run [text.toList])

end HindleyMilner.Text
