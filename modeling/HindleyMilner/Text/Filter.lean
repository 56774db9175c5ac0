/-! Filters on streams of symbols. A filter reads one symbol at a time, keeps a
state and answers with the symbols to pass on. It can be written to in several
chunks; what it passes on in total depends only on the chunks put together. -/
namespace HindleyMilner.Text

/-- A filter with states `σ` over the symbols `α`. -/
structure Filter (σ α : Type) where
  start : σ
  feed : σ → α → σ × List α

namespace Filter

variable {σ τ α : Type}

/-- Feed a chunk, given the state reached and what was passed on so far. -/
def feedAll (f : Filter σ α) (reached : σ × Array α) (chunk : List α) : σ × Array α :=
  chunk.foldl (fun reached a =>
    let passed := f.feed reached.1 a
    (passed.1, reached.2 ++ passed.2)) reached

/-- Write one chunk from a given state: the state reached and what is passed on. -/
def write (f : Filter σ α) (s : σ) (chunk : List α) : σ × List α :=
  let reached := f.feedAll (s, #[]) chunk
  (reached.1, reached.2.toList)

def writeAll (f : Filter σ α) (s : σ) (chunks : List (List α)) : σ × List α :=
  let reached := chunks.foldl f.feedAll (s, #[])
  (reached.1, reached.2.toList)

/-- Everything a filter passes on when it is written to from its start state. -/
def run (f : Filter σ α) (chunks : List (List α)) : List α := (f.writeAll f.start chunks).2

/-- Two filters in a row: what the first passes on is written to the second. -/
def andThen (f : Filter σ α) (g : Filter τ α) : Filter (σ × τ) α where
  start := (f.start, g.start)
  feed := fun reached a =>
    let passed := f.feed reached.1 a
    let out := g.write reached.2 passed.2
    ((passed.1, out.1), out.2)

/-- Feeding symbols one by one onto what was already passed is writing them as
one chunk and appending. -/
theorem feedAll_eq (f : Filter σ α) (chunk : List α) (s : σ) (done : Array α) :
    f.feedAll (s, done) chunk = ((f.write s chunk).1, done ++ (f.write s chunk).2) := by
  induction chunk generalizing s done with
  | nil => simp [write, feedAll]
  | cons a chunk ih =>
      have hCons : ∀ done : Array α, f.feedAll (s, done) (a :: chunk) =
          f.feedAll ((f.feed s a).1, done ++ (f.feed s a).2) chunk := fun _ => rfl
      rw [write, hCons, hCons, ih, ih]
      simp [← Array.toList_inj]

@[simp]
theorem write_nil (f : Filter σ α) (s : σ) : f.write s [] = (s, []) := rfl

/-- Writing a chunk feeds its first symbol and writes the rest from the
state that this leaves. -/
theorem write_cons (f : Filter σ α) (s : σ) (a : α) (chunk : List α) :
    f.write s (a :: chunk) =
      ((f.write (f.feed s a).1 chunk).1, (f.feed s a).2 ++ (f.write (f.feed s a).1 chunk).2) := by
  have hCons : f.feedAll (s, #[]) (a :: chunk) =
      f.feedAll ((f.feed s a).1, #[] ++ (f.feed s a).2) chunk := rfl
  rw [write, hCons, feedAll_eq]
  simp

/-- Writing two chunks is writing them joined. -/
theorem write_append (f : Filter σ α) (s : σ) (first second : List α) :
    f.write s (first ++ second) =
      ((f.write (f.write s first).1 second).1,
        (f.write s first).2 ++ (f.write (f.write s first).1 second).2) := by
  induction first generalizing s with
  | nil => simp
  | cons a first ih => simp [write_cons, ih]

/-- The way a text is cut into chunks changes neither the state reached
nor what is passed on. -/
theorem writeAll_eq_write_flatten (f : Filter σ α) (s : σ) (chunks : List (List α)) :
    f.writeAll s chunks = f.write s chunks.flatten := by
  rw [writeAll, write, feedAll, List.foldl_flatten]
  rfl

end Filter

end HindleyMilner.Text
