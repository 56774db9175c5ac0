import HindleyMilner.Text.Escape

/-! Texts and their escape segments. What the filter passes on is what stands outside the
segments. A writer that looks for whole slices to pass on, chunk by chunk, passes on the same. -/
namespace HindleyMilner.Text.Escape

variable {α : Type} {opening closing : α}

/-- What stands outside the escape segments of a text. A segment runs from an
opening symbol outside any segment through the next closing symbol, or to the
end if there is none. -/
inductive Outside (opening closing : α) : List α → List α → Prop where
  | plain {text : List α} (hText : opening ∉ text) : Outside opening closing text text
  | closed {before body text kept : List α} (hBefore : opening ∉ before) (hBody : closing ∉ body)
      (hRest : Outside opening closing text kept) :
      Outside opening closing (before ++ opening :: (body ++ closing :: text)) (before ++ kept)
  | unclosed {before body : List α} (hBefore : opening ∉ before) (hBody : closing ∉ body) :
      Outside opening closing (before ++ opening :: body) before

/-- Every text has something outside its segments. -/
theorem exists_outside (opening closing : α) (text : List α) :
    ∃ kept, Outside opening closing text kept := by
  by_cases hOpening : opening ∈ text
  · obtain ⟨before, rest, rfl, hBefore⟩ := List.eq_append_cons_of_mem hOpening
    by_cases hClosing : closing ∈ rest
    · obtain ⟨body, text, rfl, hBody⟩ := List.eq_append_cons_of_mem hClosing
      obtain ⟨kept, hKept⟩ := exists_outside opening closing text
      exact ⟨before ++ kept, .closed hBefore hBody hKept⟩
    · exact ⟨before, .unclosed hBefore hClosing⟩
  · exact ⟨text, .plain hOpening⟩
termination_by text.length

variable [DecidableEq α]

theorem feed_opening : (dropSegments opening closing).feed outside opening = (inside, []) :=
  if_pos rfl

theorem feed_outside {a : α} (h : a ≠ opening) :
    (dropSegments opening closing).feed outside a = (outside, [a]) := if_neg h

theorem feed_closing : (dropSegments opening closing).feed inside closing = (outside, []) :=
  congrArg (·, []) (if_pos rfl)

theorem feed_inside {a : α} (h : a ≠ closing) :
    (dropSegments opening closing).feed inside a = (inside, []) := congrArg (·, []) (if_neg h)

/-- A text without segments is passed on as it is. -/
theorem write_outside {text : List α} (h : opening ∉ text) :
    (dropSegments opening closing).write outside text = (outside, text) := by
  induction text with
  | nil => rfl
  | cons a text ih =>
      obtain ⟨ha, hText⟩ := not_or.mp (mt List.mem_cons.mpr h)
      rw [Filter.write_cons, feed_outside (Ne.symm ha), ih hText]
      rfl

/-- A segment that is not closed swallows the text. -/
theorem write_inside {text : List α} (h : closing ∉ text) :
    (dropSegments opening closing).write inside text = (inside, []) := by
  induction text with
  | nil => rfl
  | cons a text ih =>
      obtain ⟨ha, hText⟩ := not_or.mp (mt List.mem_cons.mpr h)
      rw [Filter.write_cons, feed_inside (Ne.symm ha), ih hText]
      rfl

/-- What stands outside the segments is passed on, by induction on how the text
is made of segments. -/
theorem write_of_outside {text kept : List α} (h : Outside opening closing text kept) :
    ((dropSegments opening closing).write outside text).2 = kept := by
  induction h with
  | plain hText => rw [write_outside hText]
  | closed hBefore hBody _ ih =>
      rw [Filter.write_append, write_outside hBefore, Filter.write_cons, feed_opening,
        Filter.write_append, write_inside hBody, Filter.write_cons, feed_closing, ih]
      rfl
  | unclosed hBefore hBody =>
      rw [Filter.write_append, write_outside hBefore, Filter.write_cons, feed_opening,
        write_inside hBody]
      exact List.append_nil _

/-- The filter passes on exactly what stands outside the segments. -/
theorem write_eq_iff {text kept : List α} :
    ((dropSegments opening closing).write outside text).2 = kept ↔
      Outside opening closing text kept := by
  refine ⟨?_, write_of_outside⟩
  rintro rfl
  obtain ⟨kept, hKept⟩ := exists_outside opening closing text
  exact (write_of_outside hKept).symm ▸ hKept

/-- No symbol that opens a segment is passed on. -/
theorem opening_not_mem_write (s : Escape) (text : List α) :
    opening ∉ ((dropSegments opening closing).write s text).2 := by
  induction text generalizing s with
  | nil => exact List.not_mem_nil
  | cons a text ih =>
      rw [Filter.write_cons, List.mem_append, not_or]
      refine ⟨?_, ih _⟩
      cases s with
      | inside => exact List.not_mem_nil
      | outside =>
          by_cases ha : a = opening
          · rw [ha, feed_opening]
            exact List.not_mem_nil
          · rw [feed_outside ha, List.mem_singleton]
            exact Ne.symm ha

/-- A scan has passed on what the filter has, but for the slice that has not
ended. -/
structure Scan.Agrees (scan : Scan α) (read : List α) (filtered : Escape × List α) : Prop where
  state_eq : scan.state = filtered.1
  start_le : scan.start ≤ read.length
  of_outside : scan.state = outside → scan.slices.flatten ++ read.drop scan.start = filtered.2
  of_inside : scan.state = inside → scan.slices.flatten = filtered.2

/-- Inside a segment, the closing symbol is where the next slice starts. -/
theorem Scan.next_inside {chunk : List α} {scan : Scan α} (hState : scan.state = inside)
    (symbol : α × Nat) :
    scan.next opening closing chunk symbol =
      if symbol.1 = closing then { scan with start := symbol.2 + 1, state := outside }
      else scan := by
  rw [next, hState]

/-- Outside a segment, the opening symbol ends a slice. -/
theorem Scan.next_outside {chunk : List α} {scan : Scan α} (hState : scan.state = outside)
    (symbol : α × Nat) :
    scan.next opening closing chunk symbol =
      if symbol.1 = opening then
        { scan with
          slices := scan.slices ++ [(chunk.take symbol.2).drop scan.start], state := inside }
      else scan := by
  rw [next, hState]

/-- One symbol keeps the scan in agreement with the filter: the finished
slices, with the part of the current one that was read, are what the
filter has passed on. -/
theorem Scan.Agrees.next {scan : Scan α} {s : Escape} {read : List α}
    (h : scan.Agrees read ((dropSegments opening closing).write s read)) (a : α) (rest : List α) :
    (scan.next opening closing (read ++ a :: rest) (a, read.length)).Agrees (read ++ [a])
      ((dropSegments opening closing).write s (read ++ [a])) := by
  have hLength : scan.start ≤ (read ++ [a]).length := by
    have hStart := h.start_le
    rw [List.length_append]
    omega
  have hDrop : (read ++ [a]).drop scan.start = read.drop scan.start ++ [a] :=
    List.drop_append_of_le_length h.start_le
  rw [Filter.write_append, Filter.write_cons, Filter.write_nil, ← h.state_eq, List.append_nil]
  cases hState : scan.state with
  | inside =>
      rw [next_inside hState, ← h.of_inside hState]
      by_cases ha : a = closing
      · rw [if_pos ha, ha, feed_closing]
        exact ⟨rfl, by simp, fun _ => (by simp), fun hInside => (by cases hInside)⟩
      · rw [if_neg ha, feed_inside ha]
        refine ⟨hState, hLength, fun hOutside => ?_, fun _ => (List.append_nil _).symm⟩
        rw [hState] at hOutside
        cases hOutside
  | outside =>
      rw [next_outside hState, ← h.of_outside hState]
      by_cases ha : a = opening
      · rw [if_pos ha, ha, feed_opening]
        refine ⟨rfl, ha ▸ hLength, fun hOutside => (by cases hOutside), fun _ => ?_⟩
        simp
      · rw [if_neg ha, feed_outside ha]
        refine ⟨hState, hLength, fun _ => ?_, fun hInside => ?_⟩
        · rw [hDrop, List.append_assoc]
        · rw [hState] at hInside
          cases hInside

/-- So do all symbols of a chunk, by induction on those that are not yet read. -/
theorem Scan.Agrees.foldl {scan : Scan α} {s : Escape} {read : List α}
    (h : scan.Agrees read ((dropSegments opening closing).write s read)) (rest : List α) :
    ((rest.zipIdx read.length).foldl (Scan.next opening closing (read ++ rest)) scan).Agrees
      (read ++ rest) ((dropSegments opening closing).write s (read ++ rest)) := by
  induction rest generalizing scan read with
  | nil =>
      rw [List.append_nil]
      exact h
  | cons a rest ih =>
      have hRest := ih (h.next a rest)
      rw [List.append_assoc, List.length_append] at hRest
      exact hRest

/-- The slices of one chunk, put together, are what the filter passes on. What
the scan has not yet sliced when the chunk ends is passed on as a last slice. -/
theorem writeSlices_eq (opening closing : α) (s : Escape) (chunk : List α) :
    (writeSlices opening closing s chunk).1 = ((dropSegments opening closing).write s chunk).1 ∧
      (writeSlices opening closing s chunk).2.flatten =
        ((dropSegments opening closing).write s chunk).2 := by
  have hStart : (⟨[], 0, s⟩ : Scan α).Agrees [] ((dropSegments opening closing).write s []) :=
    ⟨rfl, Nat.le_refl _, fun _ => rfl, fun _ => rfl⟩
  have hAgrees := hStart.foldl chunk
  rw [List.nil_append, List.length_nil] at hAgrees
  refine ⟨hAgrees.state_eq, ?_⟩
  rw [writeSlices, List.flatten_append]
  generalize chunk.zipIdx.foldl (Scan.next opening closing chunk) ⟨[], 0, s⟩ = scan at hAgrees ⊢
  cases hState : scan.state with
  | inside => simpa using hAgrees.of_inside hState
  | outside =>
      rw [← hAgrees.of_outside hState]
      by_cases hRest : scan.start < chunk.length
      · simp [hRest]
      · simp [hRest, List.drop_eq_nil_of_le (Nat.le_of_not_lt hRest)]

/-- All slices of several chunks, put together, are what the filter passes on. -/
theorem flatten_passSlices (opening closing : α) (s : Escape) (chunks : List (List α)) :
    (passSlices opening closing s chunks).flatten =
      ((dropSegments opening closing).write s chunks.flatten).2 := by
  induction chunks generalizing s with
  | nil => rfl
  | cons chunk chunks ih =>
      obtain ⟨hState, hSlices⟩ := writeSlices_eq opening closing s chunk
      rw [passSlices, List.flatten_append, hSlices, hState, ih, List.flatten_cons,
        Filter.write_append]

end HindleyMilner.Text.Escape
