import HindleyMilner.Diagnostic
import HindleyMilner.Proofs.Text.Segments

/-! Dropping terminal codes from bytes. The writers see bytes, in chunks of any size, and the
library works on symbols. Filters whose special symbols are single bytes do the same on the bytes
of a text as on its symbols, so the plain form of a report is what is left of the bytes of its
coloured form, however these are cut into chunks. -/
namespace HindleyMilner.Text

namespace Filter

variable {σ α β : Type}

/-- One filter does on the codes of symbols what another does on the symbols. -/
structure Encodes (code : α → List β) (f : Filter σ α) (g : Filter σ β) : Prop where
  start_eq : g.start = f.start
  write_code : ∀ s a, g.write s (code a) = ((f.feed s a).1, (f.feed s a).2.flatMap code)

/-- A filter of codes passes on the codes of what the filter of symbols passes
on, and they remember the same. -/
theorem Encodes.write {code : α → List β} {f : Filter σ α} {g : Filter σ β}
    (h : Encodes code f g) (s : σ) (text : List α) :
    g.write s (text.flatMap code) = ((f.write s text).1, (f.write s text).2.flatMap code) := by
  induction text generalizing s with
  | nil => rfl
  | cons a text ih =>
      rw [List.flatMap_cons, write_append, h.write_code, ih, write_cons, List.flatMap_append]

/-- It makes no difference whether a text is written at once or in chunks. -/
theorem run_eq_write (f : Filter σ α) (chunks : List (List α)) :
    f.run chunks = (f.write f.start chunks.flatten).2 := by
  rw [run, writeAll_eq_write_flatten]

/-- The chunks of the symbols and of their codes may be cut in different places. -/
theorem Encodes.run {code : α → List β} {f : Filter σ α} {g : Filter σ β} (h : Encodes code f g)
    {texts : List (List α)} {chunks : List (List β)}
    (hChunks : chunks.flatten = texts.flatten.flatMap code) :
    g.run chunks = (f.run texts).flatMap code := by
  rw [run_eq_write, run_eq_write, hChunks, h.start_eq, h.write]

end Filter

def bytes (text : String) : List UInt8 := text.toList.flatMap String.utf8EncodeChar

theorem toByteArray_bytes (text : String) : (bytes text).toByteArray = text.toByteArray :=
  String.utf8Encode_toList

/-- The byte of a symbol that is written as a single byte. -/
def asciiByte (c : Char) : UInt8 := UInt8.ofNat c.toNat

theorem toNat_asciiByte {c : Char} (h : c.toNat < 128) : (asciiByte c).toNat = c.toNat :=
  UInt8.toNat_ofNat_of_lt' (Nat.lt_trans h (by decide))

theorem asciiByte_inj {a c : Char} (ha : a.toNat < 128) (hc : c.toNat < 128) :
    asciiByte a = asciiByte c ↔ a = c := by
  rw [← UInt8.toNat_inj, toNat_asciiByte ha, toNat_asciiByte hc, Char.toNat_inj]

theorem asciiByte_not_mem {c : Char} (hc : c.toNat < 128) {bytes : List UInt8}
    (hBytes : ∀ b ∈ bytes, 128 ≤ b.toNat) : asciiByte c ∉ bytes := by
  intro hMem
  have hHigh := hBytes _ hMem
  rw [toNat_asciiByte hc] at hHigh
  omega

theorem high_ofNat {n : Nat} (hLow : 128 ≤ n) (hHigh : n < 256) : 128 ≤ (UInt8.ofNat n).toNat :=
  (UInt8.toNat_ofNat_of_lt' hHigh).symm ▸ hLow

/-- A symbol is written as a single byte, or with bytes that are no symbol's
single byte. So a byte below 128 always stands for itself. -/
theorem utf8EncodeChar_cases (c : Char) :
    (c.toNat < 128 ∧ String.utf8EncodeChar c = [asciiByte c]) ∨
      (128 ≤ c.toNat ∧ ∃ first rest, String.utf8EncodeChar c = first :: rest ∧
        ∀ b ∈ first :: rest, 128 ≤ b.toNat) := by
  have hValue : c.toNat = c.val.toNat := rfl
  by_cases hSmall : c.val.toNat ≤ 127
  · left
    refine ⟨by omega, ?_⟩
    rw [String.utf8EncodeChar, if_pos hSmall]
    rfl
  · right
    refine ⟨by omega, ?_⟩
    rw [String.utf8EncodeChar, if_neg hSmall]
    split
    · exact ⟨_, _, rfl, by grind [high_ofNat]⟩
    · split
      · exact ⟨_, _, rfl, by grind [high_ofNat]⟩
      · exact ⟨_, _, rfl, by grind [high_ofNat]⟩

/-- Single bytes are told apart as the symbols are. -/
theorem Escape.feed_asciiByte {opening closing c : Char} (hOpening : opening.toNat < 128)
    (hClosing : closing.toNat < 128) (hc : c.toNat < 128)
    (hCode : String.utf8EncodeChar c = [asciiByte c]) (s : Escape) :
    (dropSegments (asciiByte opening) (asciiByte closing)).feed s (asciiByte c) =
      (((dropSegments opening closing).feed s c).1,
        ((dropSegments opening closing).feed s c).2.flatMap String.utf8EncodeChar) := by
  cases s with
  | outside =>
      simp only [dropSegments, asciiByte_inj hc hOpening]
      split
      · rfl
      · simp [hCode]
  | inside => simp [dropSegments, asciiByte_inj hc hClosing]

/-- Dropping segments between two single bytes never cuts the bytes of a symbol.
The bytes of a larger symbol are all kept, or all dropped. -/
theorem Escape.encodes_dropSegments {opening closing : Char} (hOpening : opening.toNat < 128)
    (hClosing : closing.toNat < 128) :
    Filter.Encodes String.utf8EncodeChar (dropSegments opening closing)
      (dropSegments (asciiByte opening) (asciiByte closing)) where
  start_eq := rfl
  write_code s c := by
    obtain ⟨hSmall, hCode⟩ | ⟨hLarge, first, rest, hCode, hHigh⟩ := utf8EncodeChar_cases c
    · rw [hCode, Filter.write_cons, feed_asciiByte hOpening hClosing hSmall hCode,
        Filter.write_nil, List.append_nil]
    · have hNe : ∀ {d : Char}, d.toNat < 128 → c ≠ d := by
        rintro d hd rfl
        omega
      rw [hCode]
      cases s with
      | outside =>
          rw [write_outside (asciiByte_not_mem hOpening hHigh), feed_outside (hNe hOpening),
            List.flatMap_singleton, hCode]
      | inside =>
          rw [write_inside (asciiByte_not_mem hClosing hHigh), feed_inside (hNe hClosing)]
          rfl

section Indentation

variable {α : Type} [DecidableEq α] {lineEnd : α} {blanks : List α}

theorem feed_indentBy (atStart : Bool) (a : α) :
    (indentBy lineEnd blanks).feed atStart a =
      (decide (a = lineEnd), if atStart then blanks ++ [a] else [a]) := rfl

/-- Within a line, nothing is added. -/
theorem write_indentBy_within {text : List α} (h : lineEnd ∉ text) :
    (indentBy lineEnd blanks).write false text = (false, text) := by
  induction text with
  | nil => rfl
  | cons a text ih =>
      obtain ⟨ha, hText⟩ := not_or.mp (mt List.mem_cons.mpr h)
      rw [Filter.write_cons, feed_indentBy, decide_eq_false (Ne.symm ha), ih hText]
      rfl

end Indentation

/-- Starting lines with blanks puts nothing between the bytes of a symbol: a
line ends at a single byte, and no other symbol has that byte among its own. -/
theorem encodes_indentBy (lineEnd : Char) (hLineEnd : lineEnd.toNat < 128) (blanks : List Char) :
    Filter.Encodes String.utf8EncodeChar (indentBy lineEnd blanks)
      (indentBy (asciiByte lineEnd) (blanks.flatMap String.utf8EncodeChar)) where
  start_eq := rfl
  write_code atStart c := by
    have hOut : (if atStart then blanks ++ [c] else [c]).flatMap String.utf8EncodeChar =
        (if atStart then blanks.flatMap String.utf8EncodeChar else []) ++
          String.utf8EncodeChar c := by
      cases atStart <;> simp
    rw [feed_indentBy, hOut]
    obtain ⟨hSmall, hCode⟩ | ⟨hLarge, first, rest, hCode, hHigh⟩ := utf8EncodeChar_cases c
    · have hEnd : decide (asciiByte c = asciiByte lineEnd) = decide (c = lineEnd) :=
        decide_eq_decide.mpr (asciiByte_inj hSmall hLineEnd)
      rw [hCode, Filter.write_cons, feed_indentBy, hEnd]
      cases atStart <;> simp
    · have hRest := asciiByte_not_mem hLineEnd hHigh
      obtain ⟨hFirst, hRest⟩ := not_or.mp (mt List.mem_cons.mpr hRest)
      have hc : c ≠ lineEnd := by
        rintro rfl
        omega
      rw [hCode, Filter.write_cons, feed_indentBy, decide_eq_false (Ne.symm hFirst),
        write_indentBy_within hRest, decide_eq_false hc]
      cases atStart <;> simp

/-- The filter that drops terminal codes from bytes. -/
def Escape.byteFilter : Filter Escape UInt8 := dropSegments 0x1b 0x6d

/-- Stripping bytes is stripping symbols. -/
theorem Escape.encodes_filter : Filter.Encodes String.utf8EncodeChar filter byteFilter :=
  encodes_dropSegments (by decide) (by decide)

def indentBytes (level : Nat) : Filter Bool UInt8 :=
  indentBy 0x0a (List.replicate level [0x20, 0x20]).flatten

theorem encodes_indent (level : Nat) :
    Filter.Encodes String.utf8EncodeChar (indent level) (indentBytes level) := by
  have hBlanks : (List.replicate level tab).flatten.flatMap String.utf8EncodeChar =
      (List.replicate level [0x20, 0x20]).flatten := by
    induction level with
    | zero => rfl
    | succ level ih =>
        rw [List.replicate_succ, List.flatten_cons, List.flatMap_append, ih]
        rfl
  have hLineEnd : asciiByte '\n' = 0x0a := by decide
  rw [indent, indentBytes, ← hBlanks, ← hLineEnd]
  exact encodes_indentBy '\n' (by decide) _

/-- The bytes of a text, cut into chunks in any way, lose what the text loses. -/
theorem run_byteFilter {text : String} {chunks : List (List UInt8)}
    (h : chunks.flatten = bytes text) : Escape.byteFilter.run chunks = bytes (strip text) := by
  rw [bytes, strip, String.toList_ofList]
  apply Escape.encodes_filter.run
  rw [h, bytes, List.flatten_singleton]

/-- A writer that passes on slices passes on what the filter does. -/
theorem flatten_passSlices_eq_run (chunks : List (List UInt8)) :
    (Escape.passSlices 0x1b 0x6d .outside chunks).flatten = Escape.byteFilter.run chunks := by
  rw [Escape.flatten_passSlices, Filter.run_eq_write]
  rfl

end HindleyMilner.Text

namespace HindleyMilner

open Text

/-- The writes that render the bytes of a diagnostic. Notes are
indented byte by byte. -/
def Diagnostic.byteWrites (d : Diagnostic) : List (List UInt8) :=
  bytes d.headline ::
    ((indentBytes 1).run (d.notes.map fun note => bytes (noteLine note))).map fun b => [b]

def Report.byteWrites (r : Report) : List (List UInt8) :=
  bytes r.headline :: (r.diagnostics.map Diagnostic.byteWrites).flatten

theorem flatMap_flatten {α β : Type} (code : α → List β) (texts : List (List α)) :
    texts.flatten.flatMap code = (texts.map fun text => text.flatMap code).flatten := by
  induction texts with
  | nil => rfl
  | cons text texts ih =>
      rw [List.flatten_cons, List.flatMap_append, ih]
      rfl

/-- The bytes that are written for a diagnostic are those of its text. -/
theorem Diagnostic.flatten_byteWrites (d : Diagnostic) :
    d.byteWrites.flatten = d.writes.flatten.flatMap String.utf8EncodeChar := by
  have hNotes : (indentBytes 1).run (d.notes.map fun note => bytes (noteLine note)) =
      ((indent 1).run (d.notes.map fun note => (noteLine note).toList)).flatMap
        String.utf8EncodeChar := by
    apply (encodes_indent 1).run
    rw [flatMap_flatten, List.map_map]
    rfl
  rw [byteWrites, writes, List.flatten_cons, List.flatten_cons, ← List.flatMap_def,
    ← List.flatMap_def, List.flatMap_singleton', List.flatMap_singleton', List.flatMap_append,
    hNotes]
  rfl

theorem Diagnostic.flatten_map_byteWrites (diagnostics : List Diagnostic) :
    (diagnostics.map byteWrites).flatten.flatten =
      (diagnostics.map writes).flatten.flatten.flatMap String.utf8EncodeChar := by
  induction diagnostics with
  | nil => rfl
  | cons d diagnostics ih =>
      rw [List.map_cons, List.map_cons, List.flatten_cons, List.flatten_cons,
        List.flatten_append, List.flatten_append, List.flatMap_append, d.flatten_byteWrites, ih]

/-- The bytes written are those of the report in colour. -/
theorem Report.flatten_byteWrites (r : Report) : r.byteWrites.flatten = bytes r.render := by
  rw [bytes, render, String.toList_ofList, byteWrites, writes, List.flatten_cons,
    List.flatten_cons, List.flatMap_append, Diagnostic.flatten_map_byteWrites]
  rfl

/-- The plain text of a report is its text in colour without the escapes. -/
theorem Report.plain_eq_strip_render (r : Report) : r.plain = strip r.render := by
  rw [plain, strip, render, String.toList_ofList, Filter.run_eq_write, Filter.run_eq_write,
    List.flatten_singleton]

/-- A valid encoding is the bytes of some text. -/
theorem exists_bytes_eq {encoded : List UInt8} (h : encoded.toByteArray.IsValidUTF8) :
    ∃ text : String, encoded = bytes text := by
  obtain ⟨symbols, hSymbols⟩ := h
  refine ⟨String.ofList symbols, ?_⟩
  rw [bytes, String.toList_ofList]
  exact List.toByteArray_inj.mp hSymbols

/-- The bytes of a text are a valid encoding. -/
theorem isValidUTF8_bytes (text : String) : (bytes text).toByteArray.IsValidUTF8 := by
  rw [toByteArray_bytes]
  exact text.isValidUTF8

/-- Stripping does not depend on how the output is cut into chunks. On symbols
and on bytes, what is passed on is exactly what stands outside the terminal
codes; a valid encoding stays one, holds no further escape, and is that of the
stripped text. So the plain form of a report is its coloured form, stripped,
whichever chunks its bytes are written in. -/
theorem strip_of_any_chunks :
    (∀ (texts : List (List Char)) (kept : List Char), Escape.filter.run texts = kept ↔
      Escape.Outside Escape.esc 'm' texts.flatten kept) ∧
    (∀ (chunks : List (List UInt8)) (kept : List UInt8),
      (Escape.passSlices 0x1b 0x6d .outside chunks).flatten = kept ↔
        Escape.Outside 0x1b 0x6d chunks.flatten kept) ∧
    (∀ chunks : List (List UInt8), chunks.flatten.toByteArray.IsValidUTF8 →
      (Escape.passSlices 0x1b 0x6d .outside chunks).flatten.toByteArray.IsValidUTF8 ∧
        0x1b ∉ (Escape.passSlices 0x1b 0x6d .outside chunks).flatten) ∧
    (∀ (text : String) (chunks : List (List UInt8)), chunks.flatten = bytes text →
      (Escape.passSlices 0x1b 0x6d .outside chunks).flatten = bytes (strip text)) ∧
    (∀ r : Report, r.plain = strip r.render ∧
      ∀ chunks : List (List UInt8), chunks.flatten = r.byteWrites.flatten →
        (Escape.passSlices 0x1b 0x6d .outside chunks).flatten = bytes r.plain) := by
  have hBytes : ∀ (text : String) (chunks : List (List UInt8)), chunks.flatten = bytes text →
      (Escape.passSlices 0x1b 0x6d .outside chunks).flatten = bytes (strip text) := by
    intro text chunks hChunks
    rw [flatten_passSlices_eq_run, run_byteFilter hChunks]
  refine ⟨fun texts kept => ?_, fun chunks kept => ?_, fun chunks hValid => ⟨?_, ?_⟩, hBytes,
    fun r => ⟨r.plain_eq_strip_render, fun chunks hChunks => ?_⟩⟩
  · rw [Filter.run_eq_write]
    exact Escape.write_eq_iff
  · rw [Escape.flatten_passSlices]
    exact Escape.write_eq_iff
  · obtain ⟨text, hText⟩ := exists_bytes_eq hValid
    rw [hBytes text chunks hText]
    exact isValidUTF8_bytes _
  · rw [Escape.flatten_passSlices]
    exact Escape.opening_not_mem_write _ _
  · rw [r.plain_eq_strip_render]
    exact hBytes r.render chunks (hChunks.trans r.flatten_byteWrites)

/-- A code cut in two, a symbol cut in two and an escape that is never
closed; and a message with an open escape, which takes all up to the code
that colours the note. -/
theorem strip_of_split_chunks :
    let chunks : List (List UInt8) := [[97, 27, 91, 51], [49, 109, 98, 195], [169, 27]]
    let r : Report := ⟨[⟨"x\x1by", ["n\x1b[3"]⟩]⟩
    (chunks.flatten = bytes "a\x1b[31mbé\x1b" ∧
      (Escape.passSlices 0x1b 0x6d .outside chunks).flatten = bytes "abé") ∧
    r.plain = "1 error(s)\nerror: x= note: n" ∧
    (Escape.passSlices 0x1b 0x6d .outside (r.byteWrites.flatten.map fun b => [b])).flatten =
      bytes r.plain := by
  intro chunks r
  have hText : chunks.flatten = bytes "a\x1b[31mbé\x1b" := by decide +kernel
  have hBytes : (r.byteWrites.flatten.map fun b => [b]).flatten = r.byteWrites.flatten := by
    rw [← List.flatMap_def, List.flatMap_singleton']
  obtain ⟨_, _, _, hStrip, hReport⟩ := strip_of_any_chunks
  refine ⟨⟨hText, (hStrip _ chunks hText).trans (by decide +kernel)⟩, by decide +kernel,
    (hReport r).2 _ hBytes⟩

end HindleyMilner
