import HindleyMilner.Name
import HindleyMilner.Proofs.Text.Segments
import HindleyMilner.Text.Pretty

/-! The words and marks of plain text. A document's plain text is made of the texts of its spans,
unless these bring along escapes. Cut into words of letters and digits and into single marks, it
is cut alike wherever a mark stands between two parts. -/
namespace HindleyMilner.Text

namespace Doc

/-- The symbols of a document without any styling. -/
def symbols (d : Doc) : List Char := d.flatMap fun span => span.text.toList

@[simp]
theorem symbols_append (d e : Doc) : symbols (d ++ e) = symbols d ++ symbols e :=
  List.flatMap_append

@[simp]
theorem symbols_text (s : String) : symbols (Doc.text s) = s.toList := List.flatMap_singleton ..

@[simp]
theorem symbols_styled (style : Style) (s : String) : symbols (Doc.styled style s) = s.toList :=
  List.flatMap_singleton ..

/-- Parentheses add a symbol on either side, if they are needed. -/
theorem symbols_parensIf (needed : Bool) (d : Doc) :
    symbols (parensIf needed d) =
      if needed then '(' :: (symbols d ++ [')']) else symbols d := by
  cases needed with
  | false => rfl
  | true => simp [parensIf, Token.openParen, Token.closeParen, Token.punctuation]

end Doc

theorem esc_not_mem_parens {symbols : List Char} (needed : Prop) [Decidable needed]
    (h : Escape.esc ∉ symbols) :
    Escape.esc ∉ if needed then '(' :: (symbols ++ [')']) else symbols := by
  split
  · simpa [Escape.esc] using h
  · exact h

/-- The codes that start a style are whole escapes, so nothing of them is passed
on. -/
theorem write_codes (style : Style) :
    Escape.filter.write .outside (String.join (style.attributes.map Style.code)).toList =
      (.outside, []) := by
  cases style <;> decide +kernel

/-- A text in a style, without the codes around it, is the text. -/
theorem write_paint (style : Style) {text : String} (h : Escape.esc ∉ text.toList) :
    Escape.filter.write .outside (style.paint text).toList = (.outside, text.toList) := by
  have hText : Escape.filter.write .outside text.toList = (.outside, text.toList) :=
    Escape.write_outside h
  have hReset : Escape.filter.write .outside (Style.code 0).toList = (.outside, []) := by
    decide +kernel
  by_cases hRaw : style = .raw
  · rw [hRaw]
    exact hText
  · have hPaint : style.paint text =
        String.join (style.attributes.map Style.code) ++ text ++ Style.code 0 := by
      cases style <;> first | rfl | exact absurd rfl hRaw
    rw [hPaint, String.toList_append, String.toList_append, Filter.write_append,
      Filter.write_append, write_codes, hText, hReset]
    exact congrArg _ (List.append_nil _)

/-- A document in colour, without escapes, is its symbols. The text of no span
may contain the symbol that starts an escape. -/
theorem write_coloured {d : Doc} (h : Escape.esc ∉ d.symbols) :
    Escape.filter.write .outside d.coloured.toList = (.outside, d.symbols) := by
  rw [Doc.coloured, String.toList_join]
  induction d with
  | nil => rfl
  | cons span d ih =>
      obtain ⟨hSpan, hRest⟩ := not_or.mp (mt List.mem_append.mpr h)
      rw [List.map_cons, List.flatMap_cons, Filter.write_append, write_paint _ hSpan, ih hRest]
      rfl

/-- The plain text of a document is made of the texts of its spans. -/
theorem Doc.toList_plain {d : Doc} (h : Escape.esc ∉ d.symbols) : d.plain.toList = d.symbols := by
  rw [plain, strip, String.toList_ofList, Filter.run, Filter.writeAll_eq_write_flatten,
    List.flatten_singleton]
  exact congrArg Prod.snd (write_coloured h)

/-- A word of letters and digits, or any other symbol. -/
inductive Lexeme where
  | word (letters : List Char)
  | mark (symbol : Char)
deriving DecidableEq

open Lexeme

def Lexeme.symbols : Lexeme → List Char
  | word letters => letters
  | mark c => [c]

/-- Put a letter or digit in front of lexemes. It joins the word it stands next
to. -/
def Lexeme.join (c : Char) : List Lexeme → List Lexeme
  | word letters :: rest => word (c :: letters) :: rest
  | rest => word [c] :: rest

def Lexeme.prepend (c : Char) (lexemes : List Lexeme) : List Lexeme :=
  if c.isAlphanum then join c lexemes else mark c :: lexemes

def lexemes (text : List Char) : List Lexeme := text.foldr Lexeme.prepend []

/-- A symbol that is no letter or digit is a lexeme of its own. -/
theorem lexemes_cons_mark {c : Char} (h : c.isAlphanum = false) (text : List Char) :
    lexemes (c :: text) = mark c :: lexemes text := by
  rw [lexemes, List.foldr_cons, Lexeme.prepend, h]
  rfl

theorem Lexeme.prepend_append_mark (c d : Char) (before after : List Lexeme) :
    prepend c (before ++ mark d :: after) = prepend c before ++ mark d :: after := by
  rw [prepend, prepend]
  split
  · cases before with
    | nil => rfl
    | cons first before => cases first <;> rfl
  · rfl

/-- A mark keeps the lexemes on its two sides apart. -/
theorem lexemes_append_mark {c : Char} (h : c.isAlphanum = false) (before after : List Char) :
    lexemes (before ++ c :: after) = lexemes before ++ mark c :: lexemes after := by
  induction before with
  | nil => exact lexemes_cons_mark h after
  | cons d before ih =>
      calc lexemes (d :: before ++ c :: after)
          = Lexeme.prepend d (lexemes (before ++ c :: after)) := rfl
        _ = Lexeme.prepend d (lexemes before ++ mark c :: lexemes after) := by rw [ih]
        _ = lexemes (d :: before) ++ mark c :: lexemes after :=
            Lexeme.prepend_append_mark d c _ _

theorem lexemes_parens (symbols : List Char) :
    lexemes ('(' :: (symbols ++ [')'])) = mark '(' :: (lexemes symbols ++ [mark ')']) := by
  rw [lexemes_cons_mark (by decide), lexemes_append_mark (by decide)]
  rfl

/-- Letters and digits are one word. -/
theorem lexemes_word {letters : List Char} (hNonempty : letters ≠ [])
    (hLetters : ∀ c ∈ letters, c.isAlphanum = true) : lexemes letters = [word letters] := by
  induction letters with
  | nil => exact absurd rfl hNonempty
  | cons c letters ih =>
      obtain ⟨hc, hLetters⟩ := List.forall_mem_cons.mp hLetters
      rw [lexemes, List.foldr_cons, Lexeme.prepend, if_pos hc]
      cases letters with
      | nil => rfl
      | cons d letters =>
          rw [← lexemes, ih (List.cons_ne_nil _ _) hLetters]
          rfl

end HindleyMilner.Text

namespace HindleyMilner

open Text

/-- Names made of letters and digits. -/
structure Name.IsIdentifier (x : Name) : Prop where
  nonempty : x.toList ≠ []
  alphanumeric : ∀ c ∈ x.toList, c.isAlphanum = true

/-- The check of names is whether they are letters and digits, one at least. -/
theorem Name.isIdentifier_iff (x : Name) :
    (!x.toList.isEmpty && x.toList.all Char.isAlphanum) = true ↔ IsIdentifier x := by
  rw [Bool.and_eq_true, List.all_eq_true, Bool.not_eq_true', List.isEmpty_eq_false_iff]
  exact ⟨fun h => ⟨h.1, h.2⟩, fun h => ⟨h.1, h.2⟩⟩

instance (x : Name) : Decidable (Name.IsIdentifier x) :=
  decidable_of_iff _ (Name.isIdentifier_iff x)

namespace Name.IsIdentifier

variable {x : Name} (h : IsIdentifier x)
include h

theorem esc_not_mem : Escape.esc ∉ x.toList :=
  fun hMem => absurd (h.alphanumeric _ hMem) (by decide)

theorem lexemes_eq : lexemes x.toList = [.word x.toList] := lexemes_word h.nonempty h.alphanumeric

end Name.IsIdentifier

end HindleyMilner
