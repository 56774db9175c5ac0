import HindleyMilner.Classes.Kind
import HindleyMilner.Proofs.Text.ReadingTerms
import HindleyMilner.Sequence.Type
import HindleyMilner.Simple.Type

/-! Unambiguous printing. Simple types and the two languages of kinds print as arrows between
leaves, to the right, with sequences in brackets. Arrows can be told from their lexemes even if
more text follows, so values of these types that print alike are equal, and so are terms. -/
namespace HindleyMilner.Text

open Lexeme

/-- What is printed with arrows and brackets. -/
inductive Arrows where
  | leaf (text : String)
  | arrow (domain codomain : Arrows)
  | seq (element : Arrows)

namespace Arrows

/-- A leaf is a name or a star. -/
def Legible : Arrows → Prop
  | leaf text => Name.IsIdentifier text ∨ text = "*"
  | arrow a b => a.Legible ∧ b.Legible
  | seq a => a.Legible

def symbols (p : Position) : Arrows → List Char
  | leaf text => text.toList
  | arrow a b =>
      let arrow := a.symbols .left ++ ' ' :: '-' :: '>' :: ' ' :: b.symbols .top
      if p ≠ .top then '(' :: (arrow ++ [')']) else arrow
  | seq a => '[' :: (a.symbols .top ++ [']'])

/-- What is legible prints no escapes. -/
theorem esc_not_mem_symbols {a : Arrows} (h : a.Legible) (p : Position) :
    Escape.esc ∉ a.symbols p := by
  induction a generalizing p with
  | leaf text =>
      rcases h with hName | rfl
      · exact hName.esc_not_mem
      · exact (by decide : Escape.esc ∉ "*".toList)
  | arrow a b iha ihb =>
      have ha := iha h.1 .left
      have hb := ihb h.2 .top
      apply esc_not_mem_parens
      simp_all [Escape.esc]
  | seq a ih =>
      have ha := ih h .top
      simp_all [symbols, Escape.esc]

def lexemesAt (p : Position) (a : Arrows) : List Lexeme := lexemes (a.symbols p)

/-- What stands between a domain and a codomain. -/
def sign : List Lexeme := [mark ' ', mark '-', mark '>', mark ' ']

/-- A leaf is a single lexeme, which tells its text and is no bracket. -/
theorem lexemesAt_leaf {text : String} (h : (leaf text).Legible) (p : Position) :
    ∃ l : Lexeme, lexemesAt p (leaf text) = [l] ∧ l.symbols = text.toList ∧
      l ≠ mark '(' ∧ l ≠ mark '[' := by
  rcases h with hName | rfl
  · exact ⟨word text.toList, hName.lexemes_eq, rfl, by simp, by simp⟩
  · have hStar : lexemes "*".toList = [mark '*'] := by decide
    exact ⟨mark '*', hStar, rfl, by simp, by simp⟩

/-- At the top, an arrow is its left side, the sign, and its right side. -/
theorem lexemesAt_arrow_top (a b : Arrows) :
    lexemesAt .top (arrow a b) = lexemesAt .left a ++ (sign ++ lexemesAt .top b) := by
  show lexemes (a.symbols .left ++ ' ' :: '-' :: '>' :: ' ' :: b.symbols .top) = _
  rw [lexemes_append_mark (by decide), lexemes_cons_mark (by decide),
    lexemes_cons_mark (by decide), lexemes_cons_mark (by decide)]
  rfl

/-- On the left of an arrow it is in parentheses. -/
theorem lexemesAt_arrow_left (a b : Arrows) :
    lexemesAt .left (arrow a b) = mark '(' :: (lexemesAt .top (arrow a b) ++ [mark ')']) :=
  lexemes_parens _

/-- A sequence is in brackets wherever it stands. -/
theorem lexemesAt_seq (a : Arrows) (p : Position) :
    lexemesAt p (seq a) = mark '[' :: (lexemesAt .top a ++ [mark ']']) := by
  rw [lexemesAt, symbols, lexemes_cons_mark (by decide), lexemes_append_mark (by decide)]
  rfl

/-- Only arrows print differently at the top. -/
theorem lexemesAt_top_cases (a : Arrows) :
    lexemesAt .top a = lexemesAt .left a ∨ ∃ domain codomain, a = arrow domain codomain := by
  cases a with
  | leaf => exact .inl rfl
  | arrow domain codomain => exact .inr ⟨domain, codomain, rfl⟩
  | seq => exact .inl rfl

/-- A text that does not go on with an arrow. -/
def Stops (rest : List Lexeme) : Prop := rest.head? ≠ some (mark ' ')

theorem not_stops_sign (rest : List Lexeme) : ¬ Stops (sign ++ rest) := fun h => h rfl

/-- On the left of an arrow, any text may follow. -/
def ReadsLeft (a : Arrows) : Prop :=
  ∀ b : Arrows, b.Legible → ∀ rest more,
    lexemesAt .left a ++ rest = lexemesAt .left b ++ more → a = b ∧ rest = more

/-- At the top, the text that follows must not go on with an arrow. -/
def ReadsTop (a : Arrows) : Prop :=
  ∀ b : Arrows, b.Legible → ∀ rest more, Stops rest → Stops more →
    lexemesAt .top a ++ rest = lexemesAt .top b ++ more → a = b ∧ rest = more

/-- What prints the same at the top as on the left can be read there, if
what follows stops it. -/
theorem ReadsLeft.top {a : Arrows} (h : a.ReadsLeft)
    (hTop : lexemesAt .top a = lexemesAt .left a) : a.ReadsTop := by
  intro b hLegible rest more hRest _ hEq
  rw [hTop] at hEq
  obtain hb | ⟨domain, codomain, rfl⟩ := lexemesAt_top_cases b
  · exact h b hLegible rest more (hb ▸ hEq)
  · -- what follows would be the rest of the arrow
    rw [lexemesAt_arrow_top, List.append_assoc, List.append_assoc] at hEq
    obtain ⟨-, rfl⟩ := h domain hLegible.1 _ _ hEq
    exact absurd hRest (not_stops_sign _)

/-- After the left side comes a sign, so that the reader goes on
with the right side. -/
theorem ReadsLeft.arrow {a b : Arrows} (ha : a.ReadsLeft) (hb : b.ReadsTop) :
    (arrow a b).ReadsTop := by
  intro c hLegible rest more hRest hMore hEq
  rw [lexemesAt_arrow_top, List.append_assoc, List.append_assoc] at hEq
  obtain hc | ⟨domain, codomain, rfl⟩ := lexemesAt_top_cases c
  · rw [hc] at hEq
    obtain ⟨-, rfl⟩ := ha c hLegible _ _ hEq
    exact absurd hMore (not_stops_sign _)
  · rw [lexemesAt_arrow_top, List.append_assoc, List.append_assoc] at hEq
    obtain ⟨rfl, hSign⟩ := ha domain hLegible.1 _ _ hEq
    obtain ⟨rfl, rfl⟩ := hb codomain hLegible.2 _ _ hRest hMore (List.append_cancel_left hSign)
    exact ⟨rfl, rfl⟩

/-- A leaf is read as a single lexeme. -/
theorem readsLeft_leaf {text : String} (h : (leaf text).Legible) : (leaf text).ReadsLeft := by
  intro b hLegible rest more hEq
  obtain ⟨l, hl, hText, hParen, hBracket⟩ := lexemesAt_leaf h .left
  rw [hl] at hEq
  cases b with
  | leaf other =>
      obtain ⟨k, hk, hOther, -⟩ := lexemesAt_leaf hLegible .left
      rw [hk] at hEq
      obtain ⟨rfl, rfl⟩ := List.cons.inj hEq
      exact ⟨congrArg leaf (String.toList_inj.mp (hText.symm.trans hOther)), rfl⟩
  | arrow => simp [lexemesAt_arrow_left, hParen] at hEq
  | seq => simp [lexemesAt_seq, hBracket] at hEq

/-- The parentheses around an arrow on the left tell where it ends, so that any text may follow.
-/
theorem ReadsTop.left_arrow {a b : Arrows} (h : (Arrows.arrow a b).ReadsTop) :
    (Arrows.arrow a b).ReadsLeft := by
  intro c hLegible rest more hEq
  rw [lexemesAt_arrow_left] at hEq
  cases c with
  | leaf text =>
      obtain ⟨l, hl, -, hParen, -⟩ := lexemesAt_leaf hLegible .left
      simp [hl, hParen.symm] at hEq
  | arrow domain codomain =>
      rw [lexemesAt_arrow_left, List.cons_append, List.cons_append, List.append_assoc,
        List.append_assoc] at hEq
      obtain ⟨hArrow, hRest⟩ := h _ hLegible _ _ (by simp [Stops]) (by simp [Stops])
        (List.cons.inj hEq).2
      exact ⟨hArrow, List.append_cancel_left hRest⟩
  | seq c => simp [lexemesAt_seq] at hEq

theorem ReadsTop.left_seq {a : Arrows} (h : a.ReadsTop) : (seq a).ReadsLeft := by
  intro c hLegible rest more hEq
  rw [lexemesAt_seq] at hEq
  cases c with
  | leaf text =>
      obtain ⟨l, hl, -, -, hBracket⟩ := lexemesAt_leaf hLegible .left
      simp [hl, hBracket.symm] at hEq
  | arrow domain codomain => simp [lexemesAt_arrow_left] at hEq
  | seq b =>
      rw [lexemesAt_seq, List.cons_append, List.cons_append, List.append_assoc,
        List.append_assoc] at hEq
      obtain ⟨rfl, hRest⟩ := h b hLegible _ _ (by simp [Stops]) (by simp [Stops])
        (List.cons.inj hEq).2
      exact ⟨rfl, List.append_cancel_left hRest⟩

/-- By induction, what is legible is read back in both positions, whatever
follows. -/
theorem Legible.reads {a : Arrows} (h : a.Legible) : a.ReadsLeft ∧ a.ReadsTop := by
  induction a with
  | leaf text =>
      have hLeft := readsLeft_leaf h
      exact ⟨hLeft, hLeft.top rfl⟩
  | arrow a b iha ihb =>
      have hTop := (iha h.1).1.arrow (ihb h.2).2
      exact ⟨hTop.left_arrow, hTop⟩
  | seq a ih =>
      have hLeft := (ih h).2.left_seq
      exact ⟨hLeft, hLeft.top rfl⟩

/-- Documents that show arrows are alike only if the arrows are equal. -/
theorem eq_of_plain_eq {a b : Arrows} (ha : a.Legible) (hb : b.Legible) {d e : Doc}
    (hd : d.symbols = a.symbols .top) (he : e.symbols = b.symbols .top)
    (h : d.plain = e.plain) : a = b := by
  have hSymbols : a.symbols .top = b.symbols .top := by
    rw [← hd, ← he, ← Doc.toList_plain (hd ▸ esc_not_mem_symbols ha .top),
      ← Doc.toList_plain (he ▸ esc_not_mem_symbols hb .top), h]
  have hEq : lexemesAt .top a ++ [] = lexemesAt .top b ++ [] := by
    rw [lexemesAt, lexemesAt, hSymbols]
  exact (ha.reads.2 b hb [] [] (by simp [Stops]) (by simp [Stops]) hEq).1

/-- A document of an arrow shows the arrow, if the documents of its sides show
these in each position. -/
theorem symbols_arrowDoc {a b : Arrows} {domain codomain : Position → Doc}
    (ha : ∀ p, (domain p).symbols = a.symbols p) (hb : ∀ p, (codomain p).symbols = b.symbols p)
    (p : Position) : Doc.symbols (arrowDoc p domain codomain) = (Arrows.arrow a b).symbols p := by
  rw [arrowDoc, Doc.symbols_parensIf]
  simp [symbols, ha, hb, Token.spaced, Token.space, Token.arrow, Token.punctuation]

end Arrows

end HindleyMilner.Text

namespace HindleyMilner

open Text

namespace Simple.Ty

/-- Types all of whose names are made of letters and digits. -/
def Legible : Ty → Prop
  | var x => Name.IsIdentifier x
  | arrow a b => a.Legible ∧ b.Legible

instance decideLegible : (a : Ty) → Decidable a.Legible
  | var x => inferInstanceAs (Decidable (Name.IsIdentifier x))
  | arrow a b =>
      have := decideLegible a
      have := decideLegible b
      inferInstanceAs (Decidable (a.Legible ∧ b.Legible))

def shown : Ty → Arrows
  | var x => .leaf x
  | arrow a b => .arrow a.shown b.shown

/-- The document of a type shows its arrows. -/
theorem symbols_toDoc (a : Ty) (p : Position) : Doc.symbols (a.toDoc p) = a.shown.symbols p := by
  induction a generalizing p with
  | var x => exact Doc.symbols_styled _ x
  | arrow a b iha ihb => exact Arrows.symbols_arrowDoc iha ihb p

theorem Legible.shown {a : Ty} (h : a.Legible) : a.shown.Legible := by
  induction a with
  | var x => exact .inl h
  | arrow a b iha ihb => exact ⟨iha h.1, ihb h.2⟩

theorem shown_inj {a b : Ty} (h : a.shown = b.shown) : a = b := by
  induction a generalizing b with
  | var x =>
      cases b with
      | var y => exact congrArg var (Arrows.leaf.inj h)
      | arrow => cases h
  | arrow a₁ a₂ ih₁ ih₂ =>
      cases b with
      | var y => cases h
      | arrow b₁ b₂ =>
          obtain ⟨h₁, h₂⟩ := Arrows.arrow.inj h
          rw [ih₁ h₁, ih₂ h₂]

end Simple.Ty

namespace Sequence.Kind

def shown : Kind → Arrows
  | data => .leaf "*"
  | arrow a b => .arrow a.shown b.shown
  | seq a => .seq a.shown

theorem symbols_toDoc (k : Kind) (p : Position) : Doc.symbols (k.toDoc p) = k.shown.symbols p := by
  induction k generalizing p with
  | data => rfl
  | arrow a b iha ihb => exact Arrows.symbols_arrowDoc iha ihb p
  | seq a ih =>
      simp [toDoc, shown, Arrows.symbols, ih, Token.openBracket, Token.closeBracket,
        Token.punctuation]

theorem legible_shown (k : Kind) : k.shown.Legible := by
  induction k with
  | data => exact .inr rfl
  | arrow a b iha ihb => exact ⟨iha, ihb⟩
  | seq a ih => exact ih

theorem shown_inj {k l : Kind} (h : k.shown = l.shown) : k = l := by
  induction k generalizing l with
  | data =>
      cases l with
      | data => rfl
      | arrow => cases h
      | seq => cases h
  | arrow k₁ k₂ ih₁ ih₂ =>
      cases l with
      | data => cases h
      | arrow l₁ l₂ =>
          obtain ⟨h₁, h₂⟩ := Arrows.arrow.inj h
          rw [ih₁ h₁, ih₂ h₂]
      | seq => cases h
  | seq k ih =>
      cases l with
      | data => cases h
      | arrow => cases h
      | seq l => rw [ih (Arrows.seq.inj h)]

end Sequence.Kind

namespace Classes.Kind

/-- A kind without sequences, among those with them. It prints the same. -/
def toSequence : Kind → Sequence.Kind
  | data => .data
  | arrow a b => .arrow a.toSequence b.toSequence

theorem toDoc_toSequence (k : Kind) (p : Position) : k.toSequence.toDoc p = k.toDoc p := by
  induction k generalizing p with
  | data => rfl
  | arrow a b iha ihb => simp only [toSequence, toDoc, Sequence.Kind.toDoc, iha, ihb]

theorem toSequence_inj {k l : Kind} (h : k.toSequence = l.toSequence) : k = l := by
  induction k generalizing l with
  | data =>
      cases l with
      | data => rfl
      | arrow => cases h
  | arrow k₁ k₂ ih₁ ih₂ =>
      cases l with
      | data => cases h
      | arrow l₁ l₂ =>
          obtain ⟨h₁, h₂⟩ := Sequence.Kind.arrow.inj h
          rw [ih₁ h₁, ih₂ h₂]

end Classes.Kind

/-- Kinds that print alike are equal. -/
theorem Sequence.Kind.eq_of_plain_eq {k l : Kind} (h : plain k = plain l) : k = l :=
  shown_inj (Arrows.eq_of_plain_eq k.legible_shown l.legible_shown (k.symbols_toDoc .top)
    (l.symbols_toDoc .top) h)

/-- Plain printing is unambiguous: legible terms, legible simple types and kinds
that print alike are equal. -/
theorem plain_unambiguous :
    (∀ t u : Term, t.Legible → u.Legible → plain t = plain u → t = u) ∧
    (∀ a b : Simple.Ty, a.Legible → b.Legible → plain a = plain b → a = b) ∧
    (∀ k l : Classes.Kind, plain k = plain l → k = l) ∧
    (∀ k l : Sequence.Kind, plain k = plain l → k = l) := by
  refine ⟨fun t u ht hu h => ?_, fun a b ha hb h => ?_, fun k l h => ?_,
    fun k l h => Sequence.Kind.eq_of_plain_eq h⟩
  · have hRead : some t = some u := by rw [← Term.read_plain ht, h, Term.read_plain hu]
    exact Option.some.inj hRead
  · exact Simple.Ty.shown_inj (Arrows.eq_of_plain_eq ha.shown hb.shown (a.symbols_toDoc .top)
      (b.symbols_toDoc .top) h)
  · apply Classes.Kind.toSequence_inj
    apply Sequence.Kind.eq_of_plain_eq
    show (k.toSequence.toDoc .top).plain = (l.toSequence.toDoc .top).plain
    rw [Classes.Kind.toDoc_toSequence, Classes.Kind.toDoc_toSequence]
    exact h

/-- Terms, types and kinds that differ only in where their parentheses stand. -/
theorem plain_ne_of_parentheses :
    let t : Term := .app (.lam "x" (.letIn "y" (.letIn "in1" (.var "x") (.var "x")) (.var "y")))
      (.app (.var "f") (.var "0"))
    let u : Term := .lam "x" (.letIn "y" (.letIn "in1" (.var "x") (.var "x"))
      (.app (.var "y") (.app (.var "f") (.var "0"))))
    let a : Simple.Ty := .arrow (.arrow (.var "a") (.var "b")) (.var "let")
    let b : Simple.Ty := .arrow (.var "a") (.arrow (.var "b") (.var "let"))
    (plain t = "(λx.let y = let in1 = x in x in y) (f 0)" ∧ t.Legible ∧ u.Legible ∧
      plain t ≠ plain u) ∧
    (plain a = "(a -> b) -> let" ∧ a.Legible ∧ b.Legible ∧ plain a ≠ plain b) ∧
    plain (Classes.Kind.arrow (.arrow .data .data) .data) ≠
      plain (Classes.Kind.arrow .data (.arrow .data .data)) ∧
    plain (Sequence.Kind.seq (.arrow .data .data)) ≠
      plain (Sequence.Kind.arrow (.seq .data) .data) := by
  intro t u a b
  obtain ⟨hTerms, hTypes, hKinds, hSequenceKinds⟩ := plain_unambiguous
  have ht : t.Legible := by decide +kernel
  have hu : u.Legible := by decide +kernel
  have ha : a.Legible := by decide +kernel
  have hb : b.Legible := by decide +kernel
  refine ⟨⟨by decide +kernel, ht, hu, mt (hTerms t u ht hu) (by decide +kernel)⟩,
    ⟨by decide +kernel, ha, hb, mt (hTypes a b ha hb) (by decide +kernel)⟩,
    mt (hKinds _ _) (by decide), mt (hSequenceKinds _ _) (by decide)⟩

end HindleyMilner
