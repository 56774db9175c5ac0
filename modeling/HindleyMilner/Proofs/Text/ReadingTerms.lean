import HindleyMilner.Proofs.Text.Lexemes
import HindleyMilner.Term

/-! Reading printed terms back. The reader goes through the lexemes of a text once, with a stack
of what is still open: parentheses, abstractions, and let bindings before and after their `in`.
What it makes of the plain text of a term is the term, so no two terms print alike. -/
namespace HindleyMilner.Term

open Text Lexeme

/-- Names that a reader cannot take for a keyword. -/
structure IsVariable (x : Name) : Prop where
  identifier : Name.IsIdentifier x
  ne_let : x ≠ "let"
  ne_in : x ≠ "in"

instance (x : Name) : Decidable (IsVariable x) :=
  decidable_of_iff (Name.IsIdentifier x ∧ x ≠ "let" ∧ x ≠ "in")
    ⟨fun h => ⟨h.1, h.2.1, h.2.2⟩, fun h => ⟨h.1, h.2, h.3⟩⟩

/-- Terms without literals, all of whose names can be told from keywords. -/
def Legible : Term → Prop
  | var x => IsVariable x
  | lam x body => IsVariable x ∧ body.Legible
  | app function argument => function.Legible ∧ argument.Legible
  | letIn x bound body => IsVariable x ∧ bound.Legible ∧ body.Legible
  | float _ => False

instance decideLegible : (t : Term) → Decidable t.Legible
  | var x => inferInstanceAs (Decidable (IsVariable x))
  | lam x body =>
      have := decideLegible body
      inferInstanceAs (Decidable (IsVariable x ∧ body.Legible))
  | app function argument =>
      have := decideLegible function
      have := decideLegible argument
      inferInstanceAs (Decidable (function.Legible ∧ argument.Legible))
  | letIn x bound body =>
      have := decideLegible bound
      have := decideLegible body
      inferInstanceAs (Decidable (IsVariable x ∧ bound.Legible ∧ body.Legible))
  | float _ => isFalse id

section Symbols

variable {p : Position}

theorem symbols_var (x : Name) : Doc.symbols ((var x).toDoc p) = x.toList := Doc.symbols_text x

/-- An abstraction, without the parentheses around it. -/
def lamSymbols (x : Name) (body : List Char) : List Char := 'λ' :: (x.toList ++ '.' :: body)

/-- A let binding, without the parentheses around it. -/
def letSymbols (x : Name) (bound body : List Char) : List Char :=
  "let".toList ++ ' ' :: (x.toList ++ ' ' :: '=' :: ' ' ::
    (bound ++ ' ' :: ("in".toList ++ ' ' :: body)))

/-- The symbols of an abstraction, in parentheses unless it stands at the top. -/
theorem symbols_lam (x : Name) (body : Term) :
    Doc.symbols ((lam x body).toDoc p) =
      let symbols := lamSymbols x (Doc.symbols (body.toDoc .top))
      if p ≠ .top then '(' :: (symbols ++ [')']) else symbols := by
  rw [toDoc, Doc.symbols_parensIf]
  simp [lamSymbols, Token.lambda, Token.period, Token.punctuation]

/-- The symbols of an application, in parentheses if it is an argument. -/
theorem symbols_app (function argument : Term) :
    Doc.symbols ((app function argument).toDoc p) =
      let symbols := Doc.symbols (function.toDoc .left) ++
        ' ' :: Doc.symbols (argument.toDoc .argument)
      if p = .argument then '(' :: (symbols ++ [')']) else symbols := by
  rw [toDoc, applyDoc, Doc.symbols_parensIf]
  simp [Token.space]

/-- The symbols of a let, in parentheses unless it stands at the top. -/
theorem symbols_letIn (x : Name) (bound body : Term) :
    Doc.symbols ((letIn x bound body).toDoc p) =
      let symbols := letSymbols x (Doc.symbols (bound.toDoc .top)) (Doc.symbols (body.toDoc .top))
      if p ≠ .top then '(' :: (symbols ++ [')']) else symbols := by
  rw [toDoc, Doc.symbols_parensIf]
  simp [letSymbols, Token.equals, Token.spaced, Token.space, Token.punctuation]

end Symbols

/-- A legible term prints no escape, as its names are letters and digits and no
punctuation contains one. -/
theorem Legible.esc_not_mem_symbols {t : Term} (h : t.Legible) (p : Position) :
    Escape.esc ∉ Doc.symbols (t.toDoc p) := by
  induction t generalizing p with
  | var x =>
      rw [symbols_var]
      exact h.identifier.esc_not_mem
  | lam x body ih =>
      have hx := h.1.identifier.esc_not_mem
      have hBody := ih h.2 .top
      rw [symbols_lam]
      apply esc_not_mem_parens
      simp_all [lamSymbols, Escape.esc]
  | app function argument ihFunction ihArgument =>
      have hFunction := ihFunction h.1 .left
      have hArgument := ihArgument h.2 .argument
      rw [symbols_app]
      apply esc_not_mem_parens
      simp_all [Escape.esc]
  | letIn x bound body ihBound ihBody =>
      have hx := h.1.identifier.esc_not_mem
      have hBound := ihBound h.2.1 .top
      have hBody := ihBody h.2.2 .top
      rw [symbols_letIn]
      apply esc_not_mem_parens
      simp_all [letSymbols, Escape.esc]
  | float _ => exact h.elim

def lexemesAt (p : Position) (t : Term) : List Lexeme := lexemes (Doc.symbols (t.toDoc p))

/-- The lexemes of an abstraction: the mark, its variable, a period, and its
body. -/
theorem lexemesAt_lam_top {x : Name} (hx : IsVariable x) (body : Term) :
    lexemesAt .top (lam x body) =
      mark 'λ' :: word x.toList :: mark '.' :: lexemesAt .top body := by
  rw [lexemesAt, symbols_lam]
  show lexemes (lamSymbols _ _) = _
  rw [lamSymbols, lexemes_cons_mark (by decide), lexemes_append_mark (by decide),
    hx.identifier.lexemes_eq]
  rfl

/-- The lexemes of an application: the function and its argument, with a
blank between them. -/
theorem lexemesAt_app_left (function argument : Term) :
    lexemesAt .left (app function argument) =
      lexemesAt .left function ++ mark ' ' :: lexemesAt .argument argument := by
  rw [lexemesAt, symbols_app]
  exact lexemes_append_mark (by decide) _ _

/-- The lexemes of a let: the two words with what stands between and after them. -/
theorem lexemesAt_letIn_top {x : Name} (hx : IsVariable x) (bound body : Term) :
    lexemesAt .top (letIn x bound body) =
      word "let".toList :: mark ' ' :: word x.toList :: mark ' ' :: mark '=' :: mark ' ' ::
        (lexemesAt .top bound ++ mark ' ' :: word "in".toList :: mark ' ' ::
          lexemesAt .top body) := by
  have hLet : Name.IsIdentifier "let" := by decide
  have hIn : Name.IsIdentifier "in" := by decide
  rw [lexemesAt, symbols_letIn]
  show lexemes (letSymbols _ _ _) = _
  rw [letSymbols, lexemes_append_mark (by decide), hLet.lexemes_eq,
    lexemes_append_mark (by decide), hx.identifier.lexemes_eq, lexemes_cons_mark (by decide),
    lexemes_cons_mark (by decide), lexemes_append_mark (by decide),
    lexemes_append_mark (by decide), hIn.lexemes_eq]
  rfl

/-- What has been opened and not yet been closed. -/
inductive Frame where
  /-- A parenthesis, with the function in front of it. -/
  | group (function : Option Term)
  | lam (x : Name)
  /-- A let binding before its `in`. -/
  | bound (x : Name)
  /-- A let binding after its `in`. -/
  | body (x : Name) (value : Term)

/-- A term beside the function in front of it. -/
def juxtapose (function : Option Term) (t : Term) : Term := function.elim t (app · t)

/-- End the abstractions and let bindings that reach as far right as they can. -/
def close : List Frame → Term → List Frame × Term
  | .lam x :: frames, t => close frames (lam x t)
  | .body x value :: frames, t => close frames (letIn x value t)
  | frames, t => (frames, t)

inductive Reader where
  /-- The name of a binder comes next. -/
  | naming (binder : Name → Frame) (frames : List Frame)
  /-- A term comes next, or an argument of the last one. -/
  | reading (frames : List Frame) (last : Option Term)

namespace Reader

/-- At an `in`, a let binding must be open. -/
def endBound : List Frame × Term → Option Reader
  | (.bound x :: frames, value) => some (reading (.body x value :: frames) none)
  | _ => none

/-- At a closing parenthesis, another one must be open. -/
def endGroup : List Frame × Term → Option Reader
  | (.group function :: frames, t) => some (reading frames (some (juxtapose function t)))
  | _ => none

/-- Read one lexeme. Marks that only separate others are skipped. -/
def step : Reader → Lexeme → Option Reader
  | naming binder frames, word letters =>
      some (reading (binder (String.ofList letters) :: frames) none)
  | naming binder frames, mark _ => some (naming binder frames)
  | reading frames last, word letters =>
      if letters = "let".toList then some (naming .bound frames)
      else if letters = "in".toList then last.bind fun t => endBound (close frames t)
      else some (reading frames (some (juxtapose last (var (String.ofList letters)))))
  | reading frames last, mark c =>
      if c = 'λ' then some (naming .lam frames)
      else if c = '(' then some (reading (.group last :: frames) none)
      else if c = ')' then last.bind fun t => endGroup (close frames t)
      else some (reading frames last)

def run (r : Reader) (lexemes : List Lexeme) : Option Reader := lexemes.foldlM step r

@[simp]
theorem run_nil (r : Reader) : r.run [] = some r := rfl

@[simp]
theorem run_cons (r : Reader) (l : Lexeme) (rest : List Lexeme) :
    r.run (l :: rest) = (r.step l).bind fun r => r.run rest := rfl

@[simp]
theorem run_append (r : Reader) (first second : List Lexeme) :
    r.run (first ++ second) = (r.run first).bind fun r => r.run second := List.foldlM_append

/-- The term read, once the text has ended. -/
def finish : Reader → Option Term
  | reading frames (some t) => if (close frames t).1.isEmpty then some (close frames t).2 else none
  | _ => none

section Steps

variable (frames : List Frame) (last : Option Term)

theorem step_lambda : (reading frames last).step (mark 'λ') = some (naming .lam frames) := rfl

theorem step_let : (reading frames last).step (word "let".toList) = some (naming .bound frames) :=
  rfl

theorem step_in (t : Term) :
    (reading frames (some t)).step (word "in".toList) = endBound (close frames t) := rfl

theorem step_open :
    (reading frames last).step (mark '(') = some (reading (.group last :: frames) none) := rfl

theorem step_close (t : Term) :
    (reading frames (some t)).step (mark ')') = endGroup (close frames t) := rfl

theorem step_blank : (reading frames last).step (mark ' ') = some (reading frames last) := rfl

theorem step_period : (reading frames last).step (mark '.') = some (reading frames last) := rfl

theorem step_equals : (reading frames last).step (mark '=') = some (reading frames last) := rfl

theorem step_naming_blank (binder : Name → Frame) :
    (naming binder frames).step (mark ' ') = some (naming binder frames) := rfl

/-- The word after a binder is the variable that it binds. -/
theorem step_name (binder : Name → Frame) (x : Name) :
    (naming binder frames).step (word x.toList) = some (reading (binder x :: frames) none) := by
  rw [step, String.ofList_toList]

/-- Another word is a variable, to which what was read before it is applied. -/
theorem step_variable {x : Name} (hx : IsVariable x) :
    (reading frames last).step (word x.toList) =
      some (reading frames (some (juxtapose last (var x)))) := by
  have hLet : x.toList ≠ "let".toList := mt String.toList_inj.mp hx.ne_let
  have hIn : x.toList ≠ "in".toList := mt String.toList_inj.mp hx.ne_in
  rw [step, if_neg hLet, if_neg hIn, String.ofList_toList]

end Steps

end Reader

open Reader

/-- At the top, what a term leaves open is closed by whatever follows. -/
def ReadsTop (t : Term) : Prop :=
  ∀ frames, ∃ opened last,
    (reading frames none).run (lexemesAt .top t) = some (reading (opened ++ frames) (some last)) ∧
      ∀ outer, close (opened ++ outer) last = close outer t

/-- The function of an application is read as such, with nothing in front of it. -/
def ReadsLeft (t : Term) : Prop :=
  ∀ frames, (reading frames none).run (lexemesAt .left t) = some (reading frames (some t))

/-- An argument is read as that of the function in front of it. -/
def ReadsArgument (t : Term) : Prop :=
  ∀ frames last, (reading frames last).run (lexemesAt .argument t) =
    some (reading frames (some (juxtapose last t)))

/-- Parentheses are read as the term between them. The closing one ends all
binders that are open inside. -/
theorem ReadsTop.run_parens {t : Term} (h : t.ReadsTop) (frames : List Frame)
    (last : Option Term) :
    (reading frames last).run (mark '(' :: (lexemesAt .top t ++ [mark ')'])) =
      some (reading frames (some (juxtapose last t))) := by
  obtain ⟨opened, inner, hRun, hClose⟩ := h (.group last :: frames)
  simp only [run_cons, run_append, step_open, Option.bind_some, hRun, step_close, hClose]
  rfl

/-- A term that stands in parentheses anywhere but at the top is
read in each position. -/
theorem ReadsTop.of_parens {t : Term} (h : t.ReadsTop)
    (hParens : ∀ p, p ≠ .top → lexemesAt p t = mark '(' :: (lexemesAt .top t ++ [mark ')'])) :
    t.ReadsLeft ∧ t.ReadsArgument := by
  constructor
  · intro frames
    rw [hParens .left (by decide)]
    exact h.run_parens frames none
  · intro frames last
    rw [hParens .argument (by decide)]
    exact h.run_parens frames last

/-- The body of an abstraction is read behind its binder, which stays open until
something closes it. -/
theorem ReadsTop.lam {x : Name} {body : Term} (h : body.ReadsTop) (hx : IsVariable x) :
    (lam x body).ReadsTop := by
  intro frames
  obtain ⟨opened, last, hRun, hClose⟩ := h (.lam x :: frames)
  refine ⟨opened ++ [.lam x], last, ?_, fun outer => ?_⟩
  · simp only [lexemesAt_lam_top hx, run_cons, step_lambda, step_name, step_period,
      Option.bind_some, hRun, List.append_assoc, List.singleton_append]
  · rw [List.append_assoc]
    exact hClose (.lam x :: outer)

/-- The word between the two parts of a let closes what its bound
term has left open. -/
theorem ReadsTop.letIn {x : Name} {bound body : Term} (hBound : bound.ReadsTop)
    (hBody : body.ReadsTop) (hx : IsVariable x) : (letIn x bound body).ReadsTop := by
  intro frames
  obtain ⟨openedBound, lastBound, hRunBound, hCloseBound⟩ := hBound (.bound x :: frames)
  obtain ⟨opened, last, hRun, hClose⟩ := hBody (.body x bound :: frames)
  -- the bound term is complete at the `in`, the body only at the end of the binding
  have hEnd : endBound (close (openedBound ++ .bound x :: frames) lastBound) =
      some (reading (.body x bound :: frames) none) := by
    rw [hCloseBound]
    rfl
  refine ⟨opened ++ [.body x bound], last, ?_, fun outer => ?_⟩
  · simp only [lexemesAt_letIn_top hx, run_cons, run_append, step_let, step_naming_blank,
      step_name, step_blank, step_equals, step_in, Option.bind_some, hRunBound, hEnd, hRun,
      List.append_assoc, List.singleton_append]
  · rw [List.append_assoc]
    exact hClose (.body x bound :: outer)

/-- An argument is read after the function, and the function is applied to it. -/
theorem ReadsLeft.app {function argument : Term} (hFunction : function.ReadsLeft)
    (hArgument : argument.ReadsArgument) : (app function argument).ReadsLeft := by
  intro frames
  simp only [lexemesAt_app_left, run_append, run_cons, hFunction frames, step_blank,
    Option.bind_some, hArgument frames]
  rfl

/-- A term that reads the same at the top as on the left leaves nothing open. -/
theorem ReadsLeft.top {t : Term} (h : t.ReadsLeft) (hTop : lexemesAt .top t = lexemesAt .left t) :
    t.ReadsTop :=
  fun frames => ⟨[], t, hTop ▸ h frames, fun _ => rfl⟩

/-- Legible terms are read in each position. The induction proves all three
positions at once, since a function stands on the left, an argument beside it,
and the other parts at the top. -/
theorem Legible.reads {t : Term} (h : t.Legible) :
    t.ReadsTop ∧ t.ReadsLeft ∧ t.ReadsArgument := by
  induction t with
  | var x =>
      have hArgument : (var x).ReadsArgument := by
        intro frames last
        have hLexemes : lexemesAt .argument (var x) = [word x.toList] := by
          rw [lexemesAt, symbols_var, h.identifier.lexemes_eq]
        simp only [hLexemes, run_cons, step_variable _ _ h, Option.bind_some, run_nil]
      have hLeft : (var x).ReadsLeft := fun frames => hArgument frames none
      exact ⟨hLeft.top rfl, hLeft, hArgument⟩
  | lam x body ih =>
      have hTop := (ih h.2).1.lam h.1
      refine ⟨hTop, hTop.of_parens fun p hp => ?_⟩
      rw [lexemesAt, symbols_lam, if_pos hp, lexemes_parens, lexemesAt, symbols_lam]
      rfl
  | app function argument ihFunction ihArgument =>
      have hLeft := (ihFunction h.1).2.1.app (ihArgument h.2).2.2
      have hTop := hLeft.top rfl
      refine ⟨hTop, hLeft, fun frames last => ?_⟩
      have hParens : lexemesAt .argument (app function argument) =
          mark '(' :: (lexemesAt .top (app function argument) ++ [mark ')']) := by
        rw [lexemesAt, symbols_app, if_pos rfl, lexemes_parens, lexemesAt, symbols_app]
        rfl
      rw [hParens]
      exact hTop.run_parens frames last
  | letIn x bound body ihBound ihBody =>
      have hTop := (ihBound h.2.1).1.letIn (ihBody h.2.2).1 h.1
      refine ⟨hTop, hTop.of_parens fun p hp => ?_⟩
      rw [lexemesAt, symbols_letIn, if_pos hp, lexemes_parens, lexemesAt, symbols_letIn]
      rfl
  | float _ => exact h.elim

def read (text : String) : Option Term :=
  ((reading [] none).run (lexemes text.toList)).bind Reader.finish

/-- The plain text of a legible term is read as that term. -/
theorem read_plain {t : Term} (h : t.Legible) : read (plain t) = some t := by
  have hText : (plain t).toList = Doc.symbols (t.toDoc .top) :=
    Doc.toList_plain (h.esc_not_mem_symbols .top)
  obtain ⟨opened, last, hRun, hClose⟩ := h.reads.1 []
  have hFinish : close (opened ++ []) last = ([], t) := hClose []
  rw [read, hText, ← lexemesAt, hRun, Option.bind_some, finish, hFinish]
  rfl

end HindleyMilner.Term
