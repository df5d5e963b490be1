import LosslessScss.Token
import Mathlib.Data.List.TakeWhile

/-!
# The lexical rules

What a text must look like to be that of a lexeme of a given kind, and where the lexeme must
end: `Lexeme.Fits l r` says that `l` is one by the rule of its kind when the text `r` follows.
Every rule speaks of the text of the lexeme and of the few characters behind it, and none of how
the lexeme is read.  `Lexical ls` says that every one of the lexemes `ls` fits in front of the
text of those behind it, and `LexicalBefore r ls` that it does where the text `r` follows them all.
-/

namespace LosslessScss

open Character

/-! ### Texts -/

/-- No character with the property `p` comes first. -/
def Stops (p : Char → Bool) (r : List Char) : Prop := ∀ c ∈ r.head?, p c = false

/-- How many hexadecimal digits a text starts with. -/
def hexDigits (r : List Char) : Nat := (r.takeWhile isHexDigit).length

/-- A text between two quotes: characters other than the quote and the backslash, and
backslashes with any one character each. -/
inductive QuotedText (quote : Char) : List Char → Prop where
  | nil : QuotedText quote []
  | plain {c s} (noQuote : c ≠ quote) (noBackslash : c ≠ '\\') (others : QuotedText quote s) :
      QuotedText quote (c :: s)
  | escape {c s} (others : QuotedText quote s) : QuotedText quote ('\\' :: c :: s)

/-- A text within an identifier: characters that continue one, and backslashes with one character
each that does not mark the end of a text. -/
inductive IdentifierText : List Char → Prop where
  | nil : IdentifierText []
  | plain {c s} (continues : continuesIdentifier c = true) (others : IdentifierText s) :
      IdentifierText (c :: s)
  | escape {c s} (real : c ≠ endMark) (others : IdentifierText s) :
      IdentifierText ('\\' :: c :: s)

/-- A name of a variable or of an at-rule. -/
def NameText (s : List Char) : Prop :=
  (∃ c ∈ s.head?, startsName c = true) ∧ ∀ c ∈ s, continuesName c = true

/-- Digits, or a point with digits behind it and perhaps in front. -/
def NumberText (s : List Char) : Prop :=
  s ≠ [] ∧ (∀ c ∈ s, c.isDigit = true) ∨
    ∃ ds fs, s = ds ++ '.' :: fs ∧ (∀ c ∈ ds, c.isDigit = true) ∧ fs ≠ [] ∧
      ∀ c ∈ fs, c.isDigit = true

/-- Neither a digit nor, unless the number has a point already, a point with a digit comes
first. -/
def NumberStops (s r : List Char) : Prop :=
  Stops Char.isDigit r ∧ ('.' ∈ s ∨ ∀ d t, r = '.' :: d :: t → d.isDigit = false)

namespace Lexeme

/-- The rule of the kind of a lexeme, where `r` is the text behind it. -/
def Fits (l : Lexeme) (r : List Char) : Prop :=
  match l.kind with
  | .space => l.text ≠ [] ∧ (∀ c ∈ l.text, isBlank c = true) ∧ Stops isBlank r
  | .lineComment => '\n' ∉ l.text ∧ (r = [] ∨ r.head? = some '\n')
  | .blockComment => ¬['*', '/'] <:+: l.text
  | .doubleQuoted => QuotedText '"' l.text
  | .singleQuoted => QuotedText '\'' l.text
  | .atKeyword | .variableName => NameText l.text ∧ Stops continuesName r
  | .colour =>
    (∀ c ∈ l.text, isHexDigit c = true) ∧
      (l.text.length = 6 ∨ l.text.length = 3 ∧ hexDigits (l.text ++ r) < 6)
  | .number => NumberText l.text ∧ NumberStops l.text r
  | .identifier =>
    (∃ c ∈ l.text.head?, startsIdentifier c = true ∨ c = '\\') ∧ IdentifierText l.text ∧
      Stops continuesIdentifier r ∧ ∀ d t, r = '\\' :: d :: t → d = endMark
  | .punctuation =>
    ∃ c, l.text = [c] ∧ isPunctuation c = true ∧ (c = '#' → hexDigits r < 3) ∧
      (c = '.' → Stops Char.isDigit r)
  | .operator =>
    (∃ c n, l.text = List.replicate (n + 1) c ∧ isRepeatableOperator c = true ∧
        Stops (· == c) r) ∨
      ∃ c, l.text = [c] ∧ isOperator c = true ∧ isRepeatableOperator c = false ∧
        (c = '/' → Stops (fun d => d == '/' || d == '*') r) ∧ (c = '$' → Stops startsName r)
  | _ => False

/-- A lexeme that fits has at least one character. -/
theorem Fits.written_ne_nil {l : Lexeme} {r : List Char} (fits : l.Fits r) :
  l.written ≠ []
  := by
  obtain ⟨kind, text⟩ := l
  intro empty
  simp only [written, List.append_eq_nil_iff, String.toList_eq_nil_iff] at empty
  obtain ⟨⟨opening, rfl⟩, -⟩ := empty
  cases kind with
  | space => exact fits.1 rfl
  | number =>
    obtain ⟨⟨some, -⟩ | ⟨ds, fs, text, -⟩, -⟩ := fits
    · exact some rfl
    · cases ds <;> cases text
  | identifier =>
    obtain ⟨⟨c, first, -⟩, -⟩ := fits
    cases first
  | punctuation =>
    obtain ⟨c, text, -⟩ := fits
    cases text
  | operator =>
    obtain ⟨c, n, text, -⟩ | ⟨c, text, -⟩ := fits
    · cases text
    · cases text
  | lineComment | blockComment | doubleQuoted | singleQuoted | atKeyword | variableName | colour =>
    exact absurd opening (by decide)
  | _ => exact fits

end Lexeme

/-- Every lexeme fits in front of the text of those behind it. -/
def Lexical : List Lexeme → Prop
  | [] => True
  | l :: ls => l.Fits (ls.flatMap Lexeme.written) ∧ Lexical ls

/-- Every lexeme fits in front of the text of those behind it, which the text `r` follows. -/
def LexicalBefore (r : List Char) : List Lexeme → Prop
  | [] => True
  | l :: ls => l.Fits (ls.flatMap Lexeme.written ++ r) ∧ LexicalBefore r ls

theorem lexicalBefore_nil_iff {ls : List Lexeme} :
  LexicalBefore [] ls ↔ Lexical ls
  := by
  induction ls with
  | nil => exact Iff.rfl
  | cons l ls ih => rw [LexicalBefore, Lexical, List.append_nil, ih]

end LosslessScss
