import LosslessScss.Proofs.Lexicon.Tokens
import Mathlib.Data.List.Basic

/-!
# Parts of a lexical text

Lexemes that follow each other in a text are lexemes of a text of their own, and but for a comment
up to the end of the line they may as well be followed by a curly bracket.  A lexeme looks at two
characters behind it, and a curly bracket tells it no more than the end of the text.
-/

namespace LosslessScss

open Character

section Prefix

variable {r r' : List Char}

/-- The end of the text and a curly bracket stop a run of other characters. -/
theorem Stops.of_start {p : Char → Bool} (stops : Stops p r) (noBracket : p '\x7d' = false)
    (start : r' <+: r ++ ['\x7d']) :
  Stops p r'
  := by
  obtain ⟨t, whole⟩ := start
  rintro c first
  obtain ⟨s, rfl⟩ := List.head?_eq_some_iff.mp first
  cases r with
  | nil =>
    obtain ⟨rfl, _⟩ := List.cons.inj whole
    exact noBracket
  | cons d r =>
    obtain ⟨rfl, _⟩ := List.cons.inj whole
    exact stops c rfl

theorem hexDigits_le_append (s t : List Char) :
  hexDigits s ≤ hexDigits (s ++ t)
  := by
  unfold hexDigits
  rw [List.takeWhile_append]
  split
  case isTrue all =>
    rw [all]
    exact (List.prefix_append _ _).length_le
  case isFalse => exact Nat.le_refl _

/-- A curly bracket is no hexadecimal digit. -/
theorem hexDigits_le_of_start (start : r' <+: r ++ ['\x7d']) :
  hexDigits r' ≤ hexDigits r
  := by
  have bracket : hexDigits (r ++ ['\x7d']) = hexDigits r := by
    unfold hexDigits
    rw [List.takeWhile_append]
    split
    case isTrue all =>
      rw [all]
      exact congrArg List.length (List.append_nil r)
    case isFalse => rfl
  obtain ⟨t, whole⟩ := start
  rw [← bracket, ← whole]
  exact hexDigits_le_append r' t

/-- Two characters that are seen have been there before, unless the latter is a curly bracket. -/
theorem seen_of_start {c d : Char} {t : List Char} (noBracket : c ≠ '\x7d')
    (start : c :: d :: t <+: r ++ ['\x7d']) :
  (∃ t', r = c :: d :: t') ∨ r = [c] ∧ d = '\x7d'
  := by
  obtain ⟨u, whole⟩ := start
  obtain _ | ⟨c', _ | ⟨d', r⟩⟩ := r
  · exact absurd (List.cons.inj whole).1 noBracket
  · obtain ⟨rfl, behind⟩ := List.cons.inj whole
    exact .inr ⟨rfl, (List.cons.inj behind).1⟩
  · obtain ⟨rfl, behind⟩ := List.cons.inj whole
    obtain ⟨rfl, _⟩ := List.cons.inj behind
    exact .inl ⟨r, rfl⟩

/-- A lexeme that fits does so in front of any beginning of the text behind it with a curly bracket,
unless it is a comment that only the end of the text ends.  No backslash may stand alone in front of
the bracket, which it would escape. -/
theorem Lexeme.Fits.of_start {l : Lexeme} (fits : l.Fits r) (start : r' <+: r ++ ['\x7d'])
    (noBackslash : r ≠ ['\\']) (ends : l.kind = .lineComment → r = [] → r' = []) :
  l.Fits r'
  := by
  obtain ⟨kind, text⟩ := l
  cases kind with
  | space => exact ⟨fits.1, fits.2.1, fits.2.2.of_start rfl start⟩
  | lineComment =>
    refine ⟨fits.1, ?_⟩
    obtain none | first := fits.2
    · exact .inl (ends rfl none)
    · obtain ⟨r, rfl⟩ := List.head?_eq_some_iff.mp first
      obtain ⟨t, whole⟩ := start
      cases r' with
      | nil => exact .inl rfl
      | cons c r' => exact .inr (congrArg some (List.cons.inj whole).1)
  | blockComment | doubleQuoted | singleQuoted => exact fits
  | atKeyword | variableName => exact ⟨fits.1, fits.2.of_start (by decide) start⟩
  | colour =>
    refine ⟨fits.1, fits.2.imp_right fun ⟨three, few⟩ => ⟨three, ?_⟩⟩
    apply Nat.lt_of_le_of_lt _ few
    apply hexDigits_le_of_start
    rw [List.append_assoc]
    exact (List.prefix_append_right_inj text).mpr start
  | number =>
    obtain ⟨number, stops, point⟩ := fits
    refine ⟨number, stops.of_start rfl start, point.imp_right fun noDigit => ?_⟩
    rintro d t rfl
    obtain ⟨t', seen⟩ | ⟨_, rfl⟩ := seen_of_start (by decide) start
    · exact noDigit d t' seen
    · rfl
  | identifier =>
    obtain ⟨first, text, stops, noEscape⟩ := fits
    refine ⟨first, text, stops.of_start (by decide) start, ?_⟩
    rintro d t rfl
    obtain ⟨t', seen⟩ | ⟨alone, _⟩ := seen_of_start (by decide) start
    · exact noEscape d t' seen
    · exact absurd alone noBackslash
  | punctuation =>
    obtain ⟨c, text, mark, noColour, noNumber⟩ := fits
    refine ⟨c, text, mark, fun hash => ?_, fun point => (noNumber point).of_start rfl start⟩
    exact Nat.lt_of_le_of_lt (hexDigits_le_of_start start) (noColour hash)
  | operator =>
    obtain ⟨c, n, text, repeatable, stops⟩ | ⟨c, text, operator, single, noComment, noName⟩ := fits
    · refine .inl ⟨c, n, text, repeatable, stops.of_start ?_ start⟩
      rw [beq_eq_false_iff_ne]
      rintro rfl
      exact absurd repeatable (by decide)
    · exact .inr ⟨c, text, operator, single, fun slash => (noComment slash).of_start rfl start,
        fun dollar => (noName dollar).of_start (by decide) start⟩
  | _ => exact fits

end Prefix

namespace Lexical

variable {ls ms : List Lexeme}

/-- The text of lexemes is no single backslash. -/
theorem ne_backslash (lexical : Lexical ls) :
  ls.flatMap Lexeme.written ≠ ['\\']
  := by
  cases ls with
  | nil => exact nofun
  | cons l ls =>
    intro text
    have read := Reading.ofText_of_fits lexical.1 text
    have unread : Reading.ofText '\\' [] = .unclassifiable '\\' := by decide
    rw [unread] at read
    cases read

theorem right (lexical : Lexical (ls ++ ms)) :
  Lexical ms
  := by
  induction ls with
  | nil => exact lexical
  | cons l ls ih => exact ih lexical.2

theorem left (lexical : Lexical (ls ++ ms)) :
  Lexical ls
  := by
  induction ls with
  | nil => trivial
  | cons l ls ih =>
    obtain ⟨fits, others⟩ := lexical
    have noBackslash := others.ne_backslash
    rw [List.append_eq, List.flatMap_append] at fits noBackslash
    refine ⟨fits.of_start ?_ noBackslash fun _ none => ?_, ih others⟩
    · rw [List.append_assoc]
      exact List.prefix_append _ _
    · exact (List.append_eq_nil_iff.mp none).1

/-- A lexeme has text. -/
theorem eq_nil (lexical : Lexical ls) (none : ls.flatMap Lexeme.written = []) :
  ls = []
  := by
  cases ls with
  | nil => rfl
  | cons l ls => exact absurd (List.append_eq_nil_iff.mp none).1 lexical.1.written_ne_nil

/-- A curly bracket closes a text, unless it would stand in a comment. -/
theorem close (lexical : Lexical ls) (noComment : ∀ l ∈ ls.getLast?, l.kind ≠ .lineComment) :
  Lexical (ls ++ [⟨.punctuation, ['\x7d']⟩])
  := by
  induction ls with
  | nil => exact ⟨⟨'\x7d', rfl, by decide, nofun, nofun⟩, trivial⟩
  | cons l ls ih =>
    obtain ⟨fits, others⟩ := lexical
    have behind : ∀ l ∈ ls.getLast?, l.kind ≠ .lineComment := fun m last =>
      noComment m (List.mem_getLast?_cons last)
    refine ⟨?_, ih others behind⟩
    rw [List.append_eq, List.flatMap_append]
    apply fits.of_start (List.prefix_refl _) others.ne_backslash
    intro comment none
    obtain rfl := others.eq_nil none
    exact absurd comment (noComment l rfl)

end Lexical

end LosslessScss
