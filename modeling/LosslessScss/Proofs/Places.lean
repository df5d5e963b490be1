import LosslessScss.Proofs.Reading
import Mathlib.Data.List.Induction

/-!
# Places of a text

A place of a text is a position that a cursor comes to when it goes over the text, one character
after another.  All that a position says is told by the characters in front of it
(`Position.after_origin`), and so a place is behind some beginning of the text
(`Position.isPlace_of_prefix`).
-/

namespace LosslessScss

/-- The cursor after `n` more characters, unless fewer are left. -/
def Cursor.forward? : Nat → Cursor → Option Cursor
  | 0, c => some c
  | n + 1, c => c.next?.bind fun r => r.2.forward? n

/-- A cursor goes over any text that is in front of it. -/
theorem Cursor.forward?_append (cs rest : List Char) (p : Position) :
  forward? cs.length ⟨cs ++ rest, p⟩ = some ⟨rest, p.after cs⟩
  := by
  induction cs generalizing p with
  | nil => rfl
  | cons c cs ih => exact ih (p.advance c)

namespace Position

/-- The position `p` is a place of a text: a cursor is there after `p.index` characters, `line`
counts the line feeds among these, `column` those that follow the last line feed, and `byte` is
their length in UTF-8. -/
structure IsPlace (source : String) (p : Position) : Prop where
  reached : ∃ c, (Cursor.ofString source).forward? p.index = some c ∧ c.position = p
  line : p.line = 1 + (source.toList.take p.index).count '\n'
  column : p.column = ((source.toList.take p.index).reverse.takeWhile (· ≠ '\n')).length
  byte : p.byte = (String.ofList (source.toList.take p.index)).utf8ByteSize

/-- What a position says of the characters in front of it. -/
theorem after_origin (cs : List Char) :
  origin.after cs = ⟨cs.length, 1 + cs.count '\n', (cs.reverse.takeWhile (· ≠ '\n')).length,
    (String.ofList cs).utf8ByteSize⟩
  := by
  induction cs using List.reverseRecOn with
  | nil => simp [origin]
  | append_singleton cs c ih =>
    have byte : (String.ofList (cs ++ [c])).utf8ByteSize
        = (String.ofList cs).utf8ByteSize + c.utf8Size := by
      rw [String.ofList_append, String.utf8ByteSize_append, ← String.utf8ByteSize_singleton]
      rfl
    rw [after_append, ih, byte, after_cons, after_nil, advance]
    by_cases feed : c = '\n'
    · rw [if_pos feed]
      simp [feed, Nat.add_assoc]
    · rw [if_neg feed]
      simp [feed]

/-- Behind every beginning of a text there is a place of it. -/
theorem isPlace_of_prefix {source : String} {cs : List Char} (start : cs <+: source.toList) :
  (origin.after cs).IsPlace source
  := by
  obtain ⟨rest, text⟩ := start
  have index : (origin.after cs).index = cs.length := by rw [after_origin]
  have before : source.toList.take (origin.after cs).index = cs := by
    rw [index, ← text, List.take_left]
  constructor
  case reached =>
    refine ⟨⟨rest, origin.after cs⟩, ?_, rfl⟩
    rw [index, Cursor.ofString, ← text]
    exact Cursor.forward?_append cs rest origin
  all_goals rw [before, after_origin]

end Position

end LosslessScss
