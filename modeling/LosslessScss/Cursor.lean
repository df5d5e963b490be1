import LosslessScss.Failure

/-!
# Cursors

A `Cursor` is a place in a text together with the characters that follow it.  Characters
can be looked at any distance ahead; past the end of the text `peek` answers U+0000, which
is a character as any other, so that only `atEnd` tells whether anything is left.
-/

namespace LosslessScss

/-- What a cursor shows past the end of its text. -/
def endMark : Char := '\x00'

/-- A place in a text and the characters after it. -/
structure Cursor where
  rest : List Char
  position : Position
  deriving DecidableEq, Repr

namespace Cursor

/-- The cursor before the first character of a text. -/
def ofString (source : String) : Cursor := ⟨source.toList, .origin⟩

/-- Whether no character is left. -/
def atEnd (c : Cursor) : Bool := c.rest.isEmpty

/-- The character `n` places ahead, or `endMark` past the end. -/
def peek (c : Cursor) (n : Nat) : Char := c.rest.getD n endMark

/-- The next character and the cursor after it, unless the text is used up. -/
def next? (c : Cursor) : Option (Char × Cursor) :=
  match c.rest with
  | [] => none
  | x :: rest => some (x, ⟨rest, c.position.advance x⟩)

/-- The cursor after the next `n` characters, or at the end if there are fewer. -/
def skip (c : Cursor) (n : Nat) : Cursor :=
  ⟨c.rest.drop n, c.position.after (c.rest.take n)⟩

/-- The cursor after the last character. -/
def toEnd (c : Cursor) : Cursor := ⟨[], c.position.after c.rest⟩

/-- A failure at the place of the cursor. -/
def fail (c : Cursor) (message : String) : Failure := ⟨.remark message, c.position⟩

@[simp]
theorem skip_zero (c : Cursor) :
  c.skip 0 = c
  := by
  simp [skip]

theorem skip_succ_of_next? {c d : Cursor} {x : Char} (h : c.next? = some (x, d)) (n : Nat) :
  c.skip (n + 1) = d.skip n
  := by
  rcases c with ⟨_ | ⟨y, rest⟩, p⟩
  · cases h
  · cases h
    simp [skip]

end Cursor

end LosslessScss
