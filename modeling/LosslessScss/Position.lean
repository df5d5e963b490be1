/-!
# Positions in a text

A `Position` is a place between two characters of a text, counted in characters, lines,
columns and bytes at once.  `Position.advance p c` is the place after the character `c`
that stands at `p`, `Position.after p cs` the place after the characters `cs`, and
`Position.shift p q` the place `q` of a text that itself stands at `p` of a larger one.
-/

namespace LosslessScss

/-- A place in a text: `index` counts characters from 0, `line` lines from 1, `column` the
characters since the last line feed, and `byte` the bytes of the text in UTF-8. -/
structure Position where
  index : Nat
  line : Nat
  column : Nat
  byte : Nat
  deriving DecidableEq, Repr

namespace Position

/-- The place before the first character. -/
def origin : Position := ⟨0, 1, 0, 0⟩

instance : Inhabited Position := ⟨origin⟩

/-- The place after the character `c` that stands at `p`.  Only a line feed starts a
line. -/
def advance (p : Position) (c : Char) : Position :=
  if c = '\n' then ⟨p.index + 1, p.line + 1, 0, p.byte + c.utf8Size⟩
  else ⟨p.index + 1, p.line, p.column + 1, p.byte + c.utf8Size⟩

/-- The place after the characters `cs` that stand at `p`. -/
def after (p : Position) (cs : List Char) : Position := cs.foldl advance p

@[simp]
theorem after_nil (p : Position) :
  p.after [] = p
  := rfl

@[simp]
theorem after_cons (p : Position) (c : Char) (cs : List Char) :
  p.after (c :: cs) = (p.advance c).after cs
  := rfl

theorem after_append (p : Position) (cs ds : List Char) :
  p.after (cs ++ ds) = (p.after cs).after ds
  := by
  simp [after, List.foldl_append]

/-- The place `q` of a text whose first character stands at `p`.  Only a column of the first
line moves. -/
def shift (p q : Position) : Position where
  index := p.index + q.index
  line := p.line + (q.line - 1)
  column := if q.line = 1 then p.column + q.column else q.column
  byte := p.byte + q.byte

end Position

end LosslessScss
