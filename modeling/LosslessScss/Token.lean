import LosslessScss.Lexeme

/-!
# Tokens

A `Token` is a lexeme at a place in the source.  `Cursor.read` reads the token at a
cursor.  A string or a comment that is never closed uses up the text; a character with
which no token starts is left where it is.
-/

namespace LosslessScss

/-- A lexeme with the places of its first character and after its last one. -/
structure Token where
  kind : Kind
  text : String
  start : Position
  stop : Position
  deriving DecidableEq, Repr

namespace Token

/-- The lexeme `l` at the place `start`. -/
def ofLexeme (l : Lexeme) (start : Position) : Token :=
  ⟨l.kind, String.ofList l.text, start, start.after l.written⟩

/-- The kind and the text of a token. -/
def lexeme (t : Token) : Lexeme := ⟨t.kind, t.text.toList⟩

/-- The text of a token in the source. -/
def written (t : Token) : String := t.kind.opening ++ t.text ++ t.kind.closing

/-- The character of a token of punctuation. -/
def mark? (t : Token) : Option Char :=
  if t.kind = .punctuation then t.text.toList.head? else none

/-- A token of a text that itself stands at `p`. -/
def shift (p : Position) (t : Token) : Token :=
  { t with start := p.shift t.start, stop := p.shift t.stop }

@[simp]
theorem lexeme_ofLexeme (l : Lexeme) (start : Position) :
  (ofLexeme l start).lexeme = l
  := by
  simp [ofLexeme, lexeme]

theorem mark?_of_identifier (t : Token) (name : t.kind = .identifier) :
  t.mark? = none
  := by
  simp [mark?, name]

theorem toList_written (t : Token) :
  t.written.toList = t.lexeme.written
  := by
  simp [written, Lexeme.written, lexeme]

end Token

/-- The token at a cursor, or none at the end of the text, and the cursor after the
attempt. -/
def Cursor.read (c : Cursor) : Except Failure (Option Token) × Cursor :=
  match c.rest with
  | [] => (.ok none, c)
  | x :: s =>
    match Reading.ofText x s with
    | .lexeme l rest =>
      (.ok (some (.ofLexeme l c.position)), ⟨rest, c.position.after l.written⟩)
    | .unclosed wanted => (.error ⟨.expected wanted, c.position⟩, c.toEnd)
    | .unclassifiable found => (.error ⟨.unclassifiable found, c.position⟩, c)

namespace Cursor

/-- Reading a token moves the cursor forward. -/
theorem length_rest_lt_of_read {c d : Cursor} {t : Token} (h : c.read = (.ok (some t), d)) :
  d.rest.length < c.rest.length
  := by
  unfold read at h
  split at h
  · cases h
  · next x s text =>
    split at h
    · next l rest found =>
      cases h
      rw [text]
      exact Reading.ofText_length_lt found
    · cases h
    · cases h

end Cursor

end LosslessScss
