import LosslessScss.Proofs.Reading

/-!
# Texts at another place

The tokens of a text that stands at a place `p` of a larger one are those of the text itself, with
every place shifted by `p` (`Cursor.readAll_shift`).
-/

namespace LosslessScss

/-! ### Places -/

namespace Position

theorem shift_origin (p : Position) :
  p.shift origin = p
  := by
  simp [shift, origin]

theorem one_le_line_advance {q : Position} (line : 1 ≤ q.line) (c : Char) :
  1 ≤ (q.advance c).line
  := by
  unfold advance
  split
  · exact Nat.le_add_left 1 q.line
  · exact line

/-- To go on and to stand at another place commute, as lines are counted from 1. -/
theorem shift_advance (p : Position) {q : Position} (line : 1 ≤ q.line) (c : Char) :
  p.shift (q.advance c) = (p.shift q).advance c
  := by
  unfold advance
  split
  · simp only [shift, mk.injEq]
    refine ⟨by omega, by omega, if_neg (by omega), by omega⟩
  · simp only [shift, mk.injEq]
    refine ⟨by omega, trivial, ?_, by omega⟩
    split
    · omega
    · rfl

theorem one_le_line_after {q : Position} (line : 1 ≤ q.line) (cs : List Char) :
  1 ≤ (q.after cs).line
  := by
  induction cs generalizing q with
  | nil => exact line
  | cons c cs ih => exact ih (one_le_line_advance line c)

theorem shift_after (p : Position) {q : Position} (line : 1 ≤ q.line) (cs : List Char) :
  p.shift (q.after cs) = (p.shift q).after cs
  := by
  induction cs generalizing q with
  | nil => rfl
  | cons c cs ih =>
    rw [after_cons, after_cons, ih (one_le_line_advance line c), shift_advance p line]

end Position

/-! ### Tokens -/

/-- The cursor of a text that itself stands at `p`. -/
def Cursor.shift (p : Position) (c : Cursor) : Cursor := ⟨c.rest, p.shift c.position⟩

/-- The tokens of a text that itself stands at `p`. -/
def Stretch.shift (p : Position) (s : Stretch) : Stretch :=
  ⟨s.tokens.map (Token.shift p), s.failure.map (Failure.shift p), s.cursor.shift p⟩

namespace Cursor

variable (p : Position) {c : Cursor}

theorem read_shift (line : 1 ≤ c.position.line) :
  (c.shift p).read
    = ((c.read.1.map (Option.map (Token.shift p))).mapError (Failure.shift p), c.read.2.shift p)
  := by
  obtain ⟨rest, q⟩ := c
  unfold read shift
  cases rest with
  | nil => rfl
  | cons x s =>
    dsimp only at line ⊢
    cases Reading.ofText x s with
    | lexeme l rest =>
      have stop := Position.shift_after p line l.written
      have token : (Token.ofLexeme l q).shift p = Token.ofLexeme l (p.shift q) := by
        simp only [Token.shift, Token.ofLexeme, stop]
      dsimp only
      rw [← token, ← stop]
      rfl
    | unclosed =>
      simp only [toEnd, Position.shift_after p line]
      rfl
    | unclassifiable => rfl

/-- Reading stays at places whose lines are counted from 1. -/
theorem one_le_line_read (line : 1 ≤ c.position.line) :
  1 ≤ c.read.2.position.line
  := by
  unfold read
  split
  · exact line
  · split
    · exact Position.one_le_line_after line _
    · exact Position.one_le_line_after line _
    · exact line

theorem readAll_shift (line : 1 ≤ c.position.line) :
  (c.shift p).readAll = c.readAll.shift p
  := by
  fun_induction readAll c with
  | case1 c f d read =>
    have shifted := read_shift p line
    rw [read] at shifted
    exact readAll_of_error shifted
  | case2 c d read =>
    have shifted := read_shift p line
    rw [read] at shifted
    exact readAll_of_none shifted
  | case3 c t d read ih =>
    have shifted := read_shift p line
    have line' := one_le_line_read line
    rw [read] at shifted line'
    rw [readAll_of_some shifted, ih line']
    rfl

/-- The tokens of a text that stands at a place. -/
theorem readAll_of_place (u : String) (p : Position) :
  readAll ⟨u.toList, p⟩ = (ofString u).readAll.shift p
  := by
  rw [← readAll_shift p (Nat.le_refl 1), shift, ofString, Position.shift_origin]

end Cursor

end LosslessScss
