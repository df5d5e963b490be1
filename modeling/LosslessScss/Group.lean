import LosslessScss.Statement
import LosslessScss.Node

/-!
# Groups

A group is a part of a stylesheet between two brackets.  The tree keeps its content only;
the kind of the group tells the brackets.
-/

namespace LosslessScss

/-- A part of a stylesheet between two brackets: the arguments of a function, other
parentheses, square brackets, a block, or an interpolation. -/
inductive Group where
  | arguments
  | parentheses
  | brackets
  | block
  | interpolation
  deriving DecidableEq, Repr

namespace Group

/-- The kind of the node of a group. -/
def kind : Group → Kind
  | arguments => .arguments
  | parentheses => .parentheses
  | brackets => .brackets
  | block => .block
  | interpolation => .interpolation

/-- What a group consists of: the statements of a block, or entries. -/
def scope : Group → Scope
  | block => .statements
  | _ => .entries

/-- The mark that closes a group. -/
def closer : Group → Char
  | arguments | parentheses => ')'
  | brackets => ']'
  | block | interpolation => '}'

/-- The number of tokens that open a group. -/
def openerLength : Group → Nat
  | interpolation => 2
  | _ => 1

theorem openerLength_pos (g : Group) :
  0 < g.openerLength
  := by
  cases g <;> decide

theorem closing_kind (g : Group) :
  g.kind.closing.toList = [g.closer]
  := by
  cases g <;> rfl

theorem length_opening_kind (g : Group) :
  g.kind.opening.toList.length = g.openerLength
  := by
  cases g <;> rfl

end Group

/-- Where a sequence of statements stands: at the top of a stylesheet, or in a group that
opens at the given place. -/
inductive Surroundings where
  | top
  | inside (g : Group) (opened : Position)
  deriving DecidableEq, Repr

namespace Surroundings

/-- What a sequence consists of. -/
def scope : Surroundings → Scope
  | top => .statements
  | inside g _ => g.scope

/-- The mark that ends a sequence, unless only the text does. -/
def closer? : Surroundings → Option Char
  | top => none
  | inside g _ => some g.closer

/-- The end of a sequence with the text, which leaves a group open. -/
def finish : Surroundings → Except Failure Unit
  | top => .ok ()
  | inside g opened => .error ⟨.expected g.closer.toString, opened⟩

end Surroundings

/-- The deepest allowed nesting of groups. -/
def maxNesting : Nat := 64

/-- Whether a mark closes a group. -/
def isCloser (c : Char) : Bool := c == ')' || c == ']' || c == '}'

theorem Group.isCloser_closer (g : Group) :
  isCloser g.closer = true
  := by
  cases g <;> rfl

end LosslessScss
