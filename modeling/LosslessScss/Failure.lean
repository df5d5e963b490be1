import LosslessScss.Position

/-!
# Failures

A `Failure` is the reason why a text cannot be read, together with the place in the text
that it concerns.
-/

namespace LosslessScss

/-- Why a text cannot be read.  `expected w` says that `w` is missing, `unexpected c` that
the bracket `c` closes nothing, `unclassifiable c` that no token starts with `c`, and
`remark m` is a message `m` of a caller. -/
inductive Cause where
  | expected (wanted : String)
  | unexpected (found : Char)
  | unclassifiable (found : Char)
  | nestedTooDeep
  | endOfInput
  | remark (message : String)
  deriving DecidableEq, Repr

/-- The message of a cause. -/
def Cause.message : Cause → String
  | expected wanted => "Expected \"" ++ wanted ++ "\""
  | unexpected found => "Unexpected \"" ++ found.toString ++ "\""
  | unclassifiable found => "Can't handle character: \"" ++ found.toString ++ "\""
  | nestedTooDeep => "Nesting too deep"
  | endOfInput => "Unexpected end of input"
  | remark message => message

/-- A cause at a place. -/
structure Failure where
  cause : Cause
  position : Position
  deriving DecidableEq, Repr

/-- The message of a failure, followed by its line and column. -/
def Failure.display (f : Failure) : String :=
  f.cause.message ++ " (" ++ toString f.position.line ++ ":" ++ toString f.position.column
    ++ ")"

/-- The failure of a text that itself stands at `p`. -/
def Failure.shift (p : Position) (f : Failure) : Failure :=
  { f with position := p.shift f.position }

end LosslessScss
