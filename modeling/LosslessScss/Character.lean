import LosslessScss.Character.Numeric

/-!
# Classes of characters

The classes of characters that tell the tokens of a stylesheet apart.  White space and
digits are those of ASCII; letters are the alphabetic characters.
-/

namespace LosslessScss.Character

/-- Whether a character is white space: a space, a tab, a line feed, a carriage return or a
form feed. -/
def isBlank (c : Char) : Bool :=
  c == ' ' || c == '\t' || c == '\n' || c == '\r' || c == '\x0c'

/-- Whether a character is a hexadecimal digit. -/
def isHexDigit (c : Char) : Bool :=
  c.isDigit || ('a' ≤ c && c ≤ 'f') || ('A' ≤ c && c ≤ 'F')

/-- Whether a character starts the name of a variable or of an at-rule. -/
def startsName (c : Char) : Bool := isAlphabetic c || c == '_' || c == '-'

/-- Whether a character continues the name of a variable or of an at-rule. -/
def continuesName (c : Char) : Bool := startsName c || c.isDigit

/-- Whether a character starts an identifier. -/
def startsIdentifier (c : Char) : Bool := isAlphabetic c || c == '_'

/-- Whether a character continues an identifier. -/
def continuesIdentifier (c : Char) : Bool := isAlphanumeric c || c == '_' || c == '-'

/-- Whether a character is a token of punctuation. -/
def isPunctuation (c : Char) : Bool :=
  ['{', '}', '(', ')', '[', ']', ',', ';', ':', '#', '.'].contains c

/-- Whether a character makes up an operator together with all its repetitions that
follow. -/
def isRepeatableOperator (c : Char) : Bool := ['&', '|', '=', '<', '>'].contains c

/-- Whether a character is an operator. -/
def isOperator (c : Char) : Bool :=
  ['+', '-', '*', '/', '%', '=', '&', '|', '!', '~', '<', '>', '^', '$'].contains c

end LosslessScss.Character
