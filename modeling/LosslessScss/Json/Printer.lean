import LosslessScss.Json.Number

/-!
# Texts of JSON values

`Json.compact` writes a value without white space, `Json.pretty` over several lines with
an indentation of two spaces; an empty array or object stays on its line.  In a string
only the quote, the backslash and the characters below U+0020 are escaped.
-/

namespace LosslessScss.Json

/-- The digit with a given value below 16, in lower case. -/
def hexDigit (n : Nat) : Char :=
  if n < 10 then Char.ofNat ('0'.toNat + n) else Char.ofNat ('a'.toNat + (n - 10))

/-- A character inside of a string. -/
def escape (c : Char) : List Char :=
  if c = '"' then ['\\', '"']
  else if c = '\\' then ['\\', '\\']
  else if c = '\x08' then ['\\', 'b']
  else if c = '\x0c' then ['\\', 'f']
  else if c = '\n' then ['\\', 'n']
  else if c = '\r' then ['\\', 'r']
  else if c = '\t' then ['\\', 't']
  else if c.toNat < 0x20 then
    ['\\', 'u', '0', '0', hexDigit (c.toNat / 16), hexDigit (c.toNat % 16)]
  else [c]

/-- A text as a JSON string. -/
def quote (s : String) : String := String.ofList ('"' :: s.toList.flatMap escape ++ ['"'])

/-! ### On one line -/

mutual

/-- The text of a value without white space. -/
def compact : Json → String
  | .null => "null"
  | .bool b => toString b
  | .integer n => toString n
  | .decimal x => x.text
  | .string s => quote s
  | .array items => "[" ++ String.intercalate "," (compactItems items) ++ "]"
  | .object members => "\x7b" ++ String.intercalate "," (compactMembers members) ++ "\x7d"

/-- The texts of the items of an array. -/
def compactItems : List Json → List String
  | [] => []
  | v :: items => v.compact :: compactItems items

/-- The texts of the members of an object. -/
def compactMembers : List (String × Json) → List String
  | [] => []
  | (k, v) :: members => (quote k ++ ":" ++ v.compact) :: compactMembers members

end

/-! ### Over several lines -/

/-- A line break and the indentation of a level. -/
def newline (level : Nat) : String := "\n".pushn ' ' (2 * level)

/-- The entries of a container, each on a line of its own. -/
def lines (level : Nat) (entries : List String) : String :=
  newline (level + 1) ++ String.intercalate ("," ++ newline (level + 1)) entries
    ++ newline level

mutual

/-- The text of a value at a level of indentation. -/
def prettyAt (level : Nat) : Json → String
  | .null => "null"
  | .bool b => toString b
  | .integer n => toString n
  | .decimal x => x.text
  | .string s => quote s
  | .array [] => "[]"
  | .array (v :: items) =>
    "[" ++ lines level (v.prettyAt (level + 1) :: prettyItems (level + 1) items) ++ "]"
  | .object [] => "\x7b\x7d"
  | .object ((k, v) :: members) =>
    "\x7b"
      ++ lines level
          ((quote k ++ ": " ++ v.prettyAt (level + 1)) :: prettyMembers (level + 1) members)
      ++ "\x7d"

/-- The texts of the items of an array at a level of indentation. -/
def prettyItems (level : Nat) : List Json → List String
  | [] => []
  | v :: items => v.prettyAt level :: prettyItems level items

/-- The texts of the members of an object at a level of indentation. -/
def prettyMembers (level : Nat) : List (String × Json) → List String
  | [] => []
  | (k, v) :: members =>
    (quote k ++ ": " ++ v.prettyAt level) :: prettyMembers level members

end

/-- The text of a value over several lines. -/
def pretty (v : Json) : String := v.prettyAt 0

end LosslessScss.Json
