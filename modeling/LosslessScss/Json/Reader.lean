import LosslessScss.Json.Number
import LosslessScss.Text.Quoted

/-!
# Reading JSON texts

`Json.ofString? limit s` is the value that a text stands for, if it is a JSON text in which
at most `limit` arrays and objects are nested.  The text is cut into lexemes first; then
one pass over the lexemes keeps the containers that are still open.
-/

namespace LosslessScss.Json

/-! ### Strings -/

/-- The value of a hexadecimal digit. -/
def hexValue? (c : Char) : Option Nat :=
  if c.isDigit then some (c.toNat - '0'.toNat)
  else if 'a' ≤ c ∧ c ≤ 'f' then some (10 + (c.toNat - 'a'.toNat))
  else if 'A' ≤ c ∧ c ≤ 'F' then some (10 + (c.toNat - 'A'.toNat))
  else none

/-- The value of four hexadecimal digits. -/
def hexValues? (a b c d : Char) : Option Nat := do
  return 0x1000 * (← hexValue? a) + 0x100 * (← hexValue? b) + 0x10 * (← hexValue? c)
    + (← hexValue? d)

/-- The character that a backslash and a letter stand for. -/
def escaped? (c : Char) : Option Char :=
  match c with
  | '"' => some '"'
  | '\\' => some '\\'
  | '/' => some '/'
  | 'b' => some '\x08'
  | 'f' => some '\x0c'
  | 'n' => some '\n'
  | 'r' => some '\r'
  | 't' => some '\t'
  | _ => none

/-- The characters that the text between two quotes stands for.  A pair of escaped
surrogates stands for one character, and none of them may stand alone. -/
def unescape? : List Char → Option (List Char)
  | [] => some []
  | c :: s =>
    if c = '\\' then
      match s with
      | 'u' :: a :: b :: c :: d :: s =>
        match hexValues? a b c d with
        | none => none
        | some high =>
          if 0xD800 ≤ high ∧ high < 0xDC00 then
            match s with
            | '\\' :: 'u' :: a :: b :: c :: d :: s =>
              match hexValues? a b c d with
              | none => none
              | some low =>
                if 0xDC00 ≤ low ∧ low < 0xE000 then
                  let code := 0x10000 + 0x400 * (high - 0xD800) + (low - 0xDC00)
                  (unescape? s).map (Char.ofNat code :: ·)
                else none
            | _ => none
          else if 0xDC00 ≤ high ∧ high < 0xE000 then none
          else (unescape? s).map (Char.ofNat high :: ·)
      | c :: s =>
        match escaped? c with
        | none => none
        | some c => (unescape? s).map (c :: ·)
      | [] => none
    else if c.toNat < 0x20 then none
    else (unescape? s).map (c :: ·)

/-! ### Lexemes -/

/-- A piece of a JSON text: a bracket, comma or colon, or a value that is no container. -/
inductive Lexeme where
  | mark (c : Char)
  | scalar (v : Json)

/-- The value of a word. -/
def word? (s : List Char) : Option Json :=
  if s = ['n', 'u', 'l', 'l'] then some .null
  else if s = ['t', 'r', 'u', 'e'] then some (.bool true)
  else if s = ['f', 'a', 'l', 's', 'e'] then some (.bool false)
  else none

/-- The lexeme at the beginning of the text `c :: s`, none if `c` is white space, and the
text after it. -/
def lexeme? (c : Char) (s : List Char) : Option (Option Lexeme × List Char) :=
  if c = ' ' ∨ c = '\t' ∨ c = '\n' ∨ c = '\r' then some (none, s)
  else if ['[', ']', '{', '}', ',', ':'].contains c then some (some (.mark c), s)
  else if c = '"' then do
    let (body, rest) ← Text.splitQuoted '"' s
    let text ← unescape? body
    return (some (.scalar (.string (String.ofList text))), rest)
  else if c.isDigit ∨ c = '-' then do
    let v ← number? (c :: s.takeWhile inNumber)
    return (some (.scalar v), s.dropWhile inNumber)
  else do
    let v ← word? (c :: s.takeWhile Char.isAlpha)
    return (some (.scalar v), s.dropWhile Char.isAlpha)

theorem length_rest_le_of_lexeme? {c : Char} {s rest : List Char} {x : Option Lexeme}
    (h : lexeme? c s = some (x, rest)) :
  rest.length ≤ s.length
  := by
  unfold lexeme? at h
  repeat' split at h
  · cases h
    exact Nat.le_refl _
  · cases h
    exact Nat.le_refl _
  · obtain ⟨⟨body, after⟩, found, h⟩ := Option.bind_eq_some_iff.mp h
    obtain ⟨text, _, h⟩ := Option.bind_eq_some_iff.mp h
    cases h
    rw [Text.splitQuoted_append found, List.length_append, List.length_cons]
    omega
  · obtain ⟨v, _, h⟩ := Option.bind_eq_some_iff.mp h
    cases h
    exact (List.dropWhile_suffix _).length_le
  · obtain ⟨v, _, h⟩ := Option.bind_eq_some_iff.mp h
    cases h
    exact (List.dropWhile_suffix _).length_le

/-- The lexemes of a text, in order. -/
def lexemes? : List Char → Option (List Lexeme)
  | [] => some []
  | c :: s =>
    match _h : lexeme? c s with
    | none => none
    | some (none, rest) => lexemes? rest
    | some (some x, rest) => (lexemes? rest).map (x :: ·)
termination_by s => s.length
decreasing_by
  all_goals
    have := length_rest_le_of_lexeme? _h
    simp only [List.length_cons]
    omega

theorem lexemes?_cons (c : Char) (s : List Char) :
  lexemes? (c :: s) = match lexeme? c s with
    | none => none
    | some (none, rest) => lexemes? rest
    | some (some x, rest) => (lexemes? rest).map (x :: ·)
  := by
  rw [lexemes?]
  split
  all_goals
    next found => rw [found]

/-! ### Values -/

/-- A container that is not closed yet: the items of an array, the last one first; or the
members of an object, and the key whose value is to come. -/
inductive Unfinished where
  | array (items : List Json)
  | object (members : List (String × Json)) (key : String)

/-- What may come next, inside of the containers `outer`, the innermost one first: a value;
an item of a new array, or its end; a key, or the end of the object if that is new; a
colon; or what follows the value `v`. -/
inductive Progress where
  | value (outer : List Unfinished)
  | item (outer : List Unfinished)
  | key (outer : List Unfinished) (members : List (String × Json)) (new : Bool)
  | colon (outer : List Unfinished) (members : List (String × Json)) (key : String)
  | complete (outer : List Unfinished) (v : Json)

/-- The progress after the first lexeme of a value. -/
def beginValue? (limit : Nat) (outer : List Unfinished) : Lexeme → Option Progress
  | .scalar v => some (.complete outer v)
  | .mark '[' => if outer.length < limit then some (.item outer) else none
  | .mark '{' => if outer.length < limit then some (.key outer [] true) else none
  | .mark _ => none

/-- The progress after one more lexeme. -/
def advance? (limit : Nat) : Progress → Lexeme → Option Progress
  | .value outer, x => beginValue? limit outer x
  | .item outer, .mark ']' => some (.complete outer (.array []))
  | .item outer, x => beginValue? limit (.array [] :: outer) x
  | .key outer members true, .mark '}' => some (.complete outer (.object members))
  | .key outer members _, .scalar (.string key) => some (.colon outer members key)
  | .colon outer members key, .mark ':' => some (.value (.object members key :: outer))
  | .complete (.array items :: outer) v, .mark ',' => some (.value (.array (v :: items) :: outer))
  | .complete (.array items :: outer) v, .mark ']' =>
    some (.complete outer (.array (v :: items).reverse))
  | .complete (.object members key :: outer) v, .mark ',' =>
    some (.key outer (put key v members) false)
  | .complete (.object members key :: outer) v, .mark '}' =>
    some (.complete outer (.object (put key v members)))
  | _, _ => none

/-- The value of a text in which at most `limit` arrays and objects are nested. -/
def ofString? (limit : Nat) (s : String) : Option Json := do
  let xs ← lexemes? s.toList
  match ← xs.foldlM (advance? limit) (.value []) with
  | .complete [] v => some v
  | _ => none

end LosslessScss.Json
