import LosslessScss.Json.Printer
import Mathlib.Data.List.Basic

/-!
# Layouts of JSON texts

The text of a value on one line and the one over several lines differ only in what stands between a
key and its value, and in the line breaks before the entries of a container and before its closing
bracket.  A `Json.Layout` gives both.  `Json.Layout.text` lays out any value that way, by recursion
on the value, and the printers are the instances `Json.Layout.onOneLine` and `Json.Layout.onLines`
of it (`Json.Layout.toList_compact`, `Json.Layout.toList_prettyAt`).
-/

namespace LosslessScss.Json

/-- How a text is laid out: what separates a key from its value, and what stands before an entry of
a container and before its closing bracket. -/
structure Layout where
  colon : List Char
  lineBreak : Nat → List Char
  blank : ∀ level, ∀ c ∈ lineBreak level, c = '\n' ∨ c = ' '

namespace Layout

/-- On one line. -/
def onOneLine : Layout where
  colon := [':']
  lineBreak _ := []
  blank _ _ mem := (List.not_mem_nil mem).elim

theorem toList_pushn (s : String) (c : Char) (n : Nat) :
  (s.pushn c n).toList = s.toList ++ List.replicate n c
  := by
  induction n with
  | zero => exact (List.append_nil _).symm
  | succ n ih =>
    have step : s.pushn c (n + 1) = (s.pushn c n).push c := rfl
    rw [step, String.toList_push, ih, List.append_assoc, List.replicate_succ']

theorem toList_newline (level : Nat) :
  (newline level).toList = '\n' :: List.replicate (2 * level) ' '
  := toList_pushn "\n" ' ' (2 * level)

/-- Over several lines. -/
def onLines : Layout where
  colon := [':', ' ']
  lineBreak level := (newline level).toList
  blank level c mem := by
    rw [toList_newline] at mem
    obtain rfl | mem := List.mem_cons.mp mem
    · exact .inl rfl
    · exact .inr (List.eq_of_mem_replicate mem)

variable (L : Layout)

/-- The entries of a container behind the first one, and its closing bracket. -/
def behind (level : Nat) (closer : Char) : List (List Char) → List Char
  | [] => L.lineBreak level ++ [closer]
  | e :: es => ',' :: (L.lineBreak (level + 1) ++ e ++ behind level closer es)

/-- The text of a container with the given entries between two brackets. -/
def enclosed (level : Nat) (opener closer : Char) : List (List Char) → List Char
  | [] => [opener, closer]
  | e :: es => opener :: (L.lineBreak (level + 1) ++ e ++ L.behind level closer es)

theorem behind_cons_append (level : Nat) (closer : Char) (e : List Char) (es : List (List Char))
    (r : List Char) :
  L.behind level closer (e :: es) ++ r
    = ',' :: (L.lineBreak (level + 1) ++ (e ++ (L.behind level closer es ++ r)))
  := by
  rw [behind, List.cons_append, List.append_assoc, List.append_assoc]

theorem enclosed_cons_append (level : Nat) (opener closer : Char) (e : List Char)
    (es : List (List Char)) (r : List Char) :
  L.enclosed level opener closer (e :: es) ++ r
    = opener :: (L.lineBreak (level + 1) ++ (e ++ (L.behind level closer es ++ r)))
  := by
  rw [enclosed, List.cons_append, List.append_assoc, List.append_assoc]

mutual

/-- The text of a value at a level of indentation. -/
def text (level : Nat) : Json → List Char
  | .null => "null".toList
  | .bool b => (toString b).toList
  | .integer n => (toString n).toList
  | .decimal x => x.text.toList
  | .string s => (quote s).toList
  | .array vs => L.enclosed level '[' ']' (items (level + 1) vs)
  | .object ms => L.enclosed level '\x7b' '\x7d' (members (level + 1) ms)

/-- The texts of the items of an array. -/
def items (level : Nat) : List Json → List (List Char)
  | [] => []
  | v :: vs => text level v :: items level vs

/-- The texts of the members of an object. -/
def members (level : Nat) : List (String × Json) → List (List Char)
  | [] => []
  | (k, v) :: ms => ((quote k).toList ++ L.colon ++ text level v) :: members level ms

end

/-- The text of a member of an object. -/
def member (level : Nat) (m : String × Json) : List Char :=
  (quote m.1).toList ++ L.colon ++ L.text level m.2

theorem items_eq_map (level : Nat) (vs : List Json) :
  L.items level vs = vs.map (L.text level)
  := by
  induction vs with
  | nil => rfl
  | cons v vs ih => rw [items, ih, List.map_cons]

theorem members_eq_map (level : Nat) (ms : List (String × Json)) :
  L.members level ms = ms.map (L.member level)
  := by
  induction ms with
  | nil => rfl
  | cons m ms ih =>
    rw [members, ih, List.map_cons]
    rfl

/-- Entries with commas between them are laid out so. -/
theorem intercalate_behind (level : Nat) (closer : Char) (e : List Char) (es : List (List Char)) :
  List.intercalate (',' :: L.lineBreak (level + 1)) (e :: es) ++ L.lineBreak level ++ [closer]
    = e ++ L.behind level closer es
  := by
  induction es generalizing e with
  | nil => rw [List.intercalate_singleton, behind, List.append_assoc]
  | cons e' es ih =>
    rw [List.intercalate_cons_cons, List.append_assoc, List.append_assoc (e ++ _),
      ← List.append_assoc (List.intercalate _ _), ih, behind]
    simp

theorem enclosed_onOneLine (level : Nat) (opener closer : Char) (es : List (List Char)) :
  onOneLine.enclosed level opener closer es = opener :: (List.intercalate [','] es ++ [closer])
  := by
  cases es with
  | nil => rfl
  | cons e es =>
    have entries := onOneLine.intercalate_behind level closer e es
    rw [enclosed, List.append_assoc, ← entries]
    simp [onOneLine]

theorem enclosed_onLines (level : Nat) (opener closer : Char) (e : String) (es : List String) :
  onLines.enclosed level opener closer ((e :: es).map String.toList)
    = opener :: ((lines level (e :: es)).toList ++ [closer])
  := by
  have entries := onLines.intercalate_behind level closer e.toList (es.map String.toList)
  rw [List.map_cons, enclosed, List.append_assoc, ← entries, lines, String.toList_append,
    String.toList_append, String.toList_intercalate, List.map_cons]
  simp [onLines]

mutual

/-- The text without white space is laid out on one line. -/
theorem toList_compact (level : Nat) (v : Json) :
  v.compact.toList = onOneLine.text level v
  := by
  cases v with
  | null | bool | integer | decimal | string => rfl
  | array vs =>
    rw [compact, text, String.toList_append, String.toList_append, String.toList_intercalate,
      toList_compactItems (level + 1) vs, enclosed_onOneLine]
    rfl
  | object ms =>
    rw [compact, text, String.toList_append, String.toList_append, String.toList_intercalate,
      toList_compactMembers (level + 1) ms, enclosed_onOneLine]
    rfl

theorem toList_compactItems (level : Nat) (vs : List Json) :
  (compactItems vs).map String.toList = onOneLine.items level vs
  := by
  cases vs with
  | nil => rfl
  | cons v vs =>
    rw [compactItems, items, List.map_cons, toList_compact level v, toList_compactItems level vs]

theorem toList_compactMembers (level : Nat) (ms : List (String × Json)) :
  (compactMembers ms).map String.toList = onOneLine.members level ms
  := by
  cases ms with
  | nil => rfl
  | cons m ms =>
    obtain ⟨k, v⟩ := m
    rw [compactMembers, members, List.map_cons, String.toList_append, String.toList_append,
      toList_compact level v, toList_compactMembers level ms]
    rfl

end

mutual

/-- The text over several lines is laid out so. -/
theorem toList_prettyAt (level : Nat) (v : Json) :
  (v.prettyAt level).toList = onLines.text level v
  := by
  cases v with
  | null | bool | integer | decimal | string => rfl
  | array vs =>
    have entries := toList_prettyItems (level + 1) vs
    cases vs with
    | nil =>
      rw [prettyAt, text]
      rfl
    | cons v vs =>
      rw [prettyAt, text, ← entries, prettyItems, enclosed_onLines, String.toList_append,
        String.toList_append]
      rfl
  | object ms =>
    have entries := toList_prettyMembers (level + 1) ms
    cases ms with
    | nil =>
      rw [prettyAt, text]
      rfl
    | cons m ms =>
      rw [prettyAt, text, ← entries, prettyMembers, enclosed_onLines, String.toList_append,
        String.toList_append]
      rfl

theorem toList_prettyItems (level : Nat) (vs : List Json) :
  (prettyItems level vs).map String.toList = onLines.items level vs
  := by
  cases vs with
  | nil => rfl
  | cons v vs =>
    rw [prettyItems, items, List.map_cons, toList_prettyAt level v, toList_prettyItems level vs]

theorem toList_prettyMembers (level : Nat) (ms : List (String × Json)) :
  (prettyMembers level ms).map String.toList = onLines.members level ms
  := by
  cases ms with
  | nil => rfl
  | cons m ms =>
    obtain ⟨k, v⟩ := m
    rw [prettyMembers, members, List.map_cons, String.toList_append, String.toList_append,
      toList_prettyAt level v, toList_prettyMembers level ms]
    rfl

end

end Layout

end LosslessScss.Json
