import LosslessScss.Json
import LosslessScss.Node

/-!
# JSON forms of trees

A position as an object or, when it is read, as a list; and a node as an object with its
type and its value, which is a text or the list of the children.  `Node.shape` leaves the
places of the nodes out, `Node.located` keeps them.
-/

namespace LosslessScss

namespace Position

/-- A position as an object. -/
def toJson (p : Position) : Json :=
  .ofMembers
    [("cursor", .ofNat p.index), ("line", .ofNat p.line), ("column", .ofNat p.column),
      ("offset", .ofNat p.byte)]

/-- A natural number below `2 ^ 64`. -/
def count? : Json → Option Nat
  | .integer n => if 0 ≤ n ∧ n < Int.pow 2 64 then some n.toNat else none
  | _ => none

/-- The position that an object or a list of four numbers stands for.  Members of the object
that belong to no position are passed over. -/
def ofJson? : Json → Option Position
  | .object members => do
    let count (key : String) : Option Nat := (Json.get? key members).bind count?
    return ⟨← count "cursor", ← count "line", ← count "column", ← count "offset"⟩
  | .array [i, l, c, b] => do return ⟨← count? i, ← count? l, ← count? c, ← count? b⟩
  | _ => none

end Position

/-- The shape of a token: its type and its text. -/
def Token.shape (t : Token) : Json :=
  .ofMembers [("type", .string t.kind.name), ("value", .string t.text)]

/-- A token with its places. -/
def Token.located (t : Token) : Json :=
  .ofMembers
    [("type", .string t.kind.name), ("value", .string t.text), ("start", t.start.toJson),
      ("next", t.stop.toJson)]

namespace Node

mutual

/-- The shape of a node: its type, and its text or the shapes of its children. -/
def shape : Node → Json
  | leaf t => t.shape
  | branch k children _ _ =>
    .ofMembers [("type", .string k.name), ("value", .array (shapes children))]

/-- The shapes of nodes. -/
def shapes : List Node → List Json
  | [] => []
  | n :: ns => n.shape :: shapes ns

end

mutual

/-- A node with its places and those of its descendants. -/
def located : Node → Json
  | leaf t => t.located
  | branch k children p q =>
    .ofMembers
      [("type", .string k.name), ("value", .array (locatedList children)),
        ("start", p.toJson), ("next", q.toJson)]

/-- Nodes with their places. -/
def locatedList : List Node → List Json
  | [] => []
  | n :: ns => n.located :: locatedList ns

end

end Node

end LosslessScss
