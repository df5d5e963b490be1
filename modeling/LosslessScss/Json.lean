import LosslessScss.Binary64

/-!
# JSON values

The values of the data format JSON.  The members of an object are kept in ascending order
of their keys, each key once: `Json.put` replaces the member of a key or adds one.  A
number is an integer or a decimal.
-/

namespace LosslessScss

/-- The number `digits * 10 ^ exponent` or its negative. -/
structure Decimal where
  negative : Bool
  digits : Nat
  exponent : Int
  deriving DecidableEq, Repr

/-- A JSON value. -/
inductive Json where
  | null
  | bool (value : Bool)
  | integer (value : Int)
  | decimal (value : Decimal)
  | string (value : String)
  | array (items : List Json)
  | object (members : List (String × Json))

namespace Json

instance : Inhabited Json := ⟨null⟩

/-- The members of an object after the member with the given key has been set. -/
def put (key : String) (value : Json) : List (String × Json) → List (String × Json)
  | [] => [(key, value)]
  | (k, v) :: members =>
    if key < k then (key, value) :: (k, v) :: members
    else if key = k then (key, value) :: members
    else (k, v) :: put key value members

/-- The object with the given members, the last one of each key. -/
def ofMembers (members : List (String × Json)) : Json :=
  .object (members.foldl (fun sorted (key, value) => put key value sorted) [])

/-- The member of an object with a given key. -/
def get? (key : String) (members : List (String × Json)) : Option Json :=
  (members.find? (·.1 = key)).map (·.2)

/-- A natural number as a value. -/
def ofNat (n : Nat) : Json := .integer n

end Json

end LosslessScss
