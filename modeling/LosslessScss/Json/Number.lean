import LosslessScss.Json

/-!
# Numbers in JSON texts

An integer is written in decimal.  Every other number is read as a member of `Binary64`
and written as the shortest decimal to which that member is nearest: positional from
`10 ^ (-5)` up to but not including `10 ^ 16`, always with a point, and in scientific
notation elsewhere, with a sign before the exponent.
-/

namespace LosslessScss

/-- The text of an exponent: its sign and its digits. -/
def Decimal.exponentText (e : Int) : String := if 0 ≤ e then "+" ++ toString e else toString e

/-- The text of a decimal. -/
def Decimal.text (x : Decimal) : String :=
  let digits := toString x.digits
  let point := (digits.length : Int) + x.exponent
  let magnitude :=
    if 0 ≤ x.exponent ∧ point ≤ 16 then
      digits ++ "".pushn '0' x.exponent.toNat ++ ".0"
    else if 0 < point ∧ point ≤ 16 then
      String.ofList (digits.toList.take point.toNat) ++ "."
        ++ String.ofList (digits.toList.drop point.toNat)
    else if -5 < point ∧ point ≤ 0 then
      "0." ++ "".pushn '0' (-point).toNat ++ digits
    else if digits.length = 1 then
      digits ++ "e" ++ exponentText (point - 1)
    else
      String.ofList (digits.toList.take 1) ++ "." ++ String.ofList (digits.toList.drop 1)
        ++ "e" ++ exponentText (point - 1)
  if x.negative then "-" ++ magnitude else magnitude

/-- Digits read so far: the number `value * 10 ^ exponent`, where `full` says that a digit
did not fit into 64 bits any more. -/
structure Significand where
  value : Nat
  exponent : Int
  full : Bool
  deriving DecidableEq, Repr

namespace Significand

/-- One more digit before the point.  A digit that does not fit counts as a zero. -/
def pushWhole (s : Significand) (c : Char) : Significand :=
  let value := 10 * s.value + (c.toNat - '0'.toNat)
  if s.full ∨ Nat.pow 2 64 ≤ value then { s with exponent := s.exponent + 1, full := true }
  else { s with value }

/-- One more digit after the point.  A digit that does not fit is left out. -/
def pushFraction (s : Significand) (c : Char) : Significand :=
  let value := 10 * s.value + (c.toNat - '0'.toNat)
  if s.full ∨ Nat.pow 2 64 ≤ value then { s with full := true }
  else { s with value, exponent := s.exponent - 1 }

/-- The member of `Binary64` that a significand is read as: its value and a power of ten
are both rounded before they are multiplied or divided, and powers beyond `10 ^ 308` are
taken in two steps. -/
def toBinary64? (s : Significand) : Option Binary64 :=
  let ten (n : Nat) := Binary64.nearest (Nat.pow 10 n) 1
  let value := Binary64.nearest s.value 1
  if s.value = 0 ∨ s.exponent < -616 then some (Binary64.nearest 0 1)
  else if 308 < s.exponent then none
  else if 0 ≤ s.exponent then
    let product := value.mul (ten s.exponent.toNat)
    if product.isFinite then some product else none
  else if -308 ≤ s.exponent then some (value.div (ten (-s.exponent).toNat))
  else some ((value.div (ten 308)).div (ten (-s.exponent - 308).toNat))

end Significand

namespace Json

/-- Whether a character may occur in a number. -/
def inNumber (c : Char) : Bool :=
  c.isDigit || c == '-' || c == '+' || c == '.' || c == 'e' || c == 'E'

/-- The decimal of a sign and a significand. -/
def decimal? (negative : Bool) (s : Significand) : Option Json :=
  s.toBinary64?.map fun b => .decimal ⟨negative, b.shortest.1, b.shortest.2⟩

/-- The number that is left after the digits before the point, as an integer if these are
all and fit into 64 bits with their sign. -/
def wholeNumber? (negative : Bool) (s : Significand) : Option Json :=
  if s.full then decimal? negative s
  else if !negative then some (.integer s.value)
  else if 0 < s.value ∧ s.value ≤ Nat.pow 2 63 then some (.integer (-s.value))
  else decimal? negative s

/-- The power of ten that a text after the letter `e` stands for. -/
def exponent? (s : List Char) : Option Int :=
  let natural? (s : List Char) : Option Nat :=
    if s.isEmpty || !s.all Char.isDigit then none
    else some (s.foldl (fun n c => 10 * n + (c.toNat - '0'.toNat)) 0)
  match s with
  | '-' :: s => (natural? s).map fun n => -(n : Int)
  | '+' :: s => (natural? s).map fun n => (n : Int)
  | s => (natural? s).map fun n => (n : Int)

/-- The number of a sign, the digits before the point and the text after these. -/
def magnitude? (negative : Bool) (whole rest : List Char) : Option Json :=
  if whole.isEmpty || (whole.head? == some '0' && whole.length != 1) then none
  else
    let s := whole.foldl Significand.pushWhole ⟨0, 0, false⟩
    let scaled (s : Significand) (rest : List Char) : Option Json :=
      match rest with
      | [] => decimal? negative s
      | e :: rest =>
        if e = 'e' ∨ e = 'E' then do
          let exponent ← exponent? rest
          decimal? negative { s with exponent := s.exponent + exponent }
        else none
    match rest with
    | [] => wholeNumber? negative s
    | '.' :: rest =>
      let fraction := rest.takeWhile Char.isDigit
      if fraction.isEmpty then none
      else
        scaled (fraction.foldl Significand.pushFraction { s with full := false })
          (rest.dropWhile Char.isDigit)
    | rest => scaled s rest

/-- The number that a text stands for. -/
def number? : List Char → Option Json
  | '-' :: s => magnitude? true (s.takeWhile Char.isDigit) (s.dropWhile Char.isDigit)
  | s => magnitude? false (s.takeWhile Char.isDigit) (s.dropWhile Char.isDigit)

end Json

end LosslessScss
