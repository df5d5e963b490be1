/-!
# Binary floating-point numbers

A `Binary64` is a non-negative number `mantissa * 2 ^ exponent` of the binary format with
53 bits of precision whose least positive member is `2 ^ (-1074)`.  `Binary64.nearest` is
the member nearest to a ratio, and `Binary64.shortest` the decimal with the fewest digits
to which that member is nearest.  All computations are exact.
-/

namespace LosslessScss

/-- The number `mantissa * 2 ^ exponent`. -/
structure Binary64 where
  mantissa : Nat
  exponent : Int
  deriving DecidableEq, Repr

namespace Binary64

/-- The ratio `base ^ power` as a numerator and a denominator. -/
def power (base : Nat) (power : Int) : Nat × Nat :=
  if 0 ≤ power then (base.pow power.toNat, 1) else (1, base.pow (-power).toNat)

/-- The integer nearest to `num / den`, the even one of two. -/
def round (num den : Nat) : Nat :=
  let quotient := num / den
  let twice := 2 * (num % den)
  if twice < den ∨ (twice = den ∧ quotient % 2 = 0) then quotient else quotient + 1

/-- The number nearest to `num / den`, the one with the even mantissa of two. -/
def nearest (num den : Nat) : Binary64 :=
  let magnitude : Int := num.log2 - den.log2
  let (n, d) := power 2 magnitude
  let top := if den * n ≤ num * d then magnitude else magnitude - 1
  let exponent := max (top - 52) (-1074)
  let (n, d) := power 2 exponent
  let mantissa := round (num * d) (den * n)
  if mantissa = Nat.pow 2 53 then ⟨Nat.pow 2 52, exponent + 1⟩ else ⟨mantissa, exponent⟩

/-- Whether a number is one of the format, which ends below `2 ^ 1024`. -/
def isFinite (b : Binary64) : Bool := b.exponent ≤ 971

/-- A number as a numerator and a denominator. -/
def ratio (b : Binary64) : Nat × Nat :=
  let (n, d) := power 2 b.exponent
  (b.mantissa * n, d)

/-- The product of two numbers, rounded. -/
def mul (a b : Binary64) : Binary64 :=
  nearest (a.ratio.1 * b.ratio.1) (a.ratio.2 * b.ratio.2)

/-- The quotient of two numbers, rounded. -/
def div (a b : Binary64) : Binary64 :=
  nearest (a.ratio.1 * b.ratio.2) (a.ratio.2 * b.ratio.1)

/-- The multiple of `10 ^ place` nearest to a number, if the number is also nearest to that
multiple.  Lengths are counted in quarters of the last bit of the mantissa. -/
def multiple? (b : Binary64) (place : Int) : Option (Nat × Int) :=
  let value := 4 * b.mantissa
  let low := if b.mantissa = Nat.pow 2 52 ∧ -1074 < b.exponent then value - 1 else value - 2
  let high := value + 2
  let (twos, halves) := power 2 (b.exponent - 2)
  let (tens, tenths) := power 10 place
  let p := twos * tenths
  let q := halves * tens
  let inside (c : Nat) : Bool :=
    if b.mantissa % 2 = 0 then low * p ≤ c * q && c * q ≤ high * p
    else low * p < c * q && c * q < high * p
  let closest := round (value * p) q
  let other := if closest * q ≤ value * p then closest + 1 else closest - 1
  if inside closest then some (closest, place)
  else if inside other then some (other, place)
  else none

/-- The digits and the power of ten of the shortest decimal to which a number is nearest.
It lies on the coarsest decimal grid that has such a decimal. -/
def shortest (b : Binary64) : Nat × Int :=
  if b.mantissa = 0 then (0, 0)
  else ((List.range 640).findSome? fun (i : Nat) => b.multiple? (309 - i)).getD (0, 0)

end Binary64

end LosslessScss
