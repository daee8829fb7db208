/-!
# Numbers for weights and ratios

Weights, shares of a total and decayed call counts are not machine integers. They are taken from a
number type with rounded arithmetic, so that a program computes in double precision while a theorem
may ask only for the laws of rounding it needs.

The class has operations and no laws. A value that is not comparable with itself plays the part of
"not a number": `Scalar.max` and `Scalar.min` ignore it, and `Scalar.order` puts it last.
-/

namespace Allotment

/-- A number type in which weights, ratios and decayed counts are computed. -/
class Scalar (F : Type) extends Add F, Sub F, Mul F, Div F where
  /-- The number nearest to a machine integer. -/
  ofUInt64 : UInt64 → F
  /-- Truncation toward zero, clamped to the machine integers. -/
  toUInt64 : F → UInt64
  /-- The strict comparison. -/
  lt : F → F → Bool
  /-- The weak comparison, false when a side is not a number. -/
  le : F → F → Bool
  /-- The text by which messages show the number. -/
  text : F → String

namespace Scalar

variable {F : Type} [Scalar F]

/-- Zero. -/
def zero : F := ofUInt64 0

/-- One. -/
def one : F := ofUInt64 1

/-- Two. -/
def two : F := ofUInt64 2

/-- Whether a value is not a number. -/
def isNaN (a : F) : Bool := !le a a

/-- The larger of two numbers; a value that is not a number gives way to the other. -/
def max (a b : F) : F := if isNaN a then b else if lt a b then b else a

/-- The smaller of two numbers; a value that is not a number gives way to the other. -/
def min (a b : F) : F := if isNaN a then b else if lt b a then b else a

/-- The order of two ratios, a value that is not a number after all others. -/
def order (a b : F) : Ordering :=
  if lt a b then .lt
  else if lt b a then .gt
  else if le a b then .eq
  else compare (isNaN a).toNat (isNaN b).toNat

/-- The sum of a list, added from the left. -/
def sum (xs : List F) : F := xs.foldl (· + ·) zero

/-- One squaring step after another, multiplying the result in at each binary digit one. -/
def powFrom (result base : F) (k : Nat) : F :=
  let result := if k % 2 = 1 then result * base else result
  if k / 2 = 0 then result else powFrom result (base * base) (k / 2)
termination_by k
decreasing_by omega

/-- A power with a natural exponent, by repeated squaring. -/
def pow (base : F) (k : Nat) : F := powFrom one base k

end Scalar

end Allotment
