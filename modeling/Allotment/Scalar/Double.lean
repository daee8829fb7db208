import Allotment.Scalar
import Allotment.Decimal.Plain

/-!
# Double precision

The number type that programs run with. A finite double other than zero is a binary fraction, read
off its bits, and its text is the shortest decimal that reads back as the same double.
-/

namespace Allotment

/-- What a double is: not a number, an infinity, a zero or a binary fraction, the last three with a
sign that is true for negative values. -/
inductive Double.Form where
  | nan
  | infinite (negative : Bool)
  | zero (negative : Bool)
  | fraction (negative : Bool) (value : Decimal.Binary)
  deriving DecidableEq, Repr

namespace Double

/-- The weight of the bit that stands in front of the fraction bits without being stored. -/
def hiddenBit : Nat := 0x10000000000000

/-- The parts of a double, from its sign bit, eleven exponent bits and 52 fraction bits. -/
def form (x : Float) : Form :=
  let bits := x.toBits.toNat
  let negative := decide (0x8000000000000000 ≤ bits)
  let exponent := bits / hiddenBit % 0x800
  let fraction := bits % hiddenBit
  if exponent = 2047 then
    if fraction = 0 then .infinite negative else .nan
  else if exponent = 0 then
    if fraction = 0 then .zero negative
    else .fraction negative ⟨fraction, -1074, false⟩
  else .fraction negative ⟨fraction + hiddenBit, Int.ofNat exponent - 1075, fraction = 0 && 1 < exponent⟩

/-- A text with a sign in front when the value is negative. -/
def signed (negative : Bool) (text : String) : String := if negative then "-" ++ text else text

/-- The plain text of a double: `1`, `0.5`, `-0`, `inf`, `NaN`. -/
def plainText (x : Float) : String :=
  match form x with
  | .nan => "NaN"
  | .infinite negative => signed negative "inf"
  | .zero negative => signed negative "0"
  | .fraction negative value => signed negative (Decimal.shortest value).plain

end Double

/-- Doubles round to nearest, and truncation sends what is not a number to zero. -/
instance : Scalar Float where
  ofUInt64 := UInt64.toFloat
  toUInt64 := Float.toUInt64
  lt a b := decide (a < b)
  le a b := decide (a ≤ b)
  text := Double.plainText

end Allotment
