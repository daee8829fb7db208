import Allotment.Decimal.Shortest

/-!
# Decimals in messages

A message shows a decimal without an exponent, and a whole number without a point.
-/

namespace Allotment.Decimal

/-- A run of zeros. -/
def zeros (n : Nat) : String := String.ofList (List.replicate n '0')

/-- The digits with a point after the first `n` of them. -/
def pointAfter (digits : String) (n : Nat) : String :=
  String.ofList (digits.toList.take n) ++ "." ++ String.ofList (digits.toList.drop n)

/-- Digits without an exponent: `120`, `1.5`, `0.001`. -/
def plain (d : Decimal) : String :=
  let digits := toString d.digits
  let point := (width d.digits : Int) + d.exponent
  if 0 ≤ d.exponent then digits ++ zeros d.exponent.toNat
  else if 0 < point then pointAfter digits point.toNat
  else "0." ++ zeros (-point).toNat ++ digits

end Allotment.Decimal
