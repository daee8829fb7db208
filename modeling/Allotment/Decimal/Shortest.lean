/-!
# Shortest decimals

A binary fraction `m * 2 ^ q` stands for every real that rounds to it. The shortest decimal in that
interval is found on grids of one, two and more significant digits: the first grid that has a point
in the interval gives the digits, and of two such points the nearer one, an even digit on a tie.

All comparisons are between natural numbers, so nothing is rounded on the way.
-/

namespace Allotment

/-- The decimal number `digits * 10 ^ exponent`. -/
structure Decimal where
  digits : Nat
  exponent : Int
  deriving DecidableEq, Repr

namespace Decimal

/-- A positive binary fraction `mantissa * 2 ^ exponent`, and whether the gap to its lower neighbour
is half the gap to its upper one. -/
structure Binary where
  mantissa : Nat
  exponent : Int
  narrowBelow : Bool
  deriving DecidableEq, Repr

/-- The number of decimal digits of a natural number. -/
def width (n : Nat) : Nat := (Nat.toDigits 10 n).length

/-- The position of the decimal point: the least `k` with the value below `10 ^ k`, for values that
are at least `10 ^ (-400)`. -/
def Binary.magnitude (b : Binary) : Int :=
  (width (b.mantissa * Nat.pow 2 b.exponent.toNat * Nat.pow 10 400 / Nat.pow 2 (-b.exponent).toNat) :
    Int) - 400

/-- Whether `n * den` lies in the rounding interval of `mantissa * num`, both scaled by four. -/
def Binary.rounds (b : Binary) (num den n : Nat) : Bool :=
  let low := (4 * b.mantissa - if b.narrowBelow then 1 else 2) * num
  let high := (4 * b.mantissa + 2) * num
  let point := 4 * n * den
  if b.mantissa % 2 = 0 then low ≤ point && point ≤ high else low < point && point < high

/-- The point of the grid with spacing `10 ^ grid` that rounds to the value, nearest first. -/
def Binary.onGrid? (b : Binary) (grid : Int) : Option Nat :=
  let num := Nat.pow 2 b.exponent.toNat * Nat.pow 10 (-grid).toNat
  let den := Nat.pow 2 (-b.exponent).toNat * Nat.pow 10 grid.toNat
  let below := b.mantissa * num / den
  let rest := b.mantissa * num % den
  match b.rounds num den below, b.rounds num den (below + 1) with
  | true, false => some below
  | false, true => some (below + 1)
  | false, false => none
  | true, true =>
    if 2 * rest < den then some below
    else if den < 2 * rest then some (below + 1)
    else if below % 2 = 0 then some below
    else some (below + 1)

/-- The decimal without the zeros at the end of its digits, looking at most `fuel` of them. -/
def stripZeros : Nat → Decimal → Decimal
  | 0, d => d
  | fuel + 1, d =>
    if d.digits % 10 = 0 then stripZeros fuel ⟨d.digits / 10, d.exponent + 1⟩ else d

/-- The shortest decimal that rounds to a positive binary fraction of at most 53 bits. -/
def shortest (b : Binary) : Decimal :=
  let k := b.magnitude
  let found := (List.range 17).findSome? fun n =>
    let grid := k - (n + 1 : Nat)
    (b.onGrid? grid).map fun digits => (⟨digits, grid⟩ : Decimal)
  match found with
  | some d => stripZeros 20 d
  | none => ⟨0, 0⟩

end Decimal

end Allotment
