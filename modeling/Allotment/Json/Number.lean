import Allotment.Scalar.Double

/-!
# Numbers in documents

A number in a document is kept as it is written: a sign, a whole part, digits after the point and an
exponent. Whether it may stand for a machine integer is decided by how it is written; `1.0` may not.

A double is read from the first digits that fit into a machine integer and one multiplication or
division by a power of ten, and written with the fewest digits that round to it.
-/

namespace Allotment.Json

/-- A number as it is written. -/
structure Number where
  negative : Bool
  whole : Nat
  fraction : List (Fin 10)
  exponent : Option Int
  deriving DecidableEq, Repr

namespace Number

/-- The number of a natural number. -/
def ofNat (n : Nat) : Number := ⟨false, n, [], none⟩

/-- The largest machine integer. -/
def machineLimit : Nat := 0xFFFFFFFFFFFFFFFF

/-- The machine integer for which a number stands: written without sign, point and exponent, and in
range. -/
def toNat? (n : Number) : Option Nat :=
  if n.negative = false ∧ n.fraction = [] ∧ n.exponent = none ∧ n.whole ≤ machineLimit then
    some n.whole
  else none

/-! ## Reading -/

/-- The digit that a character stands for. -/
def digit? (c : Char) : Option (Fin 10) :=
  if '0' ≤ c ∧ c ≤ '9' then some (Fin.ofNat 10 (c.toNat - '0'.toNat)) else none

/-- The digits at the front of a text, and the rest of it. -/
def digits : List Char → List (Fin 10) × List Char
  | [] => ([], [])
  | c :: rest =>
    match digit? c with
    | some d => (d :: (digits rest).1, (digits rest).2)
    | none => ([], c :: rest)

/-- The natural number of some digits. -/
def natOf (ds : List (Fin 10)) : Nat := ds.foldl (fun (n : Nat) (d : Fin 10) => n * 10 + d) 0

/-- The exponent at the end of a number: nothing, or a letter, perhaps a sign, and digits. -/
def exponent? : List Char → Option (Option Int)
  | [] => some none
  | c :: rest =>
    if c = 'e' ∨ c = 'E' then
      let (negative, rest) := match rest with
        | '-' :: r => (true, r)
        | '+' :: r => (false, r)
        | r => (false, r)
      match digits rest with
      | ([], _) => none
      | (ds, []) => some (some (if negative then -(natOf ds : Int) else natOf ds))
      | (_, _ :: _) => none
    else none

/-- The number that is written by exactly these characters. -/
def ofChars? (cs : List Char) : Option Number :=
  let (negative, cs) := match cs with
    | '-' :: r => (true, r)
    | r => (false, r)
  let (whole, cs) := digits cs
  if whole = [] ∨ (whole.head? = some 0 ∧ 1 < whole.length) then none
  else match cs with
    | '.' :: rest =>
      let (fraction, rest) := digits rest
      if fraction = [] then none
      else (exponent? rest).map fun e => ⟨negative, natOf whole, fraction, e⟩
    | rest => (exponent? rest).map fun e => ⟨negative, natOf whole, [], e⟩

/-! ## Writing -/

/-- The characters of some digits. -/
def charsOf (ds : List (Fin 10)) : List Char := ds.map fun (d : Fin 10) => Char.ofNat ('0'.toNat + d.val)

/-- The characters of a number. -/
def render (n : Number) : List Char :=
  (if n.negative then ['-'] else []) ++ Nat.toDigits 10 n.whole ++
    (if n.fraction = [] then [] else '.' :: charsOf n.fraction) ++
    match n.exponent with
    | none => []
    | some e => 'e' :: (if e < 0 then '-' else '+') :: Nat.toDigits 10 e.natAbs

/-! ## Doubles -/

/-- The longest front part of a natural number's digits that is a machine integer, and how many
digits follow it. -/
def frontDigits (n : Nat) : Nat × Nat :=
  if n ≤ machineLimit then (n, 0)
  else ((frontDigits (n / 10)).1, (frontDigits (n / 10)).2 + 1)
termination_by n
decreasing_by all_goals (simp [machineLimit] at *; omega)

/-- Digits after the point, appended as long as the result is a machine integer, and how many were
appended. -/
def appendDigits (n : Nat) : List (Fin 10) → Nat × Nat
  | [] => (n, 0)
  | d :: ds =>
    if n * 10 + d ≤ machineLimit then
      let (m, k) := appendDigits (n * 10 + d) ds
      (m, k + 1)
    else (n, 0)

/-- A power of ten, rounded to a double. -/
def powerOfTen (k : Nat) : Float := Float.ofScientific 1 false k

/-- A double times a power of ten, or nothing if it is too large. -/
def scaled? (x : Float) (e : Int) : Option Float :=
  if e.natAbs ≤ 308 then
    if 0 ≤ e then
      let y := x * powerOfTen e.natAbs
      if y.isInf then none else some y
    else some (x / powerOfTen e.natAbs)
  else if x == 0.0 then some x
  else if 0 < e then none
  else scaled? (x / powerOfTen 308) (e + 308)
termination_by e.natAbs
decreasing_by omega

/-- The largest exponent that is read; a larger one stands for an infinity or for zero. -/
def exponentLimit : Nat := 0x7FFFFFFF

/-- The double that a number stands for, unless it is too large. -/
def toFloat? (n : Number) : Option Float :=
  let (front, skipped) := frontDigits n.whole
  let (significand, appended) := appendDigits front n.fraction
  let e := n.exponent.getD 0
  let magnitude :=
    if exponentLimit < e.natAbs then
      if significand ≠ 0 ∧ 0 < e then none else some 0.0
    else scaled? significand.toUInt64.toFloat ((skipped : Int) - appended + e)
  magnitude.map fun x => if n.negative then -x else x

/-- The last `k` digits of a natural number. -/
def lastDigits : Nat → Nat → List (Fin 10)
  | 0, _ => []
  | k + 1, n => lastDigits k (n / 10) ++ [Fin.ofNat 10 n]

/-- A decimal with a point and, where it is at least `10 ^ 16` or below `10 ^ (-5)`, an exponent. -/
def ofDecimal (negative : Bool) (d : Decimal) : Number :=
  let width := Decimal.width d.digits
  let point := (width : Int) + d.exponent
  if -5 < point ∧ point ≤ 16 then
    if 0 ≤ d.exponent then ⟨negative, d.digits * Nat.pow 10 d.exponent.toNat, [0], none⟩
    else
      let places := (-d.exponent).toNat
      ⟨negative, d.digits / Nat.pow 10 places, lastDigits places d.digits, none⟩
  else
    let places := width - 1
    ⟨negative, d.digits / Nat.pow 10 places, lastDigits places d.digits, some (point - 1)⟩

/-- The number written for a finite double. -/
def ofFloat? (x : Float) : Option Number :=
  match Double.form x with
  | .nan | .infinite _ => none
  | .zero negative => some ⟨negative, 0, [0], none⟩
  | .fraction negative value => some (ofDecimal negative (Decimal.shortest value))

end Number

end Allotment.Json
