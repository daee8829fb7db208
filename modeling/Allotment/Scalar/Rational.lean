import Allotment.Scalar
import Mathlib.Algebra.Order.Field.Rat
import Mathlib.Algebra.BigOperators.Group.List.Basic
import Mathlib.Tactic.Ring

/-!
# Exact numbers

Rational numbers compute without rounding. What a definition comes to with them is what it is meant to come
to with doubles.
-/

namespace Allotment

/-- Rational numbers are exact, and truncation stays within the machine integers. -/
instance : Scalar ℚ where
  ofUInt64 n := n.toNat
  toUInt64 a := (min a.floor.toNat 0xFFFFFFFFFFFFFFFF).toUInt64
  lt a b := decide (a < b)
  le a b := decide (a ≤ b)
  text := toString

namespace Scalar

@[simp] theorem rat_zero : (zero : ℚ) = 0 := rfl

@[simp] theorem rat_one : (one : ℚ) = 1 := rfl

@[simp] theorem rat_two : (two : ℚ) = 2 := rfl

@[simp] theorem rat_le (a b : ℚ) : le a b = decide (a ≤ b) := rfl

@[simp] theorem rat_lt (a b : ℚ) : lt a b = decide (a < b) := rfl

/-- Adding from the left gives the sum. -/
theorem rat_sum (xs : List ℚ) : sum xs = xs.sum := by
  unfold sum
  rw [List.sum_eq_foldl]
  rfl

/-- Repeated squaring multiplies a power in. -/
theorem rat_powFrom (result base : ℚ) (k : ℕ) : powFrom result base k = result * base ^ k := by
  induction k using Nat.strong_induction_on generalizing result base with
  | _ k ih =>
    have hdigit : (if k % 2 = 1 then result * base else result) = result * base ^ (k % 2) := by
      obtain heven | hodd := Nat.mod_two_eq_zero_or_one k
      · simp [heven]
      · simp [hodd]
    rw [powFrom]
    simp only [hdigit]
    split
    · rw [Nat.mod_eq_of_lt (by omega)]
    · rw [ih (k / 2) (by omega), ← pow_two, ← pow_mul, mul_assoc, ← pow_add, Nat.mod_add_div]

/-- Repeated squaring gives the power. -/
theorem rat_pow (base : ℚ) (k : ℕ) : pow base k = base ^ k := by
  rw [pow, rat_powFrom, rat_one, one_mul]

end Scalar

end Allotment
