import Allotment.Scalar.Double
import Mathlib.Algebra.Order.Group.Int
import Mathlib.Data.Prod.Lex

/-!
# Comparing numbers

Numbers are comparable when the weak comparison is a total preorder on them and relates nothing to what
is not a number. `Scalar.order` then puts all values in order, those that are not numbers last. Doubles
are comparable: each has a rank, and comparing doubles is comparing ranks.
-/

namespace Allotment

open Float.Model (UnpackedFloat)

namespace Scalar

/-- A number type whose numbers are compared by a total preorder. -/
class Comparable (F : Type) [Scalar F] : Prop where
  le_trans {a b c : F} (hab : le a b = true) (hbc : le b c = true) : le a c = true
  le_total {a b : F} (ha : isNaN a = false) (hb : isNaN b = false) : le a b = true ∨ le b a = true
  isNaN_of_le {a b : F} (h : le a b = true) : isNaN a = false ∧ isNaN b = false
  lt_iff {a b : F} : lt a b = true ↔ le a b = true ∧ le b a = false

variable {F : Type} [Scalar F] [Comparable F]

/-- One value comes no later than another if it is at most the other or the other is not a number. -/
theorem isLE_order_iff {a b : F} : (order a b).isLE = true ↔ le a b = true ∨ isNaN b = true := by
  have hab := Comparable.lt_iff (a := a) (b := b)
  have hba := Comparable.lt_iff (a := b) (b := a)
  have htotal := Comparable.le_total (a := a) (b := b)
  have hnumber := Comparable.isNaN_of_le (a := b) (b := a)
  unfold order
  cases hle : le a b <;> cases hge : le b a <;> simp only [hle, hge, Bool.false_eq_true] at *
  · rw [if_neg (by simp [hab]), if_neg (by simp [hba])]
    cases ha : isNaN a <;> cases hb : isNaN b
    · simp [ha, hb] at htotal
    all_goals decide
  · rw [if_neg (by simp [hab]), if_pos (by simp [hba])]
    simp [hnumber]
  · simp [hab]
  · simp [hab, hba]

/-- Comparing the other way round turns the order about. -/
theorem order_swap (a b : F) : order a b = (order b a).swap := by
  have hab := Comparable.lt_iff (a := a) (b := b)
  have hba := Comparable.lt_iff (a := b) (b := a)
  unfold order
  cases hle : le a b <;> cases hge : le b a <;> simp [hle, hge] at hab hba <;>
    simp [hab, hba, Nat.compare_swap]

instance : Std.TransCmp (order (F := F)) where
  eq_swap := order_swap _ _
  isLE_trans {a b c} hab hbc := by
    rw [isLE_order_iff] at *
    obtain hbc | hc := hbc
    · obtain hab | hb := hab
      · exact .inl (Comparable.le_trans hab hbc)
      · rw [(Comparable.isNaN_of_le hbc).1] at hb
        contradiction
    · exact .inr hc

end Scalar

/-! ## Doubles -/

namespace Double

/-- The rank of a double, if it is a number: by its sign and whether it is finite, then for negative
ones the other way round by exponent and mantissa. -/
def rank : UnpackedFloat → Option (ℤ ×ₗ ℤ ×ₗ ℤ)
  | .notANumber => none
  | .infinity .negative => some (toLex (-2, toLex (0, 0)))
  | .finite .negative m e _ => some (toLex (-1, toLex (-e, -(m : ℤ))))
  | .zero _ => some (toLex (0, toLex (0, 0)))
  | .finite .positive m e _ => some (toLex (1, toLex (e, (m : ℤ))))
  | .infinity .positive => some (toLex (2, toLex (0, 0)))

/-- Negative integers are in the order of their absolute values, turned about. -/
theorem compare_neg_neg (e f : ℤ) : compare (-e) (-f) = (compare e f).swap := by
  rw [← Std.OrientedCmp.eq_swap]
  change compareOfLessAndEq (-e) (-f) = compareOfLessAndEq f e
  simp [compareOfLessAndEq, eq_comm]

/-- Natural numbers are in one order among themselves and among the integers. -/
theorem compare_natCast (m n : ℕ) : compare (m : ℤ) (n : ℤ) = compare m n := by
  change compareOfLessAndEq (m : ℤ) n = compareOfLessAndEq m n
  simp only [compareOfLessAndEq, Int.ofNat_lt, Int.natCast_inj]

/-- Comparing doubles is comparing their ranks. -/
theorem compare_eq (x y : UnpackedFloat) :
    x.compare y = (rank x).bind fun i => (rank y).map fun j => compare i j := by
  cases x with
  | notANumber => cases y <;> rfl
  | infinity s =>
    cases y with
    | notANumber => cases s <;> rfl
    | infinity t => cases s <;> cases t <;> rfl
    | zero t => cases s <;> rfl
    | finite t n f hn => cases s <;> cases t <;> rfl
  | zero s =>
    cases y with
    | notANumber => rfl
    | infinity t => cases t <;> rfl
    | zero t => rfl
    | finite t n f hn => cases t <;> rfl
  | finite s m e hm =>
    cases y with
    | notANumber => cases s <;> rfl
    | infinity t => cases s <;> cases t <;> rfl
    | zero t => cases s <;> rfl
    | finite t n f hn =>
      cases s with
      | negative =>
        cases t with
        | negative =>
          change some ((compare e f).then (compare m n)).swap =
            some ((compare (-e) (-f)).then (compare (-(m : ℤ)) (-n)))
          rw [compare_neg_neg, compare_neg_neg, compare_natCast, Ordering.swap_then]
        | positive => rfl
      | positive =>
        cases t with
        | negative => rfl
        | positive =>
          change some ((compare e f).then (compare m n)) =
            some ((compare e f).then (compare (m : ℤ) n))
          rw [compare_natCast]

/-- One double is at most another if both are numbers and their ranks are in this order. -/
theorem le_iff {a b : Float} : Scalar.le a b = true ↔
    ∃ i ∈ rank a.toModel.unpack, ∃ j ∈ rank b.toModel.unpack, i ≤ j := by
  have hle : Scalar.le a b = true ↔
      (a.toModel.unpack.compare b.toModel.unpack).any (·.isLE) = true :=
    decide_eq_true_iff.trans decide_eq_true_iff
  rw [hle, compare_eq]
  cases rank a.toModel.unpack <;> cases rank b.toModel.unpack <;>
    simp [← Ordering.ne_gt_iff_isLE, compare_gt_iff_gt]

/-- One double is less than another if both are numbers and their ranks are in this order. -/
theorem lt_iff {a b : Float} : Scalar.lt a b = true ↔
    ∃ i ∈ rank a.toModel.unpack, ∃ j ∈ rank b.toModel.unpack, i < j := by
  have hlt : Scalar.lt a b = true ↔
      (a.toModel.unpack.compare b.toModel.unpack == some .lt) = true :=
    decide_eq_true_iff.trans decide_eq_true_iff
  rw [hlt, compare_eq]
  cases rank a.toModel.unpack <;> cases rank b.toModel.unpack <;> simp [compare_lt_iff_lt]

/-- A double is a number if it has a rank. -/
theorem isNaN_eq_false_iff {a : Float} :
    Scalar.isNaN a = false ↔ ∃ i, rank a.toModel.unpack = some i := by
  rw [Scalar.isNaN, Bool.not_eq_false', le_iff]
  constructor
  · rintro ⟨i, hi, _⟩
    exact ⟨i, hi⟩
  · rintro ⟨i, hi⟩
    exact ⟨i, hi, i, hi, le_refl i⟩

instance : Scalar.Comparable Float where
  le_trans {a b c} hab hbc := by
    obtain ⟨i, hi, j, hj, hij⟩ := le_iff.mp hab
    obtain ⟨j', hj', k, hk, hjk⟩ := le_iff.mp hbc
    obtain rfl : j = j' := Option.some.inj (hj.symm.trans hj')
    exact le_iff.mpr ⟨i, hi, k, hk, le_trans hij hjk⟩
  le_total {a b} ha hb := by
    obtain ⟨i, hi⟩ := isNaN_eq_false_iff.mp ha
    obtain ⟨j, hj⟩ := isNaN_eq_false_iff.mp hb
    rw [le_iff, le_iff]
    exact (le_total i j).imp (fun h => ⟨i, hi, j, hj, h⟩) (fun h => ⟨j, hj, i, hi, h⟩)
  isNaN_of_le {a b} h := by
    obtain ⟨i, hi, j, hj, -⟩ := le_iff.mp h
    exact ⟨isNaN_eq_false_iff.mpr ⟨i, hi⟩, isNaN_eq_false_iff.mpr ⟨j, hj⟩⟩
  lt_iff {a b} := by
    rw [Bool.eq_false_iff, ne_eq, le_iff, le_iff, lt_iff]
    constructor
    · rintro ⟨i, hi, j, hj, hij⟩
      refine ⟨⟨i, hi, j, hj, hij.le⟩, ?_⟩
      rintro ⟨j', hj', i', hi', hji⟩
      obtain rfl : i = i' := Option.some.inj (hi.symm.trans hi')
      obtain rfl : j = j' := Option.some.inj (hj.symm.trans hj')
      exact hij.not_ge hji
    · rintro ⟨⟨i, hi, j, hj, _⟩, hnot⟩
      refine ⟨i, hi, j, hj, lt_of_not_ge ?_⟩
      exact fun hji => hnot ⟨j, hj, i, hi, hji⟩

end Double

end Allotment
