import Allotment.Proofs.Double.Arithmetic
import Mathlib.Algebra.BigOperators.Group.List.Basic
import Mathlib.Data.List.Induction

/-!
# Sums of doubles

Doubles that are not negative are added from the left, and every partial sum is rounded. The sum is
exact for natural numbers as long as it has 53 digits. In general it is no smaller than the sum of
multiples of a power of two below the summands, and it stays below the sum of natural numbers above
them.
-/

namespace Allotment.Double

/-- Below a natural number of 53 digits a double leaves a gap. -/
theorem IsDouble.le_mul_of_lt {x : ℚ} (hx : IsDouble x) {n : ℕ} (h : x < n) (hn : n ≤ 2 ^ 53) :
    x ≤ n * (1 - 2 ^ (-53 : ℤ)) := by
  have hgap : (n : ℚ) * 2 ^ (-53 : ℤ) ≤ 1 := by
    have hn : (n : ℚ) ≤ 2 ^ 53 := by exact_mod_cast hn
    rw [zpow_neg, ← div_eq_mul_inv, div_le_one (two_zpow_pos _)]
    exact_mod_cast hn
  obtain ⟨m, e, hm, -, rfl⟩ := hx.exists_lt
  obtain he | he := le_or_gt 0 e
  · obtain ⟨k, rfl⟩ := Int.eq_ofNat_of_zero_le he
    have hint : m * 2 ^ k + 1 ≤ (n : ℤ) := by
      have hlt : m * 2 ^ k < (n : ℤ) := by exact_mod_cast h
      omega
    have hcast : (m : ℚ) * 2 ^ (k : ℤ) + 1 ≤ n := by exact_mod_cast hint
    linarith
  · have hpos := two_zpow_pos e
    have hscale : (2 : ℚ) ^ (53 : ℤ) * 2 ^ (-53 : ℤ) = 1 := two_pow_mul_two_zpow_neg 53
    obtain hlarge | hsmall := le_or_gt ((n : ℚ)) (2 ^ (53 : ℤ) * 2 ^ e)
    · -- the number is a multiple of the unit in the last place, and above the double by one at least
      obtain ⟨k, hk⟩ := exists_two_zpow he.le
      have hint : m + 1 ≤ n * k := by
        have hlt : (m : ℚ) * 2 ^ e < ((n * k : ℤ) : ℚ) * 2 ^ e := by
          push_cast
          rw [mul_assoc, ← hk, zpow_zero, mul_one]
          exact h
        exact_mod_cast (mul_lt_mul_iff_left₀ hpos).mp hlt
      have hstep : ((m + 1 : ℤ) : ℚ) * 2 ^ e ≤ n := by
        calc ((m + 1 : ℤ) : ℚ) * 2 ^ e
          _ ≤ ((n * k : ℤ) : ℚ) * 2 ^ e := mul_le_mul_of_nonneg_right (by exact_mod_cast hint) hpos.le
          _ = n := by push_cast; rw [mul_assoc, ← hk, zpow_zero, mul_one]
      have hulp : (n : ℚ) * 2 ^ (-53 : ℤ) ≤ 2 ^ e := by
        calc (n : ℚ) * 2 ^ (-53 : ℤ)
          _ ≤ 2 ^ (53 : ℤ) * 2 ^ e * 2 ^ (-53 : ℤ) :=
            mul_le_mul_of_nonneg_right hlarge (two_zpow_pos _).le
          _ = 2 ^ e := by rw [mul_right_comm, hscale, one_mul]
      push_cast at hstep
      linarith
    · -- the mantissa is below its largest value
      have hmantissa : (m : ℚ) ≤ 2 ^ (53 : ℤ) * (1 - 2 ^ (-53 : ℤ)) := by
        have hint : m ≤ 2 ^ 53 - 1 := by have := (abs_lt.mp hm).2; omega
        rw [mul_sub, hscale, mul_one]
        exact_mod_cast hint
      have hfactor : (0 : ℚ) ≤ 1 - 2 ^ (-53 : ℤ) := by norm_num
      calc (m : ℚ) * 2 ^ e
        _ ≤ 2 ^ (53 : ℤ) * (1 - 2 ^ (-53 : ℤ)) * 2 ^ e := mul_le_mul_of_nonneg_right hmantissa hpos.le
        _ = 2 ^ (53 : ℤ) * 2 ^ e * (1 - 2 ^ (-53 : ℤ)) := by ring
        _ ≤ n * (1 - 2 ^ (-53 : ℤ)) := mul_le_mul_of_nonneg_right hsmall.le hfactor

/-- Rounding does not close the gap below a natural number. -/
theorem nearest_lt_of_le_mul {x : ℚ} {n : ℕ} (hn : 0 < n) (h : x ≤ n * (1 - 2 ^ (-53 : ℤ))) :
    nearest x < n := by
  have hone : (1 : ℚ) ≤ n := by exact_mod_cast hn
  obtain hsmall | hlarge := le_or_gt x (2 ^ (-1 : ℤ))
  · calc nearest x
      _ ≤ 2 ^ (-1 : ℤ) := (isDouble_two_zpow (by norm_num)).nearest_le hsmall
      _ < 1 := by norm_num
      _ ≤ n := hone
  · have herror := (abs_le.mp (abs_nearest_sub_le_mul
      ((two_zpow_le (by norm_num : (-1022 : ℤ) ≤ -1)).trans hlarge.le))).2
    have hfactor : (0 : ℚ) < 2 ^ (-53 : ℤ) := two_zpow_pos _
    calc nearest x
      _ ≤ x * (1 + 2 ^ (-53 : ℤ)) := by linarith
      _ ≤ n * (1 - 2 ^ (-53 : ℤ)) * (1 + 2 ^ (-53 : ℤ)) :=
        mul_le_mul_of_nonneg_right h (by linarith)
      _ < n := by nlinarith [mul_pos hfactor hfactor]

section Sum

variable {α : Type} {f : α → Float} {xs : List α}

theorem sum_map_append (f : α → Float) (xs : List α) (a : α) :
    Scalar.sum ((xs ++ [a]).map f) = Scalar.sum (xs.map f) + f a := by
  simp [Scalar.sum]

theorem sum_nonneg (hf : ∀ a ∈ xs, Nonneg (f a)) : Nonneg (Scalar.sum (xs.map f)) := by
  induction xs using List.reverseRecOn with
  | nil => exact ofUInt64_nonneg 0
  | append_singleton xs a ih =>
    rw [sum_map_append]
    exact ((ih fun b hb => hf b (by simp [hb])).add (hf a (by simp))).1

/-- Every partial sum is rounded. -/
theorem value_sum_append {a : α} (hf : ∀ b ∈ xs ++ [a], Nonneg (f b)) :
    value (Scalar.sum ((xs ++ [a]).map f)) = rounded (value (Scalar.sum (xs.map f)) + value (f a)) := by
  rw [sum_map_append]
  exact ((sum_nonneg fun b hb => hf b (by simp [hb])).add (hf a (by simp))).2

theorem value_sum_nil (f : α → Float) : value (Scalar.sum (([] : List α).map f)) = 0 := exactly_zero.value_eq

/-- Larger summands have a larger sum. -/
theorem sum_le_sum {g : α → Float} (hf : ∀ a ∈ xs, Nonneg (f a)) (hg : ∀ a ∈ xs, Nonneg (g a))
    (h : ∀ a ∈ xs, value (f a) ≤ value (g a)) :
    value (Scalar.sum (xs.map f)) ≤ value (Scalar.sum (xs.map g)) := by
  induction xs using List.reverseRecOn with
  | nil => exact le_rfl
  | append_singleton xs a ih =>
    rw [value_sum_append hf, value_sum_append hg]
    apply rounded_mono
    have hrest := ih (fun b hb => hf b (by simp [hb])) (fun b hb => hg b (by simp [hb]))
      (fun b hb => h b (by simp [hb]))
    exact add_le_add hrest (h a (by simp))

/-- Natural numbers are added exactly, as long as the sum has 53 digits. -/
theorem sum_eq_natCast {n : α → ℕ} (hf : ∀ a ∈ xs, Nonneg (f a)) (h : ∀ a ∈ xs, value (f a) = n a)
    (hsum : (xs.map n).sum ≤ 2 ^ 53) : value (Scalar.sum (xs.map f)) = (xs.map n).sum := by
  induction xs using List.reverseRecOn with
  | nil => exact (value_sum_nil f).trans Nat.cast_zero.symm
  | append_singleton xs a ih =>
    have hsplit : ((xs ++ [a]).map n).sum = (xs.map n).sum + n a := by simp
    rw [hsplit] at hsum ⊢
    have hrest := ih (fun b hb => hf b (by simp [hb])) (fun b hb => h b (by simp [hb])) (by omega)
    rw [value_sum_append hf, hrest, h a (by simp), ← Nat.cast_add]
    exact (isDouble_natCast hsum).rounded_eq (Nat.cast_nonneg _) (natCast_lt_limit hsum).le

/-- The sum is no smaller than that of multiples of a power of two below the summands, as long as
that has 53 digits. -/
theorem grid_le_sum {g : ℕ} (hg : g ≤ 53) {z : α → ℕ} (hf : ∀ a ∈ xs, Nonneg (f a))
    (h : ∀ a ∈ xs, (z a : ℚ) * 2 ^ (-g : ℤ) ≤ value (f a)) {k : ℕ} (hk : k ≤ 2 ^ 53)
    (hsum : k ≤ (xs.map z).sum) : (k : ℚ) * 2 ^ (-g : ℤ) ≤ value (Scalar.sum (xs.map f)) := by
  induction xs using List.reverseRecOn generalizing k with
  | nil =>
    obtain rfl : k = 0 := by simpa using hsum
    rw [Nat.cast_zero, zero_mul]
    exact (value_sum_nil f).ge
  | append_singleton xs a ih =>
    have hsplit : ((xs ++ [a]).map z).sum = (xs.map z).sum + z a := by simp
    rw [hsplit] at hsum
    obtain ⟨i, hi, hrest⟩ : ∃ i ≤ k, i ≤ (xs.map z).sum ∧ k ≤ i + z a :=
      ⟨min k (xs.map z).sum, min_le_left _ _, min_le_right _ _, by omega⟩
    have hbelow := ih (fun b hb => hf b (by simp [hb])) (fun b hb => h b (by simp [hb]))
      (hi.trans hk) hrest.1
    have hpos := two_zpow_pos (-g)
    rw [value_sum_append hf]
    apply IsDouble.le_rounded
    · exact ⟨k, -g, by rw [Nat.abs_cast]; exact_mod_cast hk, by omega, by rw [Int.cast_natCast]⟩
    · calc (k : ℚ) * 2 ^ (-g : ℤ)
        _ ≤ k := mul_le_of_le_one_right k.cast_nonneg (zpow_le_one_of_nonpos₀ (by norm_num) (by omega))
        _ ≤ limit := (natCast_lt_limit hk).le
    · calc (k : ℚ) * 2 ^ (-g : ℤ)
        _ ≤ ((i + z a : ℕ) : ℚ) * 2 ^ (-g : ℤ) :=
          mul_le_mul_of_nonneg_right (by exact_mod_cast hrest.2) hpos.le
        _ = i * 2 ^ (-g : ℤ) + z a * 2 ^ (-g : ℤ) := by rw [Nat.cast_add, add_mul]
        _ ≤ _ := add_le_add hbelow (h a (by simp))

/-- The sum of doubles below natural numbers stays below the sum of these, as long as that has 53
digits. -/
theorem sum_le_mul {c : α → ℕ} (hf : ∀ a ∈ xs, Nonneg (f a))
    (h : ∀ a ∈ xs, value (f a) < c a) (hsum : (xs.map c).sum ≤ 2 ^ 53) :
    value (Scalar.sum (xs.map f)) ≤ (xs.map c).sum * (1 - 2 ^ (-53 : ℤ)) := by
  induction xs using List.reverseRecOn with
  | nil => rw [value_sum_nil f]; simp
  | append_singleton xs a ih =>
    have hsplit : ((xs ++ [a]).map c).sum = (xs.map c).sum + c a := by simp
    rw [hsplit] at hsum ⊢
    have hfirst : ∀ b ∈ xs, Nonneg (f b) := fun b hb => hf b (by simp [hb])
    have hrest := ih hfirst (fun b hb => h b (by simp [hb])) (by omega)
    have hlast := (isDouble_value (f a)).le_mul_of_lt (h a (by simp)) (by omega)
    have hpositive : 0 < c a := by
      exact_mod_cast (hf a (by simp)).nonneg.trans_lt (h a (by simp))
    have hnonneg := add_nonneg (sum_nonneg hfirst).nonneg (hf a (by simp)).nonneg
    have hbelow : nearest (value (Scalar.sum (xs.map f)) + value (f a)) < ((xs.map c).sum + c a : ℕ) :=
      nearest_lt_of_le_mul (by omega) (by rw [Nat.cast_add, add_mul]; exact add_le_add hrest hlast)
    rw [value_sum_append hf]
    exact (rounded_le_nearest hnonneg).trans
      ((isDouble_nearest _).le_mul_of_lt hbelow hsum)

/-- No summand is larger than the sum. -/
theorem le_sum (hf : ∀ a ∈ xs, Nonneg (f a)) {a : α} (ha : a ∈ xs) :
    value (f a) ≤ value (Scalar.sum (xs.map f)) := by
  induction xs using List.reverseRecOn with
  | nil => contradiction
  | append_singleton xs b ih =>
    have hfirst : ∀ c ∈ xs, Nonneg (f c) := fun c hc => hf c (by simp [hc])
    have hbound := (abs_le.mp (abs_value_le (f a))).2
    rw [value_sum_append hf]
    apply (isDouble_value (f a)).le_rounded hbound
    obtain ha | rfl : a ∈ xs ∨ a = b := by simpa using ha
    · exact le_add_of_le_of_nonneg (ih hfirst ha) (hf b (by simp)).nonneg
    · exact le_add_of_nonneg_left (sum_nonneg hfirst).nonneg

/-- From a power of two on small summands are rounded away, however many there are. -/
theorem sum_le_two_zpow {e : ℤ} (he : -1022 ≤ e) (hf : ∀ a ∈ xs, Nonneg (f a))
    (h : ∀ a ∈ xs, value (f a) ≤ 2 ^ (e - 53)) : value (Scalar.sum (xs.map f)) ≤ 2 ^ e := by
  induction xs using List.reverseRecOn with
  | nil => exact (value_sum_nil f).trans_le (two_zpow_pos e).le
  | append_singleton xs a ih =>
    have hfirst : ∀ b ∈ xs, Nonneg (f b) := fun b hb => hf b (by simp [hb])
    have hlast := hf a (by simp)
    have hrest := ih hfirst fun b hb => h b (by simp [hb])
    rw [value_sum_append hf]
    calc rounded (value (Scalar.sum (xs.map f)) + value (f a))
      _ ≤ nearest (value (Scalar.sum (xs.map f)) + value (f a)) :=
        rounded_le_nearest (add_nonneg (sum_nonneg hfirst).nonneg hlast.nonneg)
      _ ≤ 2 ^ e := nearest_le_two_zpow he (add_le_add hrest (h a (by simp)))

end Sum

end Allotment.Double
