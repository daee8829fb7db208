import Allotment.Policy.Division
import Allotment.Proofs.Double.Sum

/-!
# The ratio of a division

Doubling and bisection compute powers of two and multiples of them, which are doubles, so the ratio that
a division ends at is known exactly: it is the upper end of an interval of one unit out of `2²⁵`, the
unit being fixed by the number of doublings. The shares reach the target at the upper end, unless no
doubling reached it; they do not reach it at the lower end, unless that is zero.
-/

namespace Allotment.Division

open Double

variable (used : Float → Float) (target : Float)

/-- Doubling ends at a power of two that reaches the target or is the last, and the power before it does
not reach the target. -/
theorem exists_double (n : ℕ) {ratio : Float} {i : ℕ} (h : Exactly ratio (2 ^ (i : ℤ)))
    (hi : i + n ≤ 64) :
    ∃ j : ℕ, i ≤ j ∧ j ≤ i + n ∧ Exactly (double used target n ratio) (2 ^ (j : ℤ)) ∧
      (j = i + n ∨ Scalar.lt (used (double used target n ratio)) target = false) ∧
      (j = i ∨ ∃ x, Exactly x (2 ^ (j - 1 : ℤ)) ∧ Scalar.lt (used x) target = true) := by
  induction n generalizing ratio i with
  | zero => exact ⟨i, le_rfl, le_rfl, h, .inl rfl, .inl rfl⟩
  | succ n ih =>
    rw [double]
    split_ifs with hlt
    · have hdouble : Exactly (ratio * Scalar.two) (2 ^ ((i + 1 : ℕ) : ℤ)) := by
        have hproduct := mul_eq h.finite exactly_two.finite
        rw [h.value_eq, exactly_two.value_eq] at hproduct
        have hpower : (2 : ℚ) ^ (i : ℤ) * 2 = ((1 : ℕ) : ℚ) * 2 ^ ((i + 1 : ℕ) : ℤ) := by
          push_cast
          rw [two_zpow_add, zpow_one, one_mul]
        rw [hpower] at hproduct
        simpa using exactly_of_rounded hproduct (by norm_num) (by omega) (by omega)
      obtain ⟨j, hij, hjn, hexact, hreach, hbefore⟩ := ih hdouble (by omega)
      refine ⟨j, by omega, by omega, hexact, hreach.imp_left (by omega), .inr ?_⟩
      obtain rfl | hbefore := hbefore
      · exact ⟨ratio, by simpa using h, hlt⟩
      · exact hbefore
    · exact ⟨i, le_rfl, by omega, h, .inr (Bool.eq_false_iff.mpr hlt), .inl rfl⟩

/-- Bisection halves the unit each time: what it ends at is the upper end of an interval of one unit. -/
theorem exists_bisect (n : ℕ) {left right : Float} {m : ℕ} {e : ℤ} (hleft : Exactly left (m * 2 ^ e))
    (hright : Exactly right ((m + 1 : ℕ) * 2 ^ e)) (hm : (m + 1) * 2 ^ n ≤ 2 ^ 52)
    (he : -1074 ≤ e - n) (he' : e ≤ 970) :
    ∃ (k : ℕ) (x : Float), Exactly x (k * 2 ^ (e - n)) ∧
      Exactly (bisect used target n left right) ((k + 1 : ℕ) * 2 ^ (e - n)) ∧ k + 1 ≤ (m + 1) * 2 ^ n ∧
      (x = left ∨ Scalar.lt (used x) target = true) ∧
      (bisect used target n left right = right ∨
        Scalar.lt (used (bisect used target n left right)) target = false) := by
  induction n generalizing left right m e with
  | zero =>
    rw [Nat.cast_zero, sub_zero]
    exact ⟨m, left, hleft, hright, by omega, .inl rfl, .inl rfl⟩
  | succ n ih =>
    have hmiddle : Exactly ((left + right) / Scalar.two) ((2 * m + 1 : ℕ) * 2 ^ (e - 1)) := by
      have hsum := add_eq hleft.finite hright.finite
      have htotal : (m : ℚ) * 2 ^ e + (m + 1 : ℕ) * 2 ^ e = (2 * m + 1 : ℕ) * 2 ^ e := by
        push_cast
        ring
      rw [hleft.value_eq, hright.value_eq, htotal] at hsum
      have hlarge : 2 * m + 1 ≤ 2 ^ 53 := by
        have := Nat.le_mul_of_pos_right (m + 1) (Nat.two_pow_pos (n + 1))
        omega
      have hsum := exactly_of_rounded hsum hlarge (by omega) he'
      have hquotient := div_eq hsum.finite exactly_two.finite (by rw [exactly_two.value_eq]; norm_num)
      have hhalf : ((2 * m + 1 : ℕ) : ℚ) * 2 ^ e / 2 = (2 * m + 1 : ℕ) * 2 ^ (e - 1) := by
        rw [zpow_sub_one₀ two_ne_zero]
        ring
      rw [hsum.value_eq, exactly_two.value_eq, hhalf] at hquotient
      exact exactly_of_rounded hquotient hlarge (by omega) (by omega)
    have hunit : (2 : ℚ) ^ e = 2 * 2 ^ (e - 1) := by
      rw [zpow_sub_one₀ two_ne_zero]
      ring
    have hexponent : e - 1 - (n : ℤ) = e - ((n + 1 : ℕ) : ℤ) := by
      push_cast
      ring
    have hpower := Nat.two_pow_pos n
    rw [pow_succ] at hm ⊢
    rw [bisect]
    split_ifs with hlt
    · have hright : Exactly right ((2 * m + 1 + 1 : ℕ) * 2 ^ (e - 1)) := by
        convert hright using 1
        rw [hunit]
        push_cast
        ring
      obtain ⟨k, x, hx, hexact, hk, hbelow, habove⟩ := ih hmiddle hright (by linarith) (by omega) (by omega)
      rw [hexponent] at hx hexact
      refine ⟨k, x, hx, hexact, by linarith, ?_, habove⟩
      obtain rfl | hbelow := hbelow
      · exact .inr hlt
      · exact .inr hbelow
    · have hleft : Exactly left ((2 * m : ℕ) * 2 ^ (e - 1)) := by
        convert hleft using 1
        rw [hunit]
        push_cast
        ring
      obtain ⟨k, x, hx, hexact, hk, hbelow, habove⟩ := ih hleft hmiddle (by linarith) (by omega) (by omega)
      rw [hexponent] at hx hexact
      refine ⟨k, x, hx, hexact, by linarith, hbelow, ?_⟩
      obtain heq | habove := habove
      · rw [heq]
        exact .inr (Bool.eq_false_iff.mpr hlt)
      · exact .inr habove

/-- Where the ratio lies: it is the upper end of an interval of one unit, which is `2⁻²⁵` times the power
of two that the doubling ended at. -/
theorem exists_ratio : ∃ (j k : ℕ) (x : Float), j ≤ 64 ∧ k + 1 ≤ 2 ^ 25 ∧
    Exactly x (k * 2 ^ (j - 25 : ℤ)) ∧ Exactly (ratio used target) ((k + 1 : ℕ) * 2 ^ (j - 25 : ℤ)) ∧
    (k = 0 ∨ Scalar.lt (used x) target = true) ∧
    (j = 64 ∧ k + 1 = 2 ^ 25 ∨ Scalar.lt (used (ratio used target)) target = false) ∧
    (j = 0 ∨ ∃ y, Exactly y (2 ^ (j - 1 : ℤ)) ∧ Scalar.lt (used y) target = true) := by
  have hone : Exactly Scalar.one (2 ^ ((0 : ℕ) : ℤ)) := by simpa using exactly_one
  obtain ⟨j, -, hj, hright, hreach, hbefore⟩ := exists_double used target doublings hone le_rfl
  have hj : j ≤ 64 := by simpa [doublings] using hj
  have hreach := hreach.imp_left fun h : j = 0 + doublings => h.trans (Nat.zero_add _)
  unfold ratio
  generalize double used target doublings Scalar.one = right at *
  have hzero : Exactly Scalar.zero ((0 : ℕ) * 2 ^ (j : ℤ)) := by simpa using exactly_zero
  have hunit : Exactly right ((0 + 1 : ℕ) * 2 ^ (j : ℤ)) := by simpa using hright
  obtain ⟨k, x, hx, hexact, hk, hbelow, habove⟩ := exists_bisect used target bisections hzero hunit
    (by norm_num [bisections]) (by simp only [bisections]; omega) (by omega)
  have hk : k + 1 ≤ 2 ^ 25 := by simpa [bisections] using hk
  refine ⟨j, k, x, hj, hk, hx, hexact, ?_, ?_, hbefore⟩
  · refine hbelow.imp_left ?_
    rintro rfl
    have hvalue := hx.value_eq.symm.trans exactly_zero.value_eq
    simpa [(two_zpow_pos _).ne'] using hvalue
  · obtain heq | habove := habove
    · refine hreach.imp (fun h => ⟨h, ?_⟩) (fun h => by rw [heq]; exact h)
      have hvalue := hexact.value_eq.symm.trans ((congrArg value heq).trans hright.value_eq)
      have hpower : (2 : ℚ) ^ (j : ℤ) = (2 ^ 25 : ℕ) * 2 ^ (j - bisections : ℤ) := by
        have hsplit := two_zpow_add 25 (j - 25)
        rw [add_sub_cancel] at hsplit
        exact_mod_cast hsplit
      rw [hpower] at hvalue
      exact_mod_cast mul_right_cancel₀ (two_zpow_pos _).ne' hvalue
    · exact .inr habove

end Allotment.Division
