import Allotment.Proofs.Double.Arithmetic

/-!
# Powers of two

A power of two by repeated squaring is exact as long as it lies below the limit, and from there on it is an
infinity, in whichever order squarings and multiplications reach the limit. Its reciprocal is exact too, or
zero, so reciprocals of larger powers are no larger.
-/

namespace Allotment.Double

open Float.Model (Format UnpackedFloat)

/-- Whether a double is what a power of two comes to: the power, or an infinity if that is too large. -/
structure IsPower (x : Float) (k : ℕ) : Prop where
  number : Scalar.isNaN x = false
  value_eq : value x = 2 ^ min k 1024

theorem limit_eq : limit = 2 ^ 1024 := zpow_natCast 2 1024

/-- Rounding leaves a power of two as it is or cuts it at the limit. -/
theorem rounded_two_pow (k : ℕ) : rounded (2 ^ k) = 2 ^ min k 1024 := by
  obtain hle | hlt := Nat.lt_or_ge 1024 k |>.symm
  · have hbelow : (2 : ℚ) ^ k ≤ limit := by
      rw [limit_eq]
      exact pow_le_pow_right₀ (by norm_num) hle
    have hdouble : IsDouble ((2 : ℚ) ^ k) := by
      simpa using isDouble_two_zpow (e := k) (by omega)
    rw [hdouble.rounded_eq (by positivity) hbelow, min_eq_left hle]
  · rw [min_eq_right hlt.le, ← limit_eq, rounded_of_limit_le]
    rw [limit_eq]
    exact pow_le_pow_right₀ (by norm_num) hlt.le

variable {x y : Float} {j k : ℕ}

theorem IsPower.pos (h : IsPower x k) : 0 < value x := by
  rw [h.value_eq]
  positivity

theorem IsPower.cases (h : IsPower x k) :
    x.isFinite = true ∧ k < 1024 ∨ x.toModel.unpack = .infinity .positive ∧ 1024 ≤ k := by
  obtain hlt | hle := Nat.lt_or_ge k 1024
  · have hbelow : value x < limit := by
      rw [h.value_eq, limit_eq]
      exact pow_lt_pow_right₀ (by norm_num) (by omega)
    have hpos := h.pos
    exact .inl ⟨isFinite_iff.mpr ⟨h.number, by linarith [limit_pos], hbelow⟩, hlt⟩
  · refine .inr ⟨(isFinite_or_infinity h.number h.pos.le).resolve_left fun hfinite => ?_, hle⟩
    have hbelow := (isFinite_iff.mp hfinite).2.2
    rw [h.value_eq, min_eq_right hle, limit_eq] at hbelow
    exact lt_irrefl _ hbelow

/-- A positive infinity times a positive double is that infinity. -/
theorem infinity_mul (hx : x.toModel.unpack = .infinity .positive) (hy : Scalar.isNaN y = false)
    (hpos : 0 < value y) : Scalar.isNaN (x * y) = false ∧ value (x * y) = limit := by
  have hproduct : UnpackedFloat.mul Format.binary64 x.toModel.unpack y.toModel.unpack =
      .infinity .positive := by
    rw [hx]
    obtain hfinite | hinfinite := isFinite_or_infinity hy hpos.le
    · rw [value] at hpos
      obtain ⟨t, ht⟩ | ⟨t, m, e, hm, ht⟩ := isFinite_cases hfinite
      · rw [ht] at hpos
        exact absurd hpos (lt_irrefl 0)
      · rw [ht] at hpos ⊢
        cases t
        · exact absurd hpos (not_lt.mpr (neg_nonpos.mpr (cast_mul_two_zpow_pos hm e).le))
        · rfl
    · rw [hinfinite]
      rfl
  change Scalar.isNaN (⟨Float.Model.pack (UnpackedFloat.mul _ _ _)⟩ : Float) = false ∧
    value ⟨Float.Model.pack (UnpackedFloat.mul _ _ _)⟩ = _
  rw [hproduct]
  exact pack_infinity .positive

/-- The product of two powers is the power of the sum of their exponents. -/
theorem IsPower.mul (hx : IsPower x j) (hy : IsPower y k) : IsPower (x * y) (j + k) := by
  obtain ⟨hxf, hj⟩ | ⟨hinfinite, hj⟩ := hx.cases
  · obtain ⟨hyf, hk⟩ | ⟨hinfinite, hk⟩ := hy.cases
    · obtain ⟨hnumber, hvalue⟩ := mul_eq hxf hyf
      refine ⟨hnumber, ?_⟩
      rw [hvalue, hx.value_eq, hy.value_eq, min_eq_left hj.le, min_eq_left hk.le, ← pow_add,
        rounded_two_pow]
    · obtain ⟨hnumber, hvalue⟩ := mul_infinity hxf hx.pos hinfinite
      exact ⟨hnumber, by rw [hvalue, withSign_positive, limit_eq, min_eq_right (by omega)]⟩
  · obtain ⟨hnumber, hvalue⟩ := infinity_mul hinfinite hy.number hy.pos
    exact ⟨hnumber, by rw [hvalue, limit_eq, min_eq_right (by omega)]⟩

/-- Repeated squaring multiplies a power in. -/
theorem IsPower.powFrom (hx : IsPower x j) (hy : IsPower y k) (n : ℕ) :
    IsPower (Scalar.powFrom x y n) (j + k * n) := by
  induction n using Nat.strong_induction_on generalizing x y j k with
  | _ n ih =>
    have hdigit : IsPower (if n % 2 = 1 then x * y else x) (j + k * (n % 2)) := by
      obtain heven | hodd := Nat.mod_two_eq_zero_or_one n
      · simpa [heven] using hx
      · simpa [hodd] using hx.mul hy
    rw [Scalar.powFrom]
    split
    · rename_i hlast
      rwa [show n % 2 = n by omega] at hdigit ⊢
    · have hrest := ih (n / 2) (by omega) hdigit (hy.mul hy)
      have hsum : j + k * (n % 2) + (k + k) * (n / 2) = j + k * n := by
        conv_rhs => rw [← Nat.mod_add_div n 2]
        ring
      rwa [hsum] at hrest

/-- Repeated squaring gives the power of two. -/
theorem isPower_pow_two (k : ℕ) : IsPower (Scalar.pow Scalar.two k) k := by
  have hone : IsPower Scalar.one 0 := ⟨exactly_one.number, by rw [exactly_one.value_eq]; norm_num⟩
  have htwo : IsPower Scalar.two 1 := ⟨exactly_two.number, by rw [exactly_two.value_eq]; norm_num⟩
  simpa [Scalar.pow] using hone.powFrom htwo k

/-- The reciprocal of a power is exact, and that of an infinity is zero. -/
theorem IsPower.reciprocal (h : IsPower x k) :
    Scalar.isNaN (Scalar.one / x) = false ∧
      value (Scalar.one / x) = if k < 1024 then 2 ^ (-k : ℤ) else 0 := by
  obtain ⟨hfinite, hk⟩ | ⟨hinfinite, hk⟩ := h.cases
  · obtain ⟨hnumber, hvalue⟩ := div_eq exactly_one.finite hfinite h.pos.ne'
    have hdouble : IsDouble ((2 : ℚ) ^ (-k : ℤ)) := isDouble_two_zpow (by omega)
    have hbelow : (2 : ℚ) ^ (-k : ℤ) ≤ limit := two_zpow_le (by omega)
    rw [exactly_one.value_eq, h.value_eq, min_eq_left hk.le, one_div, ← zpow_natCast, ← zpow_neg,
      hdouble.rounded_eq (two_zpow_pos _).le hbelow] at hvalue
    exact ⟨hnumber, by rw [hvalue, if_pos hk]⟩
  · obtain ⟨hnumber, hvalue⟩ := div_infinity exactly_one.finite hinfinite
    exact ⟨hnumber, by rw [hvalue, if_neg (by omega)]⟩

/-- Of two powers the larger one has no larger reciprocal. -/
theorem IsPower.reciprocal_anti (hx : IsPower x j) (hy : IsPower y k) (h : j ≤ k) :
    value (Scalar.one / y) ≤ value (Scalar.one / x) := by
  rw [hx.reciprocal.2, hy.reciprocal.2]
  split
  · rw [if_pos (by omega)]
    exact two_zpow_le (by omega)
  · split
    · exact (two_zpow_pos _).le
    · exact le_rfl

end Allotment.Double
