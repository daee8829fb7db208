import Allotment.Proofs.Double.Form

/-!
# Shortest decimals round to their doubles

The digits that are written for a double make a number whose nearest double is that double. A point of a grid is
taken only if it lies in the interval of the numbers that round to the double; and the grid with seventeen digits
has such a point, because its points are closer to each other than doubles are. The grid is found by the position
of the point, which is read off a power of ten that is no larger than the value and one that is larger.

The digits that are written for a whole number with at most 53 bits make that number itself.
-/

namespace Allotment.Double

open Decimal (Binary)

/-! ## What rounds to a double -/

/-- A number between two powers of two, or below the smallest, has the grid of that range. -/
theorem gridExponent_eq {x : ℚ} {e : ℤ} (he : -1074 ≤ e) (hlow : 2 ^ (52 + e) ≤ x ∨ e = -1074) (hx : 0 < x)
    (hhigh : x < 2 ^ (53 + e)) : gridExponent x = e := by
  have hlog := (lt_two_zpow_iff hx _).mp hhigh
  unfold gridExponent
  rw [abs_of_pos hx]
  obtain hlow | hlow := hlow
  · have hlog' := (two_zpow_le_iff hx _).mp hlow
    omega
  · omega

/-- An integer is the nearest one to a number less than a half away, and to one a half away if it is even. -/
theorem nearestInt_eq {y : ℚ} {m : ℤ} (h : |y - m| ≤ 1 / 2) (heven : |y - m| = 1 / 2 → m % 2 = 0) :
    nearestInt y = m := by
  obtain ⟨hlower, hupper⟩ := abs_le.mp h
  obtain hle | hlt := le_or_gt (m : ℚ) y
  · have hfloor : ⌊y⌋ = m := Int.floor_eq_iff.mpr ⟨hle, by linarith⟩
    have hfract : Int.fract y = y - m := by rw [Int.fract, hfloor]
    unfold nearestInt
    rw [hfract, hfloor]
    split_ifs with hbelow habove
    · rfl
    · linarith
    · have hhalf : y - m = 1 / 2 := le_antisymm (not_lt.mp habove) (not_lt.mp hbelow)
      have hparity := heven (by rw [hhalf]; norm_num)
      omega
  · have hfloor : ⌊y⌋ = m - 1 := Int.floor_eq_iff.mpr ⟨by push_cast; linarith, by push_cast; linarith⟩
    have hfract : Int.fract y = y - m + 1 := by
      rw [Int.fract, hfloor]
      push_cast
      ring
    unfold nearestInt
    rw [hfract, hfloor]
    split_ifs with hbelow habove
    · linarith
    · omega
    · have hhalf : y - m = -(1 / 2) := by linarith
      have hparity := heven (by rw [hhalf]; norm_num)
      omega

/-- How far the interval of a binary fraction reaches below it, in units of its last place. -/
def reachBelow (b : Binary) : ℚ := if b.narrowBelow then 1 / 4 else 1 / 2

/-- Whether a number, in units of the last place of a binary fraction, lies in the interval of that fraction. -/
structure Within (b : Binary) (r : ℚ) : Prop where
  below : b.mantissa - reachBelow b ≤ r
  above : r ≤ b.mantissa + 1 / 2
  open_of_odd : b.mantissa % 2 = 1 → b.mantissa - reachBelow b < r ∧ r < b.mantissa + 1 / 2

variable {b : Binary}

theorem reachBelow_bounds (b : Binary) : 1 / 4 ≤ reachBelow b ∧ reachBelow b ≤ 1 / 2 := by
  unfold reachBelow
  split_ifs <;> norm_num

/-- Away from the half units an integer is nearest, and on them an even one. -/
theorem Within.abs_sub_le {r : ℚ} (h : Within b r) :
    |r - b.mantissa| ≤ 1 / 2 ∧ (|r - b.mantissa| = 1 / 2 → (b.mantissa : ℤ) % 2 = 0) := by
  obtain ⟨-, hreach⟩ := reachBelow_bounds b
  constructor
  · rw [abs_le]
    constructor <;> linarith [h.below, h.above]
  · intro hhalf
    by_contra hparity
    obtain ⟨hbelow, habove⟩ := h.open_of_odd (by omega)
    have hless : |r - b.mantissa| < 1 / 2 := by
      rw [abs_lt]
      constructor <;> linarith
    exact hless.ne hhalf

/-- A number in the interval of a double is rounded to it. -/
theorem Within.nearest_eq {r : ℚ} (h : Within b r) (hb : IsFraction b) :
    nearest (r * 2 ^ b.exponent) = fractionValue b := by
  obtain ⟨⟨hm, he, hnormal⟩, hpos, hnarrow⟩ := hb
  have hunit := two_zpow_pos b.exponent
  have hm : (b.mantissa : ℚ) ≤ 2 ^ 53 - 1 := by
    have hcast : ((b.mantissa + 1 : ℕ) : ℚ) ≤ 2 ^ 53 := by exact_mod_cast hm
    push_cast at hcast
    linarith
  have hpos : (1 : ℚ) ≤ b.mantissa := by exact_mod_cast hpos
  obtain ⟨hnear, htie⟩ := h.abs_sub_le
  have hreach := reachBelow_bounds b
  by_cases hcase : b.narrowBelow = true ∧ r < b.mantissa
  · -- Below a power of two the grid is finer, and the power is an even point of it.
    obtain ⟨hmantissa, hexponent⟩ := hnarrow.mp hcase.1
    have hr := hcase.2
    have hquarter := h.below
    rw [reachBelow, if_pos hcase.1, hmantissa] at hquarter
    rw [hmantissa] at hr
    push_cast at hquarter hr
    have hfiner : r * 2 ^ b.exponent = 2 * r * 2 ^ (b.exponent - 1) := by
      have hpower := two_zpow_add 1 (b.exponent - 1)
      rw [add_sub_cancel, zpow_one] at hpower
      rw [hpower]
      ring
    have hgrid : gridExponent (r * 2 ^ b.exponent) = b.exponent - 1 := by
      have hfine := two_zpow_pos (b.exponent - 1)
      rw [hfiner]
      refine gridExponent_eq (by omega) (.inl ?_) (by positivity) ?_
      · rw [two_zpow_add]
        exact mul_le_mul_of_nonneg_right (by norm_num; linarith) hfine.le
      · rw [two_zpow_add]
        exact mul_lt_mul_of_pos_right (by norm_num; linarith) hfine
    have hnext : nearestInt (2 * r) = 2 ^ 53 := by
      refine nearestInt_eq ?_ fun _ => by norm_num
      push_cast
      rw [abs_le]
      constructor <;> linarith
    rw [nearest, hgrid, hfiner, mul_div_cancel_right₀ _ (two_zpow_pos _).ne', hnext, fractionValue, hmantissa,
      show b.exponent = 1 + (b.exponent - 1) by ring, two_zpow_add, add_sub_cancel_left]
    push_cast
    ring
  · have hrpos : 0 < r := by linarith [h.below]
    have hlow : 2 ^ 52 ≤ r ∨ b.exponent = -1074 := by
      obtain hnormal | hnormal := hnormal
      · have hnormal : (2 : ℚ) ^ 52 ≤ b.mantissa := by exact_mod_cast hnormal
        obtain hle | hlt := le_or_gt (b.mantissa : ℚ) r
        · exact .inl (hnormal.trans hle)
        · by_contra hlow
          obtain ⟨hlow, hexponent⟩ := not_or.mp hlow
          refine hcase ⟨hnarrow.mpr ⟨?_, by omega⟩, hlt⟩
          have hnext : (b.mantissa : ℚ) < 2 ^ 52 + 1 := by linarith [h.below]
          have hnext : b.mantissa < 2 ^ 52 + 1 := by exact_mod_cast hnext
          have hfirst : 2 ^ 52 ≤ b.mantissa := by exact_mod_cast hnormal
          omega
      · exact .inr hnormal
    have hgrid : gridExponent (r * 2 ^ b.exponent) = b.exponent := by
      refine gridExponent_eq he (hlow.imp_left fun hlow => ?_) (by positivity) ?_
      · rw [two_zpow_add]
        exact mul_le_mul_of_nonneg_right (by exact_mod_cast hlow) hunit.le
      · rw [two_zpow_add]
        exact mul_lt_mul_of_pos_right (by norm_num; linarith [h.above]) hunit
    rw [nearest, hgrid, mul_div_cancel_right₀ _ hunit.ne', nearestInt_eq (m := b.mantissa) (by exact_mod_cast hnear)
      (by exact_mod_cast htie), fractionValue]
    push_cast
    rfl

/-! ## Points of a grid -/

/-- Natural numbers are compared like what they are multiples of. -/
theorem natCast_compare {p q : ℕ} {c x y : ℚ} (hc : 0 < c) (hp : (p : ℚ) = c * x) (hq : (q : ℚ) = c * y) :
    (p ≤ q ↔ x ≤ y) ∧ (p < q ↔ x < y) := by
  rw [← Nat.cast_le (α := ℚ), ← Nat.cast_lt (α := ℚ), hp, hq]
  exact ⟨mul_le_mul_iff_right₀ hc, mul_lt_mul_iff_right₀ hc⟩

/-- A point of a grid is tested for the interval in natural numbers. -/
theorem rounds_iff (hpos : 0 < b.mantissa) {num den : ℕ} (hnum : 0 < num) (n : ℕ) :
    b.rounds num den n = true ↔ Within b (n * den / num) := by
  have hscale : (0 : ℚ) < 4 * num := by positivity
  have hlow : (((4 * b.mantissa - if b.narrowBelow then 1 else 2) * num : ℕ) : ℚ) =
      4 * num * (b.mantissa - reachBelow b) := by
    rw [Nat.cast_mul, Nat.cast_sub (by split_ifs <;> omega), reachBelow]
    split_ifs <;> push_cast <;> ring
  have hpoint : ((4 * n * den : ℕ) : ℚ) = 4 * num * (n * den / num) := by
    push_cast
    field_simp
  have hhigh : (((4 * b.mantissa + 2) * num : ℕ) : ℚ) = 4 * num * (b.mantissa + 1 / 2) := by
    push_cast
    ring
  obtain ⟨hbelow, hbelow'⟩ := natCast_compare hscale hlow hpoint
  obtain ⟨habove, habove'⟩ := natCast_compare hscale hpoint hhigh
  unfold Binary.rounds
  by_cases heven : b.mantissa % 2 = 0
  · rw [if_pos heven, Bool.and_eq_true, decide_eq_true_iff, decide_eq_true_iff, hbelow, habove]
    exact ⟨fun h => ⟨h.1, h.2, fun hodd => by omega⟩, fun h => ⟨h.below, h.above⟩⟩
  · rw [if_neg heven, Bool.and_eq_true, decide_eq_true_iff, decide_eq_true_iff, hbelow', habove']
    exact ⟨fun h => ⟨h.1.le, h.2.le, fun _ => h⟩, fun h => h.open_of_odd (by omega)⟩

/-- The numerator of a unit of the last place in units of a grid. -/
def gridNum (b : Binary) (grid : ℤ) : ℕ := Nat.pow 2 b.exponent.toNat * Nat.pow 10 (-grid).toNat

/-- The denominator of a unit of the last place in units of a grid. -/
def gridDen (b : Binary) (grid : ℤ) : ℕ := Nat.pow 2 (-b.exponent).toNat * Nat.pow 10 grid.toNat

theorem gridNum_pos (b : Binary) (grid : ℤ) : 0 < gridNum b grid :=
  Nat.mul_pos (Nat.pow_pos (by decide)) (Nat.pow_pos (by decide))

/-- A power is split into its numerator and its denominator. -/
theorem zpow_mul_pow_toNat {a : ℚ} (ha : a ≠ 0) (n : ℤ) : a ^ n * a ^ (-n).toNat = a ^ n.toNat := by
  rw [← zpow_natCast, ← zpow_natCast, ← zpow_add₀ ha]
  congr 1
  omega

/-- The unit of a grid in units of the last place of a binary fraction. -/
theorem gridDen_div_gridNum (b : Binary) (grid : ℤ) :
    (gridDen b grid / gridNum b grid : ℚ) = 10 ^ grid / 2 ^ b.exponent := by
  have htwo := zpow_mul_pow_toNat (two_ne_zero (α := ℚ)) b.exponent
  have hten := zpow_mul_pow_toNat (show (10 : ℚ) ≠ 0 by norm_num) grid
  have hnum : (gridNum b grid : ℚ) = 2 ^ b.exponent.toNat * 10 ^ (-grid).toNat := by
    rw [gridNum, Nat.pow_eq, Nat.pow_eq]
    push_cast
    rfl
  have hden : (gridDen b grid : ℚ) = 2 ^ (-b.exponent).toNat * 10 ^ grid.toNat := by
    rw [gridDen, Nat.pow_eq, Nat.pow_eq]
    push_cast
    rfl
  rw [div_eq_div_iff (by exact_mod_cast (gridNum_pos b grid).ne') (two_zpow_pos _).ne', hnum, hden, ← htwo, ← hten]
  ring

/-- A point that is found on a grid lies in the interval. -/
theorem rounds_of_onGrid? {grid : ℤ} {n : ℕ} (h : b.onGrid? grid = some n) :
    b.rounds (gridNum b grid) (gridDen b grid) n = true := by
  unfold Binary.onGrid? at h
  dsimp only at h
  split at h
  · cases h
    assumption
  · cases h
    assumption
  · cases h
  · split_ifs at h <;> cases h <;> assumption

/-- A point that is found on a grid lies in the interval, in units of the last place. -/
theorem within_of_onGrid? (hpos : 0 < b.mantissa) {grid : ℤ} {n : ℕ} (h : b.onGrid? grid = some n) :
    Within b (n * (10 ^ grid / 2 ^ b.exponent)) := by
  have hwithin := (rounds_iff hpos (gridNum_pos b grid) n).mp (rounds_of_onGrid? h)
  rwa [mul_div_assoc, gridDen_div_gridNum] at hwithin

/-- If no point is found on a grid, neither of the two next to the value lies in the interval. -/
theorem not_rounds_of_onGrid? {grid : ℤ} (h : b.onGrid? grid = none) :
    b.rounds (gridNum b grid) (gridDen b grid) (b.mantissa * gridNum b grid / gridDen b grid) = false ∧
      b.rounds (gridNum b grid) (gridDen b grid) (b.mantissa * gridNum b grid / gridDen b grid + 1) = false := by
  unfold Binary.onGrid? at h
  dsimp only at h
  split at h
  · cases h
  · cases h
  · exact ⟨by assumption, by assumption⟩
  · split_ifs at h

/-- A number well inside the interval lies in it. -/
theorem within_of_lt {r : ℚ} (hbelow : b.mantissa - reachBelow b < r) (habove : r < b.mantissa + 1 / 2) :
    Within b r :=
  ⟨hbelow.le, habove.le, fun _ => ⟨hbelow, habove⟩⟩

/-- On a grid with a unit of less than twice the smaller reach of the interval a point is found. -/
theorem onGrid?_ne_none (hpos : 0 < b.mantissa) {grid : ℤ}
    (hunit : (10 : ℚ) ^ grid / 2 ^ b.exponent < 2 * reachBelow b) : b.onGrid? grid ≠ none := by
  intro h
  obtain ⟨hfirst, hsecond⟩ := not_rounds_of_onGrid? h
  obtain ⟨-, hreach⟩ := reachBelow_bounds b
  have hnum : (0 : ℚ) < gridNum b grid := by exact_mod_cast gridNum_pos b grid
  have hden : 0 < gridDen b grid := Nat.mul_pos (Nat.pow_pos (by decide)) (Nat.pow_pos (by decide))
  have hunitpos : (0 : ℚ) < 10 ^ grid / 2 ^ b.exponent := div_pos (zpow_pos (by norm_num) _) (two_zpow_pos _)
  rw [← Bool.not_eq_true, rounds_iff hpos (gridNum_pos b grid), mul_div_assoc, gridDen_div_gridNum] at hfirst hsecond
  have hfloor := Nat.div_mul_le_self (b.mantissa * gridNum b grid) (gridDen b grid)
  have hceil := Nat.lt_div_mul_add (a := b.mantissa * gridNum b grid) hden
  generalize b.mantissa * gridNum b grid / gridDen b grid = k at hfirst hsecond hfloor hceil
  have hscaled : (gridDen b grid : ℚ) = 10 ^ grid / 2 ^ b.exponent * gridNum b grid := by
    rw [← gridDen_div_gridNum, div_mul_cancel₀ _ hnum.ne']
  generalize (10 : ℚ) ^ grid / 2 ^ b.exponent = unit at *
  have hlower : k * unit ≤ b.mantissa := by
    have hcast : ((k * gridDen b grid : ℕ) : ℚ) ≤ ((b.mantissa * gridNum b grid : ℕ) : ℚ) := by exact_mod_cast hfloor
    push_cast at hcast
    rw [hscaled, ← mul_assoc] at hcast
    exact le_of_mul_le_mul_right hcast hnum
  have hupper : b.mantissa < (k + 1) * unit := by
    have hcast : ((b.mantissa * gridNum b grid : ℕ) : ℚ) < ((k * gridDen b grid + gridDen b grid : ℕ) : ℚ) := by
      exact_mod_cast hceil
    push_cast at hcast
    rw [hscaled, ← mul_assoc, ← add_mul, ← add_one_mul] at hcast
    exact lt_of_mul_lt_mul_right hcast hnum.le
  push_cast at hsecond
  obtain hnear | hfar := le_or_gt (b.mantissa - k * unit) (unit / 2)
  · exact hfirst (within_of_lt (by linarith) (by linarith))
  · exact hsecond (within_of_lt (by linarith) (by linarith))

/-! ## The first grid with a point -/

/-- A natural number has no more digits than its power of ten allows. -/
theorem pow_width_le {n : ℕ} (h : 0 < n) : 10 ^ (Decimal.width n - 1) ≤ n := by
  obtain hone | hmore := Nat.lt_or_ge 1 (Decimal.width n) |>.symm
  · rw [Nat.sub_eq_zero_of_le hone, pow_zero]
    exact h
  · have hdigits := Nat.length_toDigits_le_iff (n := n) (by decide : 1 < 10) (Nat.sub_pos_of_lt hmore)
    by_contra hlt
    have hfewer : Decimal.width n ≤ Decimal.width n - 1 := hdigits.mpr (not_le.mp hlt)
    omega

/-- A natural number is less than the power of ten with all of its digits. -/
theorem lt_pow_width (n : ℕ) : n < 10 ^ Decimal.width n :=
  (Nat.length_toDigits_le_iff (by decide) Nat.length_toDigits_pos).mp le_rfl

/-- Three binary places take no more than one decimal place. -/
theorem div_two_pow_pos {m : ℕ} (hm : 0 < m) (j k n : ℕ) (h : k ≤ 3 * n) :
    0 < m * Nat.pow 2 j * Nat.pow 10 n / Nat.pow 2 k := by
  have hplaces : Nat.pow 2 k ≤ Nat.pow 10 n := by
    refine (Nat.pow_le_pow_right (by decide) h).trans ?_
    rw [pow_mul]
    exact Nat.pow_le_pow_left (by decide) n
  have hleft : 0 < m * Nat.pow 2 j := Nat.mul_pos hm (Nat.pow_pos (by decide))
  exact Nat.div_pos (hplaces.trans (Nat.le_mul_of_pos_left _ hleft)) (Nat.pow_pos (by decide))

/-- A value is no less than the power of ten that the digits of a multiple of it show. -/
theorem ten_zpow_width_le {m : ℕ} (hm : 0 < m) (e : ℤ) {places : ℕ} (h : (-e).toNat ≤ 3 * places) :
    (10 : ℚ) ^ ((Decimal.width (m * Nat.pow 2 e.toNat * Nat.pow 10 places / Nat.pow 2 (-e).toNat) : ℤ) - places - 1) ≤
      m * 2 ^ e := by
  have hpos := div_two_pow_pos hm e.toNat (-e).toNat places h
  have hfloor := Nat.div_mul_le_self (m * Nat.pow 2 e.toNat * Nat.pow 10 places) (Nat.pow 2 (-e).toNat)
  generalize m * Nat.pow 2 e.toNat * Nat.pow 10 places / Nat.pow 2 (-e).toNat = n at hpos hfloor
  have hbelow : (n : ℚ) ≤ m * 2 ^ e * 10 ^ places := by
    have hdenominator : (0 : ℚ) < 2 ^ (-e).toNat := by positivity
    have hcast : ((n * 2 ^ (-e).toNat : ℕ) : ℚ) ≤ ((m * 2 ^ e.toNat * 10 ^ places : ℕ) : ℚ) := Nat.cast_le.mpr hfloor
    push_cast at hcast
    rw [← zpow_mul_pow_toNat (two_ne_zero (α := ℚ)) e] at hcast
    refine le_of_mul_le_mul_right (hcast.trans_eq ?_) hdenominator
    ring
  have hwidth : (10 : ℚ) ^ (Decimal.width n - 1) ≤ n := by exact_mod_cast pow_width_le hpos
  have hsome : 0 < Decimal.width n := Nat.length_toDigits_pos
  have hsplit : (10 : ℚ) ^ ((Decimal.width n : ℤ) - places - 1) * 10 ^ places = 10 ^ (Decimal.width n - 1) := by
    rw [← zpow_natCast, ← zpow_natCast, ← zpow_add₀ (by norm_num)]
    congr 1
    omega
  refine le_of_mul_le_mul_right ?_ (by positivity : (0 : ℚ) < 10 ^ places)
  rw [hsplit]
  exact hwidth.trans hbelow

/-- A value is less than the power of ten that the digits of a multiple of it fill. -/
theorem lt_ten_zpow_width (m : ℕ) (e : ℤ) (places : ℕ) :
    (m * 2 ^ e : ℚ) <
      10 ^ ((Decimal.width (m * Nat.pow 2 e.toNat * Nat.pow 10 places / Nat.pow 2 (-e).toNat) : ℤ) - places) := by
  have hwidth := lt_pow_width (m * Nat.pow 2 e.toNat * Nat.pow 10 places / Nat.pow 2 (-e).toNat)
  generalize Decimal.width (m * Nat.pow 2 e.toNat * Nat.pow 10 places / Nat.pow 2 (-e).toNat) = w at hwidth ⊢
  have habove := (Nat.div_lt_iff_lt_mul (Nat.pow_pos (by decide))).mp hwidth
  have hcast : ((m * 2 ^ e.toNat * 10 ^ places : ℕ) : ℚ) < ((10 ^ w * 2 ^ (-e).toNat : ℕ) : ℚ) := Nat.cast_lt.mpr habove
  push_cast at hcast
  rw [← zpow_mul_pow_toNat (two_ne_zero (α := ℚ)) e] at hcast
  have hscaled : (m * 2 ^ e : ℚ) * 10 ^ places < 10 ^ w := by
    refine lt_of_mul_lt_mul_right (lt_of_eq_of_lt ?_ hcast) (by positivity : (0 : ℚ) ≤ 2 ^ (-e).toNat)
    ring
  rwa [zpow_sub₀ (by norm_num), zpow_natCast, zpow_natCast, lt_div_iff₀ (by positivity)]

/-- The point stands where the value has it. -/
theorem magnitude_bounds (hb : IsFraction b) :
    (10 : ℚ) ^ (b.magnitude - 1) ≤ fractionValue b ∧ fractionValue b < 10 ^ b.magnitude := by
  have hlow := hb.normal.2.1
  have hdepth : (-b.exponent).toNat ≤ 3 * 400 := by omega
  have hplaces : (400 : ℤ) = (400 : ℕ) := rfl
  unfold Binary.magnitude fractionValue
  generalize 400 = places at hdepth hplaces ⊢
  rw [hplaces]
  exact ⟨ten_zpow_width_le hb.pos _ hdepth, lt_ten_zpow_width _ _ _⟩

/-- With seventeen digits a point is found. -/
theorem onGrid?_seventeen (hb : IsFraction b) : b.onGrid? (b.magnitude - 17) ≠ none := by
  apply onGrid?_ne_none hb.pos
  have hunit := two_zpow_pos b.exponent
  have hvalue := (magnitude_bounds hb).1
  rw [fractionValue] at hvalue
  have hsplit : (10 : ℚ) ^ (b.magnitude - 17) * 10 ^ 16 = 10 ^ (b.magnitude - 1) := by
    rw [← zpow_natCast, ← zpow_add₀ (by norm_num)]
    congr 1
    omega
  have hspacing : (10 : ℚ) ^ (b.magnitude - 17) / 2 ^ b.exponent * 10 ^ 16 ≤ b.mantissa := by
    rw [div_mul_eq_mul_div, hsplit]
    exact (div_le_iff₀ hunit).mpr hvalue
  unfold reachBelow
  split_ifs with hnarrow
  · rw [(hb.narrow.mp hnarrow).1] at hspacing
    push_cast at hspacing
    linarith
  · have hmantissa : (b.mantissa : ℚ) < 2 ^ 53 := by exact_mod_cast hb.normal.1
    linarith

/-! ## The shortest decimal -/

/-- The value of a decimal. -/
def decimalValue (d : Decimal) : ℚ := d.digits * 10 ^ d.exponent

/-- Zeros at the end of the digits are made up for by the exponent. -/
theorem decimalValue_stripZeros (fuel : ℕ) (d : Decimal) : decimalValue (d.stripZeros fuel) = decimalValue d := by
  induction fuel generalizing d with
  | zero => rfl
  | succ fuel ih =>
    rw [Decimal.stripZeros]
    split_ifs with hzero
    · have hdigits : (d.digits : ℚ) = 10 * (d.digits / 10 : ℕ) := by
        exact_mod_cast (Nat.mul_div_cancel' (Nat.dvd_of_mod_eq_zero hzero)).symm
      rw [ih, decimalValue, decimalValue, hdigits, zpow_add_one₀ (by norm_num)]
      ring
    · rfl

/-- The shortest decimal of a double is found on the first of at most seventeen grids that has a point. -/
theorem exists_shortest (hb : IsFraction b) :
    ∃ k n, k < 17 ∧ b.onGrid? (b.magnitude - (k + 1 : ℕ)) = some n ∧
      Decimal.shortest b = Decimal.stripZeros 20 ⟨n, b.magnitude - (k + 1 : ℕ)⟩ ∧
      ∀ j < k, b.onGrid? (b.magnitude - (j + 1 : ℕ)) = none := by
  unfold Decimal.shortest
  dsimp only
  cases hfound : (List.range 17).findSome? fun n =>
      (b.onGrid? (b.magnitude - (n + 1 : ℕ))).map fun digits => (⟨digits, b.magnitude - (n + 1 : ℕ)⟩ : Decimal) with
  | none =>
    have hlast := List.findSome?_eq_none_iff.mp hfound 16 (by decide)
    exact absurd (Option.map_eq_none_iff.mp hlast) (onGrid?_seventeen hb)
  | some d =>
    obtain ⟨before, k, after, hrange, hk, hbefore⟩ := List.findSome?_eq_some_iff.mp hfound
    obtain ⟨n, hn, rfl⟩ := Option.map_eq_some_iff.mp hk
    have hascending := List.pairwise_lt_range (n := 17)
    rw [hrange] at hascending
    have hafter := (List.pairwise_cons.mp (List.pairwise_append.mp hascending).2.1).1
    have hmem : ∀ i, i < 17 ↔ i ∈ before ∨ i = k ∨ i ∈ after := by
      intro i
      rw [← List.mem_range, hrange, List.mem_append, List.mem_cons]
    have hlt : k < 17 := (hmem k).mpr (.inr (.inl rfl))
    refine ⟨k, n, hlt, hn, rfl, fun j hj => ?_⟩
    obtain hj' | rfl | hj' := (hmem j).mp (hj.trans hlt)
    · exact Option.map_eq_none_iff.mp (hbefore j hj')
    · exact absurd hj (lt_irrefl j)
    · exact absurd hj (hafter j hj').not_gt

/-- The shortest decimal of a double is rounded to that double. -/
theorem nearest_shortest (hb : IsFraction b) : nearest (decimalValue (Decimal.shortest b)) = fractionValue b := by
  obtain ⟨k, n, -, hfound, hshortest, -⟩ := exists_shortest hb
  have hwithin := within_of_onGrid? hb.pos hfound
  rw [hshortest, decimalValue_stripZeros, ← hwithin.nearest_eq hb, decimalValue, mul_assoc,
    div_mul_cancel₀ _ (two_zpow_pos _).ne']

/-! ## Whole numbers -/

/-- On a grid with the value itself a point is found. -/
theorem onGrid?_of_value (hb : IsFraction b) {grid : ℤ} {n : ℕ} (h : fractionValue b = n * 10 ^ grid) :
    b.onGrid? grid ≠ none := by
  intro hnone
  have hunit : (gridDen b grid / gridNum b grid : ℚ) = 10 ^ grid / 2 ^ b.exponent := gridDen_div_gridNum b grid
  have hnum : (0 : ℚ) < gridNum b grid := by exact_mod_cast gridNum_pos b grid
  have hden : 0 < gridDen b grid := Nat.mul_pos (Nat.pow_pos (by decide)) (Nat.pow_pos (by decide))
  have hpoint : (n * gridDen b grid / gridNum b grid : ℚ) = b.mantissa := by
    rw [mul_div_assoc, hunit, ← mul_div_assoc, ← h, fractionValue, mul_div_cancel_right₀ _ (two_zpow_pos _).ne']
  have hbelow : b.mantissa * gridNum b grid / gridDen b grid = n := by
    have hproduct : b.mantissa * gridNum b grid = n * gridDen b grid := by
      exact_mod_cast ((div_eq_iff hnum.ne').mp hpoint).symm
    rw [hproduct, Nat.mul_div_cancel _ hden]
  have hnot := (not_rounds_of_onGrid? hnone).1
  obtain ⟨hreach, -⟩ := reachBelow_bounds b
  rw [hbelow, ← Bool.not_eq_true, rounds_iff hb.pos (gridNum_pos b grid), hpoint] at hnot
  exact hnot (within_of_lt (by linarith) (by linarith))

theorem le_exponent_stripZeros (fuel : ℕ) (d : Decimal) : d.exponent ≤ (d.stripZeros fuel).exponent := by
  induction fuel generalizing d with
  | zero => exact le_rfl
  | succ fuel ih =>
    rw [Decimal.stripZeros]
    split_ifs
    · exact (Int.le_add_one le_rfl).trans (ih _)
    · exact le_rfl

/-- The shortest decimal of a whole number is that number, without a point. -/
theorem shortest_whole (hb : IsFraction b) {n : ℕ} (hn : fractionValue b = n) (hlt : n < 2 ^ 53) :
    0 ≤ (Decimal.shortest b).exponent ∧ decimalValue (Decimal.shortest b) = n := by
  obtain ⟨k, p, -, hfound, hshortest, hnone⟩ := exists_shortest hb
  have hten : (1 : ℚ) < 10 := by norm_num
  have hsmall : (n : ℚ) < 2 ^ 53 := by exact_mod_cast hlt
  have hone : (1 : ℚ) ≤ n := by
    have hpos := hb.value_pos
    rw [hn] at hpos
    exact_mod_cast hpos
  have hmagnitude : 0 < b.magnitude := by
    have hvalue := hone.trans_lt (hn ▸ (magnitude_bounds hb).2)
    rwa [← zpow_zero (10 : ℚ), zpow_lt_zpow_iff_right₀ hten] at hvalue
  -- The grid of the whole numbers has the value as a point, so no finer grid is looked at.
  have hgrid : 0 ≤ b.magnitude - (k + 1 : ℕ) := by
    by_contra hneg
    have hwhole := hnone (b.magnitude - 1).toNat (by omega)
    rw [show b.magnitude - ((b.magnitude - 1).toNat + 1 : ℕ) = 0 by omega] at hwhole
    exact onGrid?_of_value hb (by rw [hn, zpow_zero, mul_one]) hwhole
  have hexponent : b.exponent < 1 := by
    obtain hnormal | hlow := hb.normal.2.2
    · have hvalue : (2 : ℚ) ^ (b.exponent + 52) ≤ n := hn ▸ two_zpow_le_cast_mul hnormal le_rfl
      have hpower : (2 : ℚ) ^ (b.exponent + 52) < 2 ^ (53 : ℤ) := hvalue.trans_lt (by exact_mod_cast hsmall)
      rw [zpow_lt_zpow_iff_right₀ one_lt_two] at hpower
      omega
    · omega
  have hnear := (within_of_onGrid? hb.pos hfound).abs_sub_le.1
  generalize b.magnitude - (k + 1 : ℕ) = grid at hfound hshortest hgrid hnear
  obtain ⟨g, rfl⟩ := Int.eq_ofNat_of_zero_le hgrid
  have hpoint : p * 10 ^ g = n := by
    have hunit := two_zpow_pos b.exponent
    have hmantissa : (b.mantissa : ℚ) = n / 2 ^ b.exponent := by
      rw [← hn, fractionValue, mul_div_cancel_right₀ _ hunit.ne']
    rw [hmantissa, ← mul_div_assoc, ← sub_div, abs_div, abs_of_pos hunit, div_le_iff₀ hunit] at hnear
    have hless : |((p * 10 ^ g : ℕ) : ℚ) - n| < 1 := by
      have hle : (2 : ℚ) ^ b.exponent ≤ 2 ^ (0 : ℤ) := two_zpow_le (by omega)
      rw [zpow_zero] at hle
      push_cast
      rw [← zpow_natCast]
      linarith
    have hinteger : |((p * 10 ^ g : ℕ) : ℤ) - n| < 1 := by exact_mod_cast hless
    rw [Int.abs_lt_one_iff] at hinteger
    omega
  rw [hshortest]
  refine ⟨hgrid.trans (le_exponent_stripZeros 20 ⟨p, g⟩), ?_⟩
  rw [decimalValue_stripZeros, decimalValue, ← hpoint]
  push_cast
  rw [zpow_natCast]

end Allotment.Double
