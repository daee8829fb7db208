import Mathlib.Data.Int.Log
import Mathlib.Data.Rat.Floor
import Mathlib.Tactic.FieldSimp
import Mathlib.Tactic.Linarith
import Mathlib.Tactic.Ring

/-!
# Rounding to the nearest double

A rational number is rounded to the nearest number with 53 binary digits, or to the nearest multiple of
the smallest double if it is too small for so many; of two equally near the one with an even last digit
is taken. Exponents are not bounded above here. Rounding keeps the order, leaves doubles as they are, and
changes a number that is not too small by a part of `2⁻⁵³` at most.
-/

namespace Allotment.Double

/-- The integer nearest to a number, of two the even one. -/
def nearestInt (x : ℚ) : ℤ :=
  if Int.fract x < 1 / 2 then ⌊x⌋
  else if 1 / 2 < Int.fract x then ⌊x⌋ + 1
  else ⌊x⌋ + ⌊x⌋ % 2

theorem nearestInt_bounds (x : ℚ) : ⌊x⌋ ≤ nearestInt x ∧ nearestInt x ≤ ⌊x⌋ + 1 := by
  have hnonneg := Int.emod_nonneg ⌊x⌋ (by decide : (2 : ℤ) ≠ 0)
  have hlt := Int.emod_lt_of_pos ⌊x⌋ (by decide : (0 : ℤ) < 2)
  unfold nearestInt
  split_ifs <;> omega

@[simp] theorem nearestInt_intCast (k : ℤ) : nearestInt k = k := by
  simp [nearestInt]

/-- The nearest integer is no further than a half. -/
theorem abs_nearestInt_sub_le (x : ℚ) : |(nearestInt x : ℚ) - x| ≤ 1 / 2 := by
  have hsplit := Int.floor_add_fract x
  have hnonneg := Int.fract_nonneg x
  have hlt := Int.fract_lt_one x
  unfold nearestInt
  split_ifs with hbelow habove
  · rw [abs_le]
    constructor <;> linarith
  · push_cast
    rw [abs_le]
    constructor <;> linarith
  · have hhalf : Int.fract x = 1 / 2 := le_antisymm (not_lt.mp habove) (not_lt.mp hbelow)
    obtain heven | hodd := Int.emod_two_eq_zero_or_one ⌊x⌋
    · rw [heven, add_zero, abs_le]
      constructor <;> linarith
    · rw [hodd, abs_le]
      push_cast
      constructor <;> linarith

theorem nearestInt_mono {x y : ℚ} (h : x ≤ y) : nearestInt x ≤ nearestInt y := by
  obtain hlt | heq := (Int.floor_le_floor h).lt_or_eq
  · exact (nearestInt_bounds x).2.trans (hlt.trans_le (nearestInt_bounds y).1)
  · have hfract : Int.fract x ≤ Int.fract y := by
      have hx := Int.floor_add_fract x
      have hy := Int.floor_add_fract y
      rw [heq] at hx
      linarith
    have hlt := Int.emod_lt_of_pos ⌊y⌋ (by decide : (0 : ℤ) < 2)
    have hnonneg := Int.emod_nonneg ⌊y⌋ (by decide : (2 : ℤ) ≠ 0)
    unfold nearestInt
    rw [heq]
    split_ifs <;> first | omega | linarith

theorem nearestInt_neg (x : ℚ) : nearestInt (-x) = -nearestInt x := by
  by_cases hint : Int.fract x = 0
  · obtain ⟨k, rfl⟩ : ∃ k : ℤ, x = k := ⟨⌊x⌋, by simpa [hint] using (Int.floor_add_fract x).symm⟩
    rw [← Int.cast_neg, nearestInt_intCast, nearestInt_intCast]
  · have hfract : Int.fract (-x) = 1 - Int.fract x := Int.fract_neg hint
    have hfloor : ⌊-x⌋ = -⌊x⌋ - 1 := by
      have hneg := Int.floor_add_fract (-x)
      have hpos := Int.floor_add_fract x
      rw [hfract] at hneg
      have hcast : ((⌊-x⌋ : ℤ) : ℚ) = ((-⌊x⌋ - 1 : ℤ) : ℚ) := by
        push_cast
        linarith
      exact_mod_cast hcast
    unfold nearestInt
    rw [hfract, hfloor]
    split_ifs <;> first | omega | linarith

/-! ## The grid of a number -/

/-- The exponent of the unit in the last place of a number. -/
def gridExponent (x : ℚ) : ℤ := max (Int.log 2 |x| - 52) (-1074)

/-- The double nearest to a number, were exponents not bounded above. -/
def nearest (x : ℚ) : ℚ := nearestInt (x / 2 ^ gridExponent x) * 2 ^ gridExponent x

/-- Whether a number has 53 binary digits and is a multiple of the smallest double. -/
def IsDouble (x : ℚ) : Prop := ∃ m e : ℤ, |m| ≤ 2 ^ 53 ∧ -1074 ≤ e ∧ x = m * 2 ^ e

theorem two_zpow_pos (e : ℤ) : (0 : ℚ) < 2 ^ e := zpow_pos (by norm_num) e

theorem two_zpow_add (d e : ℤ) : (2 : ℚ) ^ (d + e) = 2 ^ d * 2 ^ e :=
  zpow_add₀ (by norm_num) d e

theorem two_pow_mul_two_zpow_neg (n : ℕ) : (2 : ℚ) ^ n * 2 ^ (-n : ℤ) = 1 := by
  rw [zpow_neg, zpow_natCast, mul_inv_cancel₀ (by positivity)]

theorem two_zpow_le {d e : ℤ} (h : d ≤ e) : (2 : ℚ) ^ d ≤ 2 ^ e :=
  zpow_le_zpow_right₀ (by norm_num) h

theorem two_zpow_le_iff {x : ℚ} (h : 0 < x) (k : ℤ) : (2 : ℚ) ^ k ≤ x ↔ k ≤ Int.log 2 x := by
  exact_mod_cast Int.zpow_le_iff_le_log (b := 2) (by norm_num) h

theorem lt_two_zpow_iff {x : ℚ} (h : 0 < x) (k : ℤ) : x < 2 ^ k ↔ Int.log 2 x < k := by
  exact_mod_cast Int.lt_zpow_iff_log_lt (b := 2) (by norm_num) h

theorem two_zpow_log_le {x : ℚ} (h : 0 < x) : (2 : ℚ) ^ Int.log 2 x ≤ x := by
  exact_mod_cast Int.zpow_log_le_self (b := 2) (by norm_num) h

theorem lt_two_zpow_log (x : ℚ) : x < 2 ^ (Int.log 2 x + 1) := by
  exact_mod_cast Int.lt_zpow_succ_log_self (b := 2) (by norm_num) x

/-- A power of two is a multiple of every smaller one. -/
theorem exists_two_zpow {d e : ℤ} (h : d ≤ e) : ∃ k : ℤ, (2 : ℚ) ^ e = k * 2 ^ d := by
  obtain ⟨n, rfl⟩ := Int.le.dest h
  refine ⟨2 ^ n, ?_⟩
  rw [add_comm, two_zpow_add]
  push_cast
  rw [zpow_natCast]

theorem gridExponent_mono {x y : ℚ} (hx : x ≠ 0) (h : |x| ≤ |y|) :
    gridExponent x ≤ gridExponent y :=
  max_le_max_right _ (sub_le_sub_right (Int.log_mono_right (abs_pos.mpr hx) h) 52)

theorem gridExponent_neg (x : ℚ) : gridExponent (-x) = gridExponent x := by
  rw [gridExponent, gridExponent, abs_neg]

theorem nearest_neg (x : ℚ) : nearest (-x) = -nearest x := by
  rw [nearest, nearest, gridExponent_neg, neg_div, nearestInt_neg, Int.cast_neg, neg_mul]

/-- A multiple of the unit in the last place that is no smaller than a number is no smaller than the
nearest double. -/
theorem nearest_le_of_grid {x : ℚ} {k : ℤ} (h : x ≤ k * 2 ^ gridExponent x) :
    nearest x ≤ k * 2 ^ gridExponent x := by
  have hpos := two_zpow_pos (gridExponent x)
  have hint : nearestInt (x / 2 ^ gridExponent x) ≤ k := by
    rw [← nearestInt_intCast k]
    exact nearestInt_mono ((div_le_iff₀ hpos).mpr h)
  exact mul_le_mul_of_nonneg_right (by exact_mod_cast hint) hpos.le

/-- A multiple of the unit in the last place that is no larger than a number is no larger than the
nearest double. -/
theorem le_nearest_of_grid {x : ℚ} {k : ℤ} (h : k * 2 ^ gridExponent x ≤ x) :
    k * 2 ^ gridExponent x ≤ nearest x := by
  have hpos := two_zpow_pos (gridExponent x)
  have hint : k ≤ nearestInt (x / 2 ^ gridExponent x) := by
    rw [← nearestInt_intCast k]
    exact nearestInt_mono ((le_div_iff₀ hpos).mpr h)
  exact mul_le_mul_of_nonneg_right (by exact_mod_cast hint) hpos.le

theorem nearest_zero : nearest 0 = 0 := by
  simp [nearest, nearestInt]

theorem nearest_nonneg {x : ℚ} (h : 0 ≤ x) : 0 ≤ nearest x := by
  have hgrid := le_nearest_of_grid (x := x) (k := 0) (by simpa using h)
  simpa using hgrid

/-- Between numbers whose last places differ lies a power of two that both roundings respect. -/
theorem nearest_le_of_gridExponent_lt {x y : ℚ} (hx : 0 < x) (h : x ≤ y)
    (hgrid : gridExponent x < gridExponent y) : nearest x ≤ nearest y := by
  have hy : 0 < y := hx.trans_le h
  have hlog : Int.log 2 x < Int.log 2 y ∧ gridExponent y = Int.log 2 y - 52 := by
    unfold gridExponent at *
    rw [abs_of_pos hx, abs_of_pos hy] at *
    omega
  have hpower : (2 : ℚ) ^ Int.log 2 y = (2 ^ 52 : ℤ) * 2 ^ gridExponent y := by
    have hsplit := two_zpow_add 52 (gridExponent y)
    rw [hlog.2] at hsplit ⊢
    rw [add_sub_cancel] at hsplit
    exact_mod_cast hsplit
  obtain ⟨k, hk⟩ : ∃ k : ℤ, (2 : ℚ) ^ Int.log 2 y = k * 2 ^ gridExponent x :=
    exists_two_zpow (by omega)
  have hbelow : x ≤ (2 : ℚ) ^ Int.log 2 y :=
    (lt_two_zpow_log x).le.trans (two_zpow_le (by omega))
  have habove : (2 : ℚ) ^ Int.log 2 y ≤ y := two_zpow_log_le hy
  calc nearest x
    _ ≤ 2 ^ Int.log 2 y := by
      rw [hk] at hbelow ⊢
      exact nearest_le_of_grid hbelow
    _ ≤ nearest y := by
      rw [hpower] at habove ⊢
      exact le_nearest_of_grid habove

/-- Rounding keeps the order. -/
theorem nearest_mono {x y : ℚ} (h : x ≤ y) : nearest x ≤ nearest y := by
  have hpositive : ∀ x y : ℚ, 0 < x → x ≤ y → nearest x ≤ nearest y := by
    intro x y hx h
    have hle : gridExponent x ≤ gridExponent y :=
      gridExponent_mono hx.ne' (by rwa [abs_of_pos hx, abs_of_pos (hx.trans_le h)])
    obtain hlt | heq := hle.lt_or_eq
    · exact nearest_le_of_gridExponent_lt hx h hlt
    · have hpos := two_zpow_pos (gridExponent y)
      have hint := nearestInt_mono (div_le_div_of_nonneg_right h hpos.le)
      unfold nearest
      rw [heq]
      exact mul_le_mul_of_nonneg_right (by exact_mod_cast hint) hpos.le
  obtain hx | hx := lt_or_ge 0 x
  · exact hpositive x y hx h
  obtain hy | hy := le_or_gt 0 y
  · have hneg := nearest_nonneg (neg_nonneg.mpr hx)
    rw [nearest_neg] at hneg
    linarith [nearest_nonneg hy]
  · have hswap := hpositive (-y) (-x) (neg_pos.mpr hy) (neg_le_neg h)
    rw [nearest_neg, nearest_neg] at hswap
    exact neg_le_neg_iff.mp hswap

/-! ## Doubles -/

theorem IsDouble.neg {x : ℚ} (h : IsDouble x) : IsDouble (-x) := by
  obtain ⟨m, e, hm, he, rfl⟩ := h
  exact ⟨-m, e, by rwa [abs_neg], he, by push_cast; ring⟩

theorem isDouble_natCast {n : ℕ} (h : n ≤ 2 ^ 53) : IsDouble n :=
  ⟨n, 0, by rw [abs_of_nonneg] <;> omega, by norm_num, by simp⟩

theorem isDouble_two_zpow {e : ℤ} (h : -1074 ≤ e) : IsDouble (2 ^ e) :=
  ⟨1, e, by norm_num, h, by simp⟩

/-- A double can be written with at most `2⁵³ - 1` in front of the power of two. -/
theorem IsDouble.exists_lt {x : ℚ} (h : IsDouble x) :
    ∃ m e : ℤ, |m| < 2 ^ 53 ∧ -1074 ≤ e ∧ x = m * 2 ^ e := by
  obtain ⟨m, e, hm, he, rfl⟩ := h
  obtain hlt | heq := hm.lt_or_eq
  · exact ⟨m, e, hlt, he, rfl⟩
  · have hpower : (2 : ℚ) ^ (1 + e) = 2 * 2 ^ e := by
      rw [two_zpow_add, zpow_one]
    obtain rfl | rfl := eq_or_eq_neg_of_abs_eq heq
    · exact ⟨2 ^ 52, 1 + e, by norm_num, by omega, by rw [hpower]; push_cast; ring⟩
    · exact ⟨-2 ^ 52, 1 + e, by norm_num, by omega, by rw [hpower]; push_cast; ring⟩

/-- A double is a multiple of the unit in its last place. -/
theorem IsDouble.exists_grid {x : ℚ} (h : IsDouble x) : ∃ k : ℤ, x = k * 2 ^ gridExponent x := by
  obtain ⟨m, e, hm, he, rfl⟩ := h.exists_lt
  obtain rfl | hne := eq_or_ne m 0
  · exact ⟨0, by simp⟩
  have hle : gridExponent ((m : ℚ) * 2 ^ e) ≤ e := by
    have hpos : 0 < |(m : ℚ) * 2 ^ e| :=
      abs_pos.mpr (mul_ne_zero (by exact_mod_cast hne) (two_zpow_pos e).ne')
    have hlt : |(m : ℚ) * 2 ^ e| < 2 ^ (53 + e) := by
      rw [abs_mul, abs_of_pos (two_zpow_pos e), two_zpow_add]
      exact mul_lt_mul_of_pos_right (by exact_mod_cast hm) (two_zpow_pos e)
    have hlog : Int.log 2 |(m : ℚ) * 2 ^ e| < 53 + e := (lt_two_zpow_iff hpos _).mp hlt
    unfold gridExponent
    omega
  obtain ⟨k, hk⟩ := exists_two_zpow hle
  refine ⟨m * k, ?_⟩
  rw [Int.cast_mul, mul_assoc, ← hk]

/-- A double is left as it is. -/
theorem IsDouble.nearest_eq {x : ℚ} (h : IsDouble x) : nearest x = x := by
  obtain ⟨k, hk⟩ := h.exists_grid
  have hquotient : x / 2 ^ gridExponent x = k :=
    (div_eq_iff (two_zpow_pos _).ne').mpr hk
  rw [nearest, hquotient, nearestInt_intCast]
  exact hk.symm

theorem IsDouble.nearest_le {x z : ℚ} (hz : IsDouble z) (h : x ≤ z) : nearest x ≤ z :=
  (nearest_mono h).trans_eq hz.nearest_eq

theorem IsDouble.le_nearest {x z : ℚ} (hz : IsDouble z) (h : z ≤ x) : z ≤ nearest x :=
  hz.nearest_eq.symm.trans_le (nearest_mono h)

/-- Rounding to the last place leaves 53 digits, or the next power of two. -/
theorem abs_nearestInt_grid_le (x : ℚ) : |nearestInt (x / 2 ^ gridExponent x)| ≤ 2 ^ 53 := by
  have hpos := two_zpow_pos (gridExponent x)
  have hle : |x| ≤ 2 ^ 53 * 2 ^ gridExponent x := by
    have hexponent : Int.log 2 |x| + 1 ≤ 53 + gridExponent x := by
      unfold gridExponent
      omega
    have hpower := two_zpow_add 53 (gridExponent x)
    calc |x|
      _ ≤ 2 ^ (Int.log 2 |x| + 1) := (lt_two_zpow_log |x|).le
      _ ≤ 2 ^ (53 + gridExponent x) := two_zpow_le hexponent
      _ = 2 ^ 53 * 2 ^ gridExponent x := by exact_mod_cast hpower
  have hupper := (abs_le.mp hle).2
  have hlower := (abs_le.mp hle).1
  rw [abs_le]
  constructor
  · rw [← nearestInt_intCast (-2 ^ 53)]
    apply nearestInt_mono
    rw [le_div_iff₀ hpos]
    push_cast
    linarith
  · rw [← nearestInt_intCast (2 ^ 53)]
    apply nearestInt_mono
    rw [div_le_iff₀ hpos]
    push_cast
    linarith

/-- Rounding to the last place leaves no fewer than 53 digits of what is not too small. -/
theorem le_nearestInt_grid {x : ℚ} (hx : 0 < x) :
    2 ^ 52 ≤ nearestInt (x / 2 ^ gridExponent x) ∨ gridExponent x = -1074 := by
  obtain hgrid | hgrid := max_choice (Int.log 2 |x| - 52) (-1074)
  · left
    change gridExponent x = _ at hgrid
    rw [abs_of_pos hx] at hgrid
    have hpower := two_zpow_add 52 (gridExponent x)
    rw [hgrid, add_sub_cancel] at hpower
    rw [← nearestInt_intCast (2 ^ 52)]
    apply nearestInt_mono
    rw [le_div_iff₀ (two_zpow_pos _), hgrid]
    calc (((2 ^ 52 : ℤ)) : ℚ) * 2 ^ (Int.log 2 x - 52)
      _ = 2 ^ Int.log 2 x := by exact_mod_cast hpower.symm
      _ ≤ x := two_zpow_log_le hx
  · exact .inr hgrid

/-- The nearest double is a double. -/
theorem isDouble_nearest (x : ℚ) : IsDouble (nearest x) :=
  ⟨_, _, abs_nearestInt_grid_le x, le_max_right _ _, rfl⟩

/-! ## Errors -/

/-- Rounding changes a number by half a unit in the last place at most. -/
theorem abs_nearest_sub_le (x : ℚ) : |nearest x - x| ≤ 2 ^ gridExponent x / 2 := by
  have hpos := two_zpow_pos (gridExponent x)
  have hscaled : nearest x - x =
      (nearestInt (x / 2 ^ gridExponent x) - x / 2 ^ gridExponent x) * 2 ^ gridExponent x := by
    rw [nearest]
    field_simp
  rw [hscaled, abs_mul, abs_of_pos hpos]
  calc _ ≤ 1 / 2 * 2 ^ gridExponent x :=
        mul_le_mul_of_nonneg_right (abs_nearestInt_sub_le _) hpos.le
    _ = 2 ^ gridExponent x / 2 := by ring

/-- Rounding changes a number that is not too small by a part of `2⁻⁵³` at most. -/
theorem abs_nearest_sub_le_mul {x : ℚ} (h : 2 ^ (-1022 : ℤ) ≤ x) :
    |nearest x - x| ≤ x * 2 ^ (-53 : ℤ) := by
  have hpos : 0 < x := (two_zpow_pos _).trans_le h
  have hlog : -1022 ≤ Int.log 2 x := (two_zpow_le_iff hpos _).mp h
  have hgrid : gridExponent x = Int.log 2 x + -53 + 1 := by
    unfold gridExponent
    rw [abs_of_pos hpos]
    omega
  calc |nearest x - x|
    _ ≤ 2 ^ gridExponent x / 2 := abs_nearest_sub_le x
    _ = 2 ^ Int.log 2 x * 2 ^ (-53 : ℤ) := by
      rw [hgrid, two_zpow_add, two_zpow_add, zpow_one]
      ring
    _ ≤ x * 2 ^ (-53 : ℤ) := mul_le_mul_of_nonneg_right (two_zpow_log_le hpos) (two_zpow_pos _).le

/-- What is added to a power of two is rounded away if it comes to half a unit in the last place at most. -/
theorem nearest_le_two_zpow {x : ℚ} {e : ℤ} (he : -1022 ≤ e) (h : x ≤ 2 ^ e + 2 ^ (e - 53)) :
    nearest x ≤ 2 ^ e := by
  have hpos := two_zpow_pos e
  have hhalf : (2 : ℚ) ^ (e - 53) < 2 ^ e := zpow_lt_zpow_right₀ (by norm_num) (by omega)
  have hsum : (0 : ℚ) < 2 ^ e + 2 ^ (e - 53) := add_pos hpos (two_zpow_pos _)
  have hgrid : gridExponent ((2 : ℚ) ^ e + 2 ^ (e - 53)) = e - 52 := by
    have hlow := (two_zpow_le_iff hsum e).mp (le_add_of_nonneg_right (two_zpow_pos _).le)
    have hhigh := (lt_two_zpow_iff hsum (e + 1)).mp (by rw [two_zpow_add, zpow_one]; linarith)
    unfold gridExponent
    rw [abs_of_pos hsum]
    omega
  have hunits : (2 : ℚ) ^ e = 2 ^ (52 : ℤ) * 2 ^ (e - 52) := by rw [← two_zpow_add, add_sub_cancel]
  have hscaled : ((2 : ℚ) ^ e + 2 ^ (e - 53)) / 2 ^ (e - 52) = ((2 ^ 52 : ℤ) : ℚ) + 1 / 2 := by
    rw [div_eq_iff (two_zpow_pos _).ne', add_mul, show e - 53 = -1 + (e - 52) by ring,
      two_zpow_add (-1), hunits]
    norm_num
  -- the last digit of a power of two is even, so a half is rounded down
  have hdown : nearestInt (((2 ^ 52 : ℤ) : ℚ) + 1 / 2) = 2 ^ 52 := by
    have hfloor : ⌊((2 ^ 52 : ℤ) : ℚ) + 1 / 2⌋ = 2 ^ 52 := by
      rw [Int.floor_intCast_add]
      norm_num
    unfold nearestInt Int.fract
    rw [hfloor]
    norm_num
  calc nearest x
    _ ≤ nearest ((2 : ℚ) ^ e + 2 ^ (e - 53)) := nearest_mono h
    _ = 2 ^ (52 : ℤ) * 2 ^ (e - 52) := by
      rw [nearest, hgrid, hscaled, hdown]
      norm_num
    _ = 2 ^ e := hunits.symm

end Allotment.Double
