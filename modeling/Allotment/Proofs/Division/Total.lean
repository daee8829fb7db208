import Allotment.Proofs.Division.Shares
import Mathlib.Algebra.BigOperators.Ring.List
import Mathlib.Algebra.Order.BigOperators.Group.List

/-!
# The sum of the shares

The shares of a dimension add up to the total, or to the caps if these are less, but for what truncation
takes from each claimant and for what the ratio is off. The ratio is off by one unit of the last
bisection: a part of `2⁻²⁴` if it was doubled, and `2⁻²⁵` otherwise. So the sum is no larger than the
total as long as neither the total nor the sum of the weights exceeds `2²³`, and larger totals may be
exceeded. It is no smaller than the total but for one unit per claimant, as long as no weight is so small
that all doublings leave it below its cap.
-/

namespace Allotment.Division

open Double

variable {o : Outlook} {d : Dimension} {cs : List (Claimant Float)} {total : Amount}

/-- The least share of a claimant in a dimension. -/
def least (o : Outlook) (d : Dimension) (c : Claimant Float) : ℕ :=
  min (c.minShare.get d).toNat (cap o d c).toNat

/-- Whether the least shares of those that take part fit into a total that is a double. -/
structure Feasible (o : Outlook) (total : Amount) (d : Dimension) (cs : List (Claimant Float)) :
    Prop where
  finite : ∀ c ∈ counted o cs, c.weight.isFinite = true
  exact : total.toNat ≤ 2 ^ 53
  fits : ((counted o cs).map (least o d)).sum ≤ total.toNat

/-- What the fixed shares take. -/
def taken (o : Outlook) (d : Dimension) (cs : List (Claimant Float)) : ℕ :=
  ((fixedOf o cs).map (least o d)).sum

theorem sum_fixed_add_free (f : Claimant Float → ℕ) (o : Outlook) (cs : List (Claimant Float)) :
    ((fixedOf o cs).map f).sum + ((freeOf o cs).map f).sum = ((counted o cs).map f).sum := by
  rw [← List.sum_append, ← List.map_append]
  exact ((List.filter_append_perm isFixed (counted o cs)).map f).sum_eq

theorem mem_counted_of_mem_fixed {c : Claimant Float} (h : c ∈ fixedOf o cs) : c ∈ counted o cs :=
  List.mem_of_mem_filter h

theorem mem_counted_of_mem_free {c : Claimant Float} (h : c ∈ freeOf o cs) : c ∈ counted o cs :=
  List.mem_of_mem_filter h

/-- Cutting the summands at a bound does not take the sum below what the bound allows. -/
theorem le_sum_min {α : Type} {f : α → ℕ} {xs : List α} {k b : ℕ} (hk : k ≤ b) (h : k ≤ (xs.map f).sum) :
    k ≤ (xs.map fun a => min (f a) b).sum := by
  induction xs generalizing k with
  | nil => exact h
  | cons a xs ih =>
    rw [List.map_cons, List.sum_cons] at h ⊢
    have hrest := ih (k := k - f a) (by omega) (by omega)
    omega

/-- The sum of the caps of the claimants whose shares follow the ratio. -/
theorem caps_nonneg (o : Outlook) (d : Dimension) (cs : List (Claimant Float)) :
    Nonneg (Scalar.sum ((freeOf o cs).map fun c => (Scalar.ofUInt64 (cap o d c) : Float))) :=
  sum_nonneg fun _ _ => ofUInt64_nonneg _

/-- Summands that are no smaller than the caps, as far as these are doubles, reach the sum of the caps. -/
theorem le_sum_of_caps {f : Claimant Float → Float} (hf : ∀ c ∈ freeOf o cs, Nonneg (f c))
    (hcaps : ∀ c ∈ freeOf o cs, ((min (cap o d c).toNat (2 ^ 53) : ℕ) : ℚ) ≤ value (f c)) {k : ℕ}
    (hk : k ≤ 2 ^ 53) (hsum : k ≤ ((freeOf o cs).map fun c => (cap o d c).toNat).sum) :
    (k : ℚ) ≤ value (Scalar.sum ((freeOf o cs).map f)) := by
  have hgrid := grid_le_sum (g := 0) (by norm_num) hf (by simpa using hcaps) hk (le_sum_min hk hsum)
  simpa using hgrid

theorem min_cap_le_nearest (o : Outlook) (d : Dimension) (c : Claimant Float) :
    ((min (cap o d c).toNat (2 ^ 53) : ℕ) : ℚ) ≤ nearest (cap o d c).toNat :=
  (isDouble_natCast (min_le_right _ _)).le_nearest (by exact_mod_cast min_le_left _ _)

/-- The share of a claimant whose share follows the ratio. -/
theorem shareOf_of_mem_free {c : Claimant Float} (hc : c ∈ freeOf o cs) (r : Float) :
    shareOf o d r c = Scalar.toUInt64 (shareAt o d r c) := by
  have hcounts : counts o c = true := List.of_mem_filter (mem_counted_of_mem_free hc)
  have hfree : isFixed c = false := by simpa using List.of_mem_filter hc
  simp [shareOf, hcounts, hfree]

namespace Feasible

variable (h : Feasible o total d cs)

include h

theorem taken_add_free : taken o d cs + ((freeOf o cs).map (least o d)).sum ≤ total.toNat :=
  (sum_fixed_add_free _ o cs).trans_le h.fits

theorem least_le {c : Claimant Float} (hc : c ∈ counted o cs) : least o d c ≤ 2 ^ 53 :=
  ((List.le_sum_of_mem (List.mem_map_of_mem hc)).trans h.fits).trans h.exact

/-- The fixed shares are what is least. -/
theorem value_fixedShare {c : Claimant Float} (hc : c ∈ counted o cs) :
    value (fixedShare o d c) = least o d c := by
  have hdouble := isDouble_natCast (h.least_le hc)
  rw [least, Nat.cast_min] at hdouble
  rw [(fixedShare_eq o d c).2, hdouble.nearest_eq, least, Nat.cast_min]

/-- What the fixed shares take is computed exactly. -/
theorem exactly_taken :
    Exactly (Scalar.sum ((fixedOf o cs).map (fixedShare o d))) (taken o d cs) := by
  have hnonneg : ∀ c ∈ fixedOf o cs, Nonneg (fixedShare o d c) := fun c _ => (fixedShare_eq o d c).1
  have htaken : taken o d cs ≤ 2 ^ 53 := by
    have := h.taken_add_free
    have := h.exact
    omega
  refine exactly_natCast (sum_nonneg hnonneg).number ?_ htaken
  exact sum_eq_natCast hnonneg (fun c hc => h.value_fixedShare (mem_counted_of_mem_fixed hc)) htaken

/-- What is left of the total is computed exactly. -/
theorem exactly_left :
    Exactly (Scalar.ofUInt64 total - Scalar.sum ((fixedOf o cs).map (fixedShare o d)))
      (total.toNat - taken o d cs : ℕ) := by
  have htotal := exactly_ofUInt64 h.exact
  have htaken := h.exactly_taken
  have hle : taken o d cs ≤ total.toNat := le_of_add_le_left h.taken_add_free
  have hdifference := sub_eq htotal.finite htaken.finite
  rw [htotal.value_eq, htaken.value_eq, ← Nat.cast_sub hle] at hdifference
  have hexact := h.exact
  refine exactly_natCast hdifference.1 (hdifference.2.trans ?_) (by omega)
  exact (isDouble_natCast (by omega)).rounded_eq (Nat.cast_nonneg _) (natCast_lt_limit (by omega)).le

/-- The target is what is left of the total, or the sum of the caps. -/
theorem target_eq : Scalar.isNaN (target o total d cs) = false ∧ value (target o total d cs) =
    min ((total.toNat - taken o d cs : ℕ) : ℚ)
      (value (Scalar.sum ((freeOf o cs).map fun c => (Scalar.ofUInt64 (cap o d c) : Float)))) := by
  have hleft := h.exactly_left
  have hcaps := caps_nonneg o d cs
  have hmax := isNaN_max hleft.number exactly_zero.number
  have hvalue := value_max hleft.number exactly_zero.number
  rw [hleft.value_eq, exactly_zero.value_eq, max_eq_left (Nat.cast_nonneg _)] at hvalue
  refine ⟨isNaN_min hmax hcaps.number, (value_min hmax hcaps.number).trans ?_⟩
  rw [hvalue]

/-- The target is no larger than what is left of the total. -/
theorem target_le : value (target o total d cs) ≤ (total.toNat - taken o d cs : ℕ) :=
  h.target_eq.2.trans_le (min_le_left _ _)

/-- The weight of a claimant whose share follows the ratio is finite and positive. -/
theorem weight_pos {c : Claimant Float} (hc : c ∈ freeOf o cs) :
    c.weight.isFinite = true ∧ 0 < value c.weight := by
  have hfinite := h.finite c (mem_counted_of_mem_free hc)
  have hnot : isFixed c = false := by simpa using List.of_mem_filter hc
  refine ⟨hfinite, ?_⟩
  rw [← not_le, ← isFixed_iff (isNaN_of_isFinite hfinite), hnot]
  exact Bool.false_ne_true

/-- The shares at a finite ratio. -/
theorem shareAt_nonneg {r : Float} (hr : r.isFinite = true) {c : Claimant Float} (hc : c ∈ freeOf o cs) :
    Nonneg (shareAt o d r c) :=
  (shareAt_eq (mul_eq hr (h.weight_pos hc).1).1 o d).1

theorem usedAt_nonneg {r : Float} (hr : r.isFinite = true) : Nonneg (usedAt o d (freeOf o cs) r) :=
  sum_nonneg fun _ hc => h.shareAt_nonneg hr hc

/-- A larger ratio gives larger shares. -/
theorem shareAt_mono {r s : Float} (hr : r.isFinite = true) (hs : s.isFinite = true)
    (hrs : value r ≤ value s) {c : Claimant Float} (hc : c ∈ freeOf o cs) :
    value (shareAt o d r c) ≤ value (shareAt o d s c) := by
  obtain ⟨hfinite, hpos⟩ := h.weight_pos hc
  obtain ⟨hnumberR, hproductR⟩ := mul_eq hr hfinite
  obtain ⟨hnumberS, hproductS⟩ := mul_eq hs hfinite
  rw [(shareAt_eq hnumberR o d).2, (shareAt_eq hnumberS o d).2, hproductR, hproductS]
  exact min_le_min_right _ (max_le_max_right _
    (rounded_mono (mul_le_mul_of_nonneg_right hrs hpos.le)))

theorem usedAt_mono {r s : Float} (hr : r.isFinite = true) (hs : s.isFinite = true)
    (hrs : value r ≤ value s) :
    value (usedAt o d (freeOf o cs) r) ≤ value (usedAt o d (freeOf o cs) s) :=
  sum_le_sum (fun _ hc => h.shareAt_nonneg hr hc) (fun _ hc => h.shareAt_nonneg hs hc)
    fun _ hc => h.shareAt_mono hr hs hrs hc

/-- Whether the shares at a ratio fall short of the target is a comparison of values. -/
theorem lt_target_iff {r : Float} (hr : r.isFinite = true) :
    Scalar.lt (usedAt o d (freeOf o cs) r) (target o total d cs) = true ↔
      value (usedAt o d (freeOf o cs) r) < value (target o total d cs) :=
  lt_iff_value_lt (h.usedAt_nonneg hr).number h.target_eq.1

/-- Where the ratio lies. -/
theorem exists_level : ∃ (j k : ℕ) (x : Float), j ≤ 64 ∧ k + 1 ≤ 2 ^ 25 ∧ (j = 0 ∨ 2 ^ 24 ≤ k) ∧
    Exactly x (k * 2 ^ (j - 25 : ℤ)) ∧
    Exactly (level o total d cs) ((k + 1 : ℕ) * 2 ^ (j - 25 : ℤ)) ∧
    (k = 0 ∨ value (usedAt o d (freeOf o cs) x) < value (target o total d cs)) ∧
    (value (level o total d cs) = 2 ^ (64 : ℤ) ∨
      value (target o total d cs) ≤ value (usedAt o d (freeOf o cs) (level o total d cs))) := by
  obtain ⟨j, k, x, hj, hk, hx, hlevel, hbelow, habove, hbefore⟩ :=
    exists_ratio (usedAt o d (freeOf o cs)) (target o total d cs)
  change Exactly (level o total d cs) _ at hlevel
  change _ ∨ Scalar.lt (usedAt o d (freeOf o cs) (level o total d cs)) _ = false at habove
  rw [← Bool.not_eq_true, h.lt_target_iff hlevel.finite, not_lt] at habove
  refine ⟨j, k, x, hj, hk, ?_, hx, hlevel, hbelow.imp_right (h.lt_target_iff hx.finite).mp, ?_⟩
  · -- a ratio that reaches the target is larger than a power of two that does not
    refine hbefore.imp_right ?_
    rintro ⟨y, hy, hlt⟩
    rw [h.lt_target_iff hy.finite] at hlt
    obtain ⟨-, hlast⟩ | habove := habove
    · omega
    · by_contra hsmall
      have hle : value (level o total d cs) ≤ value y := by
        have hpower : (2 : ℚ) ^ (j - 1 : ℤ) = (2 ^ 24 : ℕ) * 2 ^ (j - 25 : ℤ) := by
          rw [show (j - 1 : ℤ) = 24 + (j - 25) by ring, two_zpow_add]
          norm_cast
        rw [hlevel.value_eq, hy.value_eq, hpower]
        exact mul_le_mul_of_nonneg_right (by exact_mod_cast (by omega : k + 1 ≤ 2 ^ 24))
          (two_zpow_pos _).le
      have hused := h.usedAt_mono hlevel.finite hy.finite hle
      linarith
  · refine habove.imp_left ?_
    rintro ⟨rfl, hlast⟩
    rw [hlevel.value_eq, hlast]
    norm_num

/-! ### From below -/

/-- At the largest ratio, claimants whose weight is not too small get their caps. -/
theorem min_cap_le_shareAt {r : Float} (hr : r.isFinite = true) (hvalue : value r = 2 ^ (64 : ℤ))
    {c : Claimant Float} (hc : c ∈ freeOf o cs) (hweight : 2 ^ (-11 : ℤ) ≤ value c.weight) :
    ((min (cap o d c).toNat (2 ^ 53) : ℕ) : ℚ) ≤ value (shareAt o d r c) := by
  obtain ⟨hnumber, hproduct⟩ := mul_eq hr (h.weight_pos hc).1
  have hlarge : ((2 ^ 53 : ℕ) : ℚ) ≤ value (r * c.weight) := by
    rw [hproduct, hvalue]
    refine (isDouble_natCast le_rfl).le_rounded (natCast_lt_limit le_rfl).le ?_
    calc ((2 ^ 53 : ℕ) : ℚ)
      _ = 2 ^ (64 : ℤ) * 2 ^ (-11 : ℤ) := by norm_num
      _ ≤ 2 ^ (64 : ℤ) * value c.weight := mul_le_mul_of_nonneg_left hweight (two_zpow_pos _).le
  rw [(shareAt_eq hnumber o d).2]
  refine le_min (le_max_of_le_left (le_trans ?_ hlarge)) (min_cap_le_nearest o d c)
  exact_mod_cast min_le_right _ _

/-- The shares reach what is left of the total, or the caps, before they are truncated. -/
theorem le_usedAt_level (hweights : ∀ c ∈ freeOf o cs, 2 ^ (-11 : ℤ) ≤ value c.weight) :
    ((min (total.toNat - taken o d cs) ((freeOf o cs).map fun c => (cap o d c).toNat).sum : ℕ) : ℚ) ≤
      value (usedAt o d (freeOf o cs) (level o total d cs)) := by
  obtain ⟨j, k, x, -, -, -, -, hlevel, -, hreach⟩ := h.exists_level
  have hexact := h.exact
  generalize hk : min (total.toNat - taken o d cs) ((freeOf o cs).map fun c => (cap o d c).toNat).sum = k
  have hbound : k ≤ 2 ^ 53 := by omega
  obtain hlargest | hreach := hreach
  · exact le_sum_of_caps (d := d) (fun _ hc => h.shareAt_nonneg hlevel.finite hc)
      (fun c hc => h.min_cap_le_shareAt hlevel.finite hlargest hc (hweights c hc)) hbound (by omega)
  · refine le_trans ?_ hreach
    rw [h.target_eq.2]
    refine le_min (by exact_mod_cast (by omega : k ≤ total.toNat - taken o d cs)) ?_
    refine le_sum_of_caps (d := d) (fun _ _ => ofUInt64_nonneg _) (fun c _ => ?_) hbound (by omega)
    rw [(ofUInt64_eq _).2]
    exact min_cap_le_nearest o d c

/-- Truncation takes less than one unit from each claimant. -/
theorem lt_sum_succ (hweights : ∀ c ∈ freeOf o cs, 2 ^ (-11 : ℤ) ≤ value c.weight)
    (hne : freeOf o cs ≠ []) :
    min (total.toNat - taken o d cs) ((freeOf o cs).map fun c => (cap o d c).toNat).sum <
      ((freeOf o cs).map fun c => (shareOf o d (level o total d cs) c).toNat + 1).sum := by
  obtain ⟨j, k, x, -, -, -, -, hlevel, -, -⟩ := h.exists_level
  have hreach := h.le_usedAt_level hweights
  have hexact := h.exact
  generalize level o total d cs = r at *
  by_cases hlarge : ((freeOf o cs).map fun c => (shareOf o d r c).toNat + 1).sum ≤ 2 ^ 53
  · have hpositive : 0 < ((freeOf o cs).map fun c => (shareOf o d r c).toNat + 1).sum := by
      obtain ⟨c, rest, hfree⟩ := List.exists_cons_of_ne_nil hne
      rw [hfree, List.map_cons, List.sum_cons]
      omega
    have hbelow : ∀ c ∈ freeOf o cs, value (shareAt o d r c) < ((shareOf o d r c).toNat + 1 : ℕ) := by
      intro c hc
      have hle : (shareOf o d r c).toNat + 1 ≤ 2 ^ 53 :=
        (List.single_le_sum (by simp) _ (List.mem_map_of_mem hc)).trans hlarge
      rw [shareOf_of_mem_free hc, toNat_toUInt64] at hle ⊢
      rw [min_eq_left (by omega)]
      exact_mod_cast Nat.lt_floor_add_one _
    have hsum := sum_le_mul (fun _ hc => h.shareAt_nonneg hlevel.finite hc) hbelow hlarge
    have hgap : (0 : ℚ) < 2 ^ (-53 : ℤ) := two_zpow_pos _
    have hcast : (0 : ℚ) < ((freeOf o cs).map fun c => (shareOf o d r c).toNat + 1).sum := by
      exact_mod_cast hpositive
    have hlt := (hreach.trans hsum).trans_lt (mul_lt_of_lt_one_right hcast (by linarith))
    exact_mod_cast hlt
  · omega

end Feasible

/-! ### From above -/

/-- The part by which shares at the two ends of the last interval may differ, with the multiples of
`2⁻ᵍ` that sums are made of. -/
def slack (g : ℕ) : ℚ := 2 ^ (-24 : ℤ) + 2 ^ (-52 : ℤ) + 2 ^ (-g : ℤ)

theorem slack_nonneg (g : ℕ) : 0 ≤ slack g :=
  add_nonneg (add_nonneg (two_zpow_pos _).le (two_zpow_pos _).le) (two_zpow_pos _).le

/-- Rounding two products that differ by little leaves them so. -/
theorem rounded_mul_le {P Q δ : ℚ} (hδ : 0 ≤ δ) (hQ : Q = 0 ∨ P ≤ 2 * Q)
    (hPQ : P * (1 - 2 ^ (-24 : ℤ)) - δ ≤ Q) (hP : 1 ≤ rounded P) :
    rounded P * (1 - (2 ^ (-24 : ℤ) + 2 ^ (-52 : ℤ))) - δ ≤ rounded Q := by
  have hhalf : 2 ^ (-1 : ℤ) < P := by
    by_contra hle
    have hmono := rounded_mono (not_lt.mp hle)
    rw [(isDouble_two_zpow (by norm_num)).rounded_eq (two_zpow_pos _).le
      (two_zpow_le (by norm_num))] at hmono
    norm_num at hmono
    linarith
  have hpos : 0 < P := (two_zpow_pos _).trans hhalf
  have herrorP := (abs_le.mp (abs_nearest_sub_le_mul
    ((two_zpow_le (by norm_num : (-1022 : ℤ) ≤ -1)).trans hhalf.le))).2
  have hupper := rounded_le_nearest hpos.le
  obtain rfl | hclose := hQ
  · rw [rounded_zero]
    norm_num at *
    linarith
  · have hquarter : (2 : ℚ) ^ (-2 : ℤ) ≤ Q := by
      norm_num at hhalf ⊢
      linarith
    have herrorQ := (abs_le.mp (abs_nearest_sub_le_mul
      ((two_zpow_le (by norm_num : (-1022 : ℤ) ≤ -2)).trans hquarter))).1
    have hlimit := rounded_le_limit P
    refine le_max_of_le_right (le_min ?_ ?_)
    · norm_num at *
      linarith
    · norm_num at *
      linarith

/-- Cutting two numbers to one range leaves them close, and so does truncation. -/
theorem floor_clamp_le {A B lo hi δ ρ : ℚ} {g : ℕ} (hρ : 0 ≤ ρ) (hρ' : ρ ≤ 1) (hδ : 0 ≤ δ) (hlo : 0 ≤ lo)
    (hhi : 0 ≤ hi) (hBA : B ≤ A) (hclose : 1 ≤ A → A * (1 - ρ) - δ ≤ B) :
    (⌊min (max A lo) hi⌋₊ : ℚ) * (1 - (ρ + 2 ^ (-g : ℤ))) ≤
      (⌊min (max B lo) hi * 2 ^ g⌋₊ : ℚ) * 2 ^ (-g : ℤ) + δ := by
  have hu := two_zpow_pos (-g)
  have hscale := two_pow_mul_two_zpow_neg g
  have hx : 0 ≤ min (max A lo) hi := le_min (le_max_of_le_right hlo) hhi
  have hfloor := Nat.floor_le hx
  have hgrid : min (max B lo) hi ≤ (⌊min (max B lo) hi * 2 ^ g⌋₊ : ℚ) * 2 ^ (-g : ℤ) + 2 ^ (-g : ℤ) := by
    have hlt := (Nat.lt_floor_add_one (min (max B lo) hi * 2 ^ g)).le
    calc min (max B lo) hi
      _ = min (max B lo) hi * 2 ^ g * 2 ^ (-g : ℤ) := by rw [mul_assoc, hscale, mul_one]
      _ ≤ (⌊min (max B lo) hi * 2 ^ g⌋₊ + 1) * 2 ^ (-g : ℤ) := mul_le_mul_of_nonneg_right hlt hu.le
      _ = _ := by rw [add_mul, one_mul]
  obtain hzero | hone := Nat.eq_zero_or_pos ⌊min (max A lo) hi⌋₊
  · rw [hzero, Nat.cast_zero, zero_mul]
    positivity
  have hone : (1 : ℚ) ≤ ⌊min (max A lo) hi⌋₊ := by exact_mod_cast hone
  -- the numbers differ only if the first is not cut from below, and then it is at least one
  have hcut : min (max A lo) hi * (1 - ρ) - δ ≤ min (max B lo) hi := by
    have hpart : min (max A lo) hi * (1 - ρ) - δ ≤ min (max A lo) hi := by
      have := mul_nonneg hx hρ
      linarith
    obtain hle | hlt := le_or_gt A lo
    · rw [max_eq_right hle] at hpart
      rw [max_eq_right hle, max_eq_right (hBA.trans hle)]
      exact hpart
    · rw [max_eq_left hlt.le] at *
      have hA := hclose ((hone.trans hfloor).trans (min_le_left _ _))
      refine le_min (le_max_of_le_left (le_trans ?_ hA)) (hpart.trans (min_le_right _ _))
      exact sub_le_sub_right (mul_le_mul_of_nonneg_right (min_le_left _ _) (by linarith)) δ
  have hcoarse := mul_le_mul_of_nonneg_right hfloor (by linarith : 0 ≤ 1 - ρ)
  have hunits := mul_le_mul_of_nonneg_right hone hu.le
  linarith

/-- Truncated parts that are close have sums that are. -/
theorem sum_mul_le {α : Type} {xs : List α} {m n : α → ℕ} {w : α → ℚ} {a b u : ℚ}
    (h : ∀ c ∈ xs, (m c : ℚ) * a ≤ n c * u + b * w c) :
    ((xs.map m).sum : ℚ) * a ≤ (xs.map n).sum * u + b * (xs.map w).sum := by
  induction xs with
  | nil => simp
  | cons c xs ih =>
    have hrest := ih fun c' hc' => h c' (.tail _ hc')
    have hfirst := h c (.head _)
    simp only [List.map_cons, List.sum_cons, Nat.cast_add]
    linarith

namespace Feasible

variable (h : Feasible o total d cs)

include h

/-- A share at the upper end of the last interval exceeds that at the lower end by little. -/
theorem floor_shareAt_le {j k : ℕ} {r x : Float} (hj : j = 0 ∨ 2 ^ 24 ≤ k)
    (hx : Exactly x (k * 2 ^ (j - 25 : ℤ))) (hr : Exactly r ((k + 1 : ℕ) * 2 ^ (j - 25 : ℤ)))
    {c : Claimant Float} (hc : c ∈ freeOf o cs) (g : ℕ) :
    (⌊value (shareAt o d r c)⌋₊ : ℚ) * (1 - slack g) ≤
      (⌊value (shareAt o d x c) * 2 ^ g⌋₊ : ℚ) * 2 ^ (-g : ℤ) + 2 ^ (-25 : ℤ) * value c.weight := by
  obtain ⟨hfinite, hpos⟩ := h.weight_pos hc
  obtain ⟨hnumberR, hproductR⟩ := mul_eq hr.finite hfinite
  obtain ⟨hnumberX, hproductX⟩ := mul_eq hx.finite hfinite
  rw [hr.value_eq] at hproductR
  rw [hx.value_eq] at hproductX
  have hunit : 0 < 2 ^ (j - 25 : ℤ) * value c.weight := mul_pos (two_zpow_pos _) hpos
  rw [(shareAt_eq hnumberR o d).2, (shareAt_eq hnumberX o d).2, hproductR, hproductX, slack,
    mul_assoc, mul_assoc]
  refine floor_clamp_le (by norm_num) (by norm_num) (mul_nonneg (two_zpow_pos _).le hpos.le)
    (nearest_nonneg (Nat.cast_nonneg _)) (nearest_nonneg (Nat.cast_nonneg _)) ?_ ?_
  · exact rounded_mono (mul_le_mul_of_nonneg_right (by exact_mod_cast k.le_succ) hunit.le)
  · refine rounded_mul_le (mul_nonneg (two_zpow_pos _).le hpos.le) ?_ ?_
    · obtain rfl | hk := Nat.eq_zero_or_pos k
      · exact .inl (by rw [Nat.cast_zero, zero_mul])
      · right
        have hk : ((k + 1 : ℕ) : ℚ) ≤ 2 * k := by exact_mod_cast (by omega : k + 1 ≤ 2 * k)
        rw [← mul_assoc 2]
        exact mul_le_mul_of_nonneg_right hk hunit.le
    · obtain rfl | hk := hj
      · have hstep : (2 : ℚ) ^ ((0 : ℕ) - 25 : ℤ) = 2 ^ (-25 : ℤ) := by norm_num
        have hsmall : (0 : ℚ) ≤ (k + 1 : ℕ) * (2 ^ (-25 : ℤ) * value c.weight) * 2 ^ (-24 : ℤ) := by
          positivity
        rw [hstep]
        push_cast at *
        linarith
      · have hk : ((k + 1 : ℕ) : ℚ) * (1 - 2 ^ (-24 : ℤ)) ≤ k := by
          have hcast : (2 ^ 24 : ℚ) ≤ k := by exact_mod_cast hk
          have hpart : (2 ^ 24 : ℚ) * 2 ^ (-24 : ℤ) = 1 := by norm_num
          have hstep := mul_le_mul_of_nonneg_right hcast (two_zpow_pos (-24)).le
          push_cast
          linarith [two_zpow_pos (-24)]
        have hscaled := mul_le_mul_of_nonneg_right hk hunit.le
        have hrest : 0 ≤ (2 : ℚ) ^ (-25 : ℤ) * value c.weight := mul_nonneg (two_zpow_pos _).le hpos.le
        linarith

/-- At the lower end of the last interval, the shares cut to multiples of `2⁻ᵍ` do not exceed what is left
of the total. -/
theorem sum_floor_le {k : ℕ} {x : Float} {e : ℤ} (hx : Exactly x (k * 2 ^ e))
    (hbelow : k = 0 ∨ value (usedAt o d (freeOf o cs) x) < value (target o total d cs)) {g : ℕ}
    (hg : g ≤ 53) (htotal : total.toNat ≤ 2 ^ (53 - g)) :
    ((freeOf o cs).map fun c => ⌊value (shareAt o d x c) * 2 ^ g⌋₊).sum ≤
      (total.toNat - taken o d cs) * 2 ^ g := by
  obtain rfl | hlt := hbelow
  · -- at ratio zero everyone has what is least
    have hleast : ∀ c ∈ freeOf o cs, ⌊value (shareAt o d x c) * 2 ^ g⌋₊ = least o d c * 2 ^ g := by
      intro c hc
      obtain ⟨hnumber, hproduct⟩ := mul_eq hx.finite (h.weight_pos hc).1
      have hdouble := isDouble_natCast (h.least_le (mem_counted_of_mem_free hc))
      have hvalue : value (shareAt o d x c) = least o d c := by
        rw [hx.value_eq, Nat.cast_zero, zero_mul, zero_mul, rounded_zero] at hproduct
        rw [(shareAt_eq hnumber o d).2, hproduct, max_eq_right (nearest_nonneg (Nat.cast_nonneg _)),
          ← nearest_min, ← Nat.cast_min]
        exact hdouble.nearest_eq
      rw [hvalue]
      exact_mod_cast Nat.floor_natCast (R := ℚ) (least o d c * 2 ^ g)
    rw [List.map_congr_left hleast, List.sum_map_mul_right]
    have hfits := h.taken_add_free
    exact Nat.mul_le_mul_right _ (by omega)
  · -- a sum of multiples that reached what is left would be computed as no less
    by_contra hlarge
    have hpower := two_zpow_pos (-g)
    have hscale := two_pow_mul_two_zpow_neg g
    have hfloor : ∀ c ∈ freeOf o cs,
        (⌊value (shareAt o d x c) * 2 ^ g⌋₊ : ℚ) * 2 ^ (-g : ℤ) ≤ value (shareAt o d x c) := by
      intro c hc
      have hnonneg := (h.shareAt_nonneg hx.finite hc (d := d)).nonneg
      calc (⌊value (shareAt o d x c) * 2 ^ g⌋₊ : ℚ) * 2 ^ (-g : ℤ)
        _ ≤ value (shareAt o d x c) * 2 ^ g * 2 ^ (-g : ℤ) :=
          mul_le_mul_of_nonneg_right (Nat.floor_le (by positivity)) hpower.le
        _ = value (shareAt o d x c) := by rw [mul_assoc, hscale, mul_one]
    have hdigits : (total.toNat - taken o d cs) * 2 ^ g ≤ 2 ^ 53 := by
      calc (total.toNat - taken o d cs) * 2 ^ g
        _ ≤ 2 ^ (53 - g) * 2 ^ g := Nat.mul_le_mul_right _ (by omega)
        _ = 2 ^ 53 := by rw [← pow_add, Nat.sub_add_cancel hg]
    have hgrid := grid_le_sum hg (fun _ hc => h.shareAt_nonneg hx.finite hc) hfloor hdigits
      (not_le.mp hlarge).le
    rw [Nat.cast_mul, Nat.cast_pow, Nat.cast_two, mul_assoc, hscale, mul_one] at hgrid
    exact absurd (hlt.trans_le h.target_le) (not_lt.mpr hgrid)

/-- The shares that follow the ratio exceed what is left of the total by little. -/
theorem sum_free_le {g : ℕ} (hg : g ≤ 53) (htotal : total.toNat ≤ 2 ^ (53 - g)) :
    (((freeOf o cs).map fun c => (shareOf o d (level o total d cs) c).toNat).sum : ℚ) * (1 - slack g) ≤
      (total.toNat - taken o d cs : ℕ) +
        2 ^ (-25 : ℤ) * ((freeOf o cs).map fun c => value c.weight).sum := by
  obtain ⟨j, k, x, -, -, hj, hx, hlevel, hbelow, -⟩ := h.exists_level
  have hpower := two_zpow_pos (-g)
  have hscale := two_pow_mul_two_zpow_neg g
  have hweights : 0 ≤ ((freeOf o cs).map fun c => value c.weight).sum :=
    List.sum_nonneg (by simpa using fun c hc => (h.weight_pos hc).2.le)
  have hmultiples : (((freeOf o cs).map fun c => ⌊value (shareAt o d x c) * 2 ^ g⌋₊).sum : ℚ) *
      2 ^ (-g : ℤ) ≤ (total.toNat - taken o d cs : ℕ) := by
    calc (((freeOf o cs).map fun c => ⌊value (shareAt o d x c) * 2 ^ g⌋₊).sum : ℚ) * 2 ^ (-g : ℤ)
      _ ≤ ((total.toNat - taken o d cs) * 2 ^ g : ℕ) * 2 ^ (-g : ℤ) :=
        mul_le_mul_of_nonneg_right (by exact_mod_cast h.sum_floor_le hx hbelow hg htotal) hpower.le
      _ = (total.toNat - taken o d cs : ℕ) := by
        rw [Nat.cast_mul, Nat.cast_pow, Nat.cast_two, mul_assoc, hscale, mul_one]
  have hsum := sum_mul_le fun c hc => h.floor_shareAt_le hj hx hlevel hc g (d := d)
  have htruncated : ((freeOf o cs).map fun c => (shareOf o d (level o total d cs) c).toNat).sum ≤
      ((freeOf o cs).map fun c => ⌊value (shareAt o d (level o total d cs) c)⌋₊).sum := by
    refine List.sum_le_sum fun c hc => ?_
    rw [shareOf_of_mem_free hc, toNat_toUInt64]
    exact min_le_left _ _
  obtain hslack | hslack := le_or_gt 0 (1 - slack g)
  · have hscaled := mul_le_mul_of_nonneg_right (Nat.cast_le (α := ℚ).mpr htruncated) hslack
    linarith
  · have hnegative := mul_nonpos_of_nonneg_of_nonpos
      (Nat.cast_nonneg (α := ℚ) ((freeOf o cs).map fun c => (shareOf o d (level o total d cs) c).toNat).sum)
      hslack.le
    have hleft := Nat.cast_nonneg (α := ℚ) (total.toNat - taken o d cs)
    have := mul_nonneg (two_zpow_pos (-25)).le hweights
    linarith

end Feasible

/-! ### The sum -/

/-- What the shares of a dimension add up to. -/
def sumOf (o : Outlook) (total : Resource) (d : Dimension) (cs : List (Claimant Float)) : ℕ :=
  ((fill o total cs).map fun s => (s.get d).toNat).sum

/-- Those that do not take part get nothing. -/
theorem sum_shareOf (o : Outlook) (d : Dimension) (r : Float) (cs : List (Claimant Float)) :
    (cs.map fun c => (shareOf o d r c).toNat).sum =
      ((counted o cs).map fun c => (shareOf o d r c).toNat).sum := by
  induction cs with
  | nil => rfl
  | cons c cs ih =>
    rw [List.map_cons, List.sum_cons, ih]
    unfold counted
    cases hcounts : counts o c
    · rw [List.filter_cons_of_neg (by simp [hcounts])]
      simp [shareOf, hcounts]
    · rw [List.filter_cons_of_pos hcounts, List.map_cons, List.sum_cons]

/-- The sum is what the fixed shares take and the shares that follow the ratio. -/
theorem Feasible.sumOf_eq {total : Resource} (h : Feasible o (total.get d) d cs) :
    sumOf o total d cs = taken o d cs +
      ((freeOf o cs).map fun c => (shareOf o d (level o (total.get d) d cs) c).toNat).sum := by
  have hfill : sumOf o total d cs =
      (cs.map fun c => (shareOf o d (level o (total.get d) d cs) c).toNat).sum := by
    have hget := congrArg (fun xs => (xs.map UInt64.toNat).sum) (get_fill o total cs d)
    unfold sumOf
    simpa only [List.map_map, Function.comp_def] using hget
  have hfixed : ∀ c ∈ fixedOf o cs,
      (shareOf o d (level o (total.get d) d cs) c).toNat = least o d c := by
    intro c hc
    have hcounts : counts o c = true := List.of_mem_filter (mem_counted_of_mem_fixed hc)
    have hle := h.least_le (mem_counted_of_mem_fixed hc)
    rw [shareOf_of_counts hcounts, if_pos (List.of_mem_filter hc), toNat_toUInt64,
      h.value_fixedShare (mem_counted_of_mem_fixed hc), Nat.floor_natCast]
    omega
  rw [hfill, sum_shareOf, ← sum_fixed_add_free, List.map_congr_left hfixed]
  rfl

/-- The sum of the shares: it exceeds the total by little, and not at all if neither the total nor the sum
of the positive weights exceeds `2²³`. If all weights are positive and none is too small, it is more than
the total, or the caps if these are less, minus one unit for each that takes part. -/
theorem Feasible.sum_bounds {total : Resource} (h : Feasible o (total.get d) d cs) :
    (∀ g ≤ 53, (total.get d).toNat ≤ 2 ^ (53 - g) →
      (sumOf o total d cs : ℚ) * (1 - slack g) ≤
        (total.get d).toNat + 2 ^ (-25 : ℤ) * ((freeOf o cs).map fun c => value c.weight).sum) ∧
    ((total.get d).toNat ≤ 2 ^ 23 → ((freeOf o cs).map fun c => value c.weight).sum ≤ 2 ^ 23 →
      sumOf o total d cs ≤ (total.get d).toNat) ∧
    (counted o cs ≠ [] → (∀ c ∈ counted o cs, 2 ^ (-11 : ℤ) ≤ value c.weight) →
      min (total.get d).toNat ((counted o cs).map fun c => (cap o d c).toNat).sum <
        sumOf o total d cs + (counted o cs).length) := by
  have hsum := h.sumOf_eq
  have hle := h.taken_add_free
  refine ⟨fun g hg htotal => ?_, fun htotal hweights => ?_, fun hne hweights => ?_⟩
  · have hfree := h.sum_free_le hg htotal
    have htaken : (0 : ℚ) ≤ taken o d cs * slack g :=
      mul_nonneg (Nat.cast_nonneg _) (slack_nonneg g)
    rw [Nat.cast_sub (by omega)] at hfree
    rw [hsum, Nat.cast_add]
    linarith
  · have hfree := h.sum_free_le (g := 30) (by norm_num) htotal
    by_contra hlarge
    have hexcess : (((total.get d).toNat - taken o d cs : ℕ) : ℚ) + 1 ≤
        ((freeOf o cs).map fun c => (shareOf o d (level o (total.get d) d cs) c).toNat).sum := by
      exact_mod_cast (by omega)
    have hleft : (((total.get d).toNat - taken o d cs : ℕ) : ℚ) ≤ 2 ^ 23 := by
      exact_mod_cast (Nat.sub_le _ _).trans htotal
    have hslack : slack 30 ≤ 2 ^ (-24 : ℤ) + 2 ^ (-29 : ℤ) := by norm_num [slack]
    have hpart : ((((total.get d).toNat - taken o d cs : ℕ) : ℚ) + 1) * slack 30 ≤ 5 / 8 := by
      calc ((((total.get d).toNat - taken o d cs : ℕ) : ℚ) + 1) * slack 30
        _ ≤ (2 ^ 23 + 1) * (2 ^ (-24 : ℤ) + 2 ^ (-29 : ℤ)) :=
          mul_le_mul (by linarith) hslack (slack_nonneg 30) (by norm_num)
        _ ≤ 5 / 8 := by norm_num
    have hscaled := mul_le_mul_of_nonneg_right hexcess
      (sub_nonneg.mpr (hslack.trans (by norm_num : _ ≤ (1 : ℚ))))
    have hunits := mul_le_mul_of_nonneg_left hweights (two_zpow_pos (-25)).le
    have hquarter : (2 : ℚ) ^ (-25 : ℤ) * 2 ^ 23 = 1 / 4 := by norm_num
    rw [hquarter] at hunits
    rw [mul_one_sub] at hscaled
    generalize (2 : ℚ) ^ (-25 : ℤ) * _ = units at hunits hfree
    linarith only [hscaled, hfree, hpart, hunits]
  · have hpositive : ∀ c ∈ counted o cs, ¬ isFixed c = true := by
      intro c hc
      rw [isFixed_iff (isNaN_of_isFinite (h.finite c hc)), not_le]
      exact (two_zpow_pos _).trans_le (hweights c hc)
    have hfixed : fixedOf o cs = [] := List.filter_eq_nil_iff.mpr hpositive
    have htaken : taken o d cs = 0 := by rw [taken, hfixed, List.map_nil, List.sum_nil]
    have hfree : freeOf o cs = counted o cs :=
      List.filter_eq_self.mpr fun c hc => by simpa using hpositive c hc
    have hlower := h.lt_sum_succ (fun c hc => hweights c (mem_counted_of_mem_free hc)) (hfree ▸ hne)
    rw [List.sum_map_add, List.map_const', List.sum_replicate, nsmul_one, Nat.cast_id] at hlower
    rw [htaken, hfree] at hlower hsum
    omega

/-- Two claimants of one weight that ask for a share each. -/
def twoAlike (share : Amount) : List (Claimant Float) :=
  [⟨1, Scalar.one, 0, ⟨share, 0⟩, ⟨share, 0⟩, true⟩,
    ⟨2, Scalar.one, 0, ⟨share, 0⟩, ⟨share, 0⟩, true⟩]

theorem weight_of_mem_twoAlike {share : Amount} {c : Claimant Float}
    (h : c ∈ counted .moment (twoAlike share)) : c.weight = Scalar.one := by
  obtain rfl | rfl : c = _ ∨ c = _ := by simpa [twoAlike] using List.mem_of_mem_filter h
  · rfl
  · rfl

/-- A total of a hundred is handed out but for less than one unit each. -/
theorem sum_bounds_of_twoAlike :
    Feasible .moment 100 .memory (twoAlike 1000) ∧
      98 < sumOf .moment ⟨100, 0⟩ .memory (twoAlike 1000) ∧
      sumOf .moment ⟨100, 0⟩ .memory (twoAlike 1000) ≤ 100 := by
  have hfeasible : Feasible .moment ((⟨100, 0⟩ : Resource).get .memory) .memory (twoAlike 1000) := by
    refine ⟨fun c hc => ?_, by decide, by decide +kernel⟩
    rw [weight_of_mem_twoAlike hc]
    exact exactly_one.finite
  obtain ⟨-, hupper, hlower⟩ := hfeasible.sum_bounds
  have hcounted : counted .moment (twoAlike 1000) = twoAlike 1000 := rfl
  have hfree : freeOf .moment (twoAlike 1000) = twoAlike 1000 := by
    rw [freeOf, hcounted]
    exact List.filter_eq_self.mpr (by decide +kernel)
  have hweights : ((freeOf .moment (twoAlike 1000)).map fun c => value c.weight).sum ≤ 2 ^ 23 := by
    rw [hfree]
    simp only [twoAlike, List.map_cons, List.map_nil, List.sum_cons, List.sum_nil, exactly_one.value_eq]
    norm_num
  refine ⟨hfeasible, ?_, hupper (by decide) hweights⟩
  have hless := hlower (by rw [hcounted]; exact List.cons_ne_nil _ _) fun c hc => by
    rw [weight_of_mem_twoAlike hc, exactly_one.value_eq]
    norm_num
  have hcaps : ((twoAlike 1000).map fun c => (cap .moment .memory c).toNat).sum = 2000 := by decide
  have htotal : ((⟨100, 0⟩ : Resource).get .memory).toNat = 100 := rfl
  have hlength : (twoAlike 1000).length = 2 := rfl
  rw [hcounted, hcaps, htotal, hlength] at hless
  omega

/-- The bisections leave the ratio of a large division too coarse: each of two claimants gets three units
more than half of the total. -/
theorem total_exceeded_of_twoAlike :
    Feasible .moment 134217730 .memory (twoAlike 1000000000) ∧
      fill .moment ⟨134217730, 0⟩ (twoAlike 1000000000) = [⟨67108868, 0⟩, ⟨67108868, 0⟩] ∧
      sumOf .moment ⟨134217730, 0⟩ .memory (twoAlike 1000000000) = 134217730 + 6 := by
  have hfill : fill .moment ⟨134217730, 0⟩ (twoAlike 1000000000) = [⟨67108868, 0⟩, ⟨67108868, 0⟩] := by
    decide +kernel
  refine ⟨⟨fun c hc => ?_, by decide, by decide +kernel⟩, hfill, by rw [sumOf, hfill]; decide⟩
  rw [weight_of_mem_twoAlike hc]
  exact exactly_one.finite

end Allotment.Division
