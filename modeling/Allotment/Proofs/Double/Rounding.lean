import Allotment.Proofs.Double.Value

/-!
# Rounding of unpacked doubles

Rounding drops digits from a mantissa and keeps two bits of what was dropped: the first digit, and
whether any other was not zero. These bits say on which side of a half the rest lies, so what comes out
is the canonical form of the nearest double.
-/

namespace Allotment.Double

open Float.Model (UnpackedFloat Format totalExponent)
open Float.Model.UnpackedFloat (Sign ExtendedMantissa Accuracy)

/-! ## Guard bits -/

/-- Whether a mantissa is a number cut to a natural number, and its two bits tell what was cut off. -/
structure Guards (em : ExtendedMantissa) (x : ℚ) : Prop where
  mantissa_le : em.mantissa ≤ x
  lt_mantissa : x < em.mantissa + 1
  roundBit_iff : em.roundBit = true ↔ em.mantissa + 1 / 2 ≤ x
  stickyBit_iff : em.stickyBit = true ↔ x ≠ em.mantissa ∧ x ≠ em.mantissa + 1 / 2

/-- Nothing was cut off exactly if neither of the two bits is set. -/
theorem Guards.bits_iff {em : ExtendedMantissa} {x : ℚ} (h : Guards em x) :
    (em.roundBit || em.stickyBit) = true ↔ x ≠ em.mantissa := by
  rw [Bool.or_eq_true, h.roundBit_iff, h.stickyBit_iff]
  constructor
  · rintro (hround | hsticky)
    · linarith
    · exact hsticky.1
  · intro hne
    obtain hhalf | hhalf := le_or_gt (em.mantissa + 1 / 2 : ℚ) x
    · exact .inl hhalf
    · exact .inr ⟨hne, hhalf.ne⟩

/-- A shift by one digit is half the number. -/
theorem Guards.shiftRightOne {em : ExtendedMantissa} {x : ℚ} (h : Guards em x) :
    Guards em.shiftRightOne (x / 2) := by
  have hbits := h.bits_iff
  have hlow := h.mantissa_le
  have hhigh := h.lt_mantissa
  obtain ⟨k, hk | hk⟩ := Nat.even_or_odd' em.mantissa
  · have hshift : em.shiftRightOne = ⟨k, false, em.roundBit || em.stickyBit⟩ := by
      simp [ExtendedMantissa.shiftRightOne, hk]
    rw [hk] at hbits hlow hhigh
    push_cast at hbits hlow hhigh
    rw [hshift]
    refine ⟨by linarith, by linarith, iff_of_false Bool.false_ne_true (by linarith), hbits.trans ?_⟩
    constructor
    · intro hne
      exact ⟨fun h => hne (by linarith), by linarith⟩
    · rintro ⟨hne, -⟩ rfl
      exact hne (by ring)
  · have hshift : em.shiftRightOne = ⟨k, true, em.roundBit || em.stickyBit⟩ := by
      simp [ExtendedMantissa.shiftRightOne, hk]
      omega
    rw [hk] at hbits hlow hhigh
    push_cast at hbits hlow hhigh
    rw [hshift]
    refine ⟨by linarith, by linarith, iff_of_true rfl (by linarith), hbits.trans ?_⟩
    constructor
    · intro hne
      exact ⟨by linarith, fun h => hne (by linarith)⟩
    · rintro ⟨-, hne⟩ rfl
      exact hne (by ring)

/-- A shift divides by a power of two. -/
theorem Guards.shiftRight {em : ExtendedMantissa} {x : ℚ} (h : Guards em x) (n : ℕ) :
    Guards (em >>> n) (x / 2 ^ n) := by
  change Guards (n.repeat ExtendedMantissa.shiftRightOne em) _
  induction n with
  | zero => simpa [Nat.repeat] using h
  | succ n ih =>
    rw [pow_succ, ← div_div]
    exact ih.shiftRightOne

/-- The two bits suffice to round to the nearest integer. -/
theorem Guards.roundedMantissa {em : ExtendedMantissa} {x : ℚ} (h : Guards em x) :
    (em.roundedMantissa : ℤ) = nearestInt x := by
  obtain ⟨m, round, sticky⟩ := em
  obtain ⟨hlow, hhigh, hround, hsticky⟩ := h
  have hfloor : ⌊x⌋ = m := Int.floor_eq_iff.mpr ⟨by exact_mod_cast hlow, by exact_mod_cast hhigh⟩
  have hfract : Int.fract x = x - m := by rw [← Int.self_sub_floor, hfloor]; rfl
  unfold nearestInt ExtendedMantissa.roundedMantissa
  rw [hfloor, hfract]
  simp only [ne_eq] at hround hsticky
  cases round <;> cases sticky <;> simp only [true_iff, Bool.false_eq_true, false_iff, not_le] at hround hsticky
  · rw [if_pos (by linarith)]
    rfl
  · rw [if_pos (by linarith)]
    rfl
  · have hhalf : x = m + 1 / 2 := by
      by_contra hne
      exact hsticky ⟨by linarith, hne⟩
    rw [if_neg (by linarith), if_neg (by linarith)]
    rfl
  · have habove : m + 1 / 2 < x := lt_of_le_of_ne hround (Ne.symm hsticky.2)
    rw [if_neg (by linarith), if_pos (by linarith)]
    rfl

/-- A natural number is guarded by bits that are not set. -/
theorem guards_exact (m : ℕ) : Guards (.ofMantissaAndAccuracy m .exact) m where
  mantissa_le := le_rfl
  lt_mantissa := lt_add_one (m : ℚ)
  roundBit_iff := iff_of_false Bool.false_ne_true (not_le.mpr (lt_add_of_pos_right (m : ℚ) one_half_pos))
  stickyBit_iff := iff_of_false Bool.false_ne_true fun h => h.1 rfl

/-- The quotient of two natural numbers is guarded by where twice the remainder lies. -/
theorem guards_fraction (m : ℕ) {n : ℕ} (hn : 0 < n) :
    Guards (.ofMantissaAndAccuracy (m / n) (UnpackedFloat.accuracyOfFraction (m % n) n)) (m / n) := by
  have hpos : (0 : ℚ) < n := by exact_mod_cast hn
  have hsplit : (m : ℚ) / n = (m / n : ℕ) + (m % n : ℕ) / n := by
    have hdivision : (m : ℚ) = n * (m / n : ℕ) + (m % n : ℕ) := by
      exact_mod_cast (Nat.div_add_mod m n).symm
    conv_lhs => rw [hdivision]
    field_simp
  have hrest : ((m % n : ℕ) : ℚ) / n < 1 :=
    (div_lt_one hpos).mpr (by exact_mod_cast Nat.mod_lt m hn)
  rw [hsplit]
  generalize m / n = q at *
  generalize m % n = r at *
  unfold UnpackedFloat.accuracyOfFraction
  split_ifs with hzero
  · rw [hzero, Nat.cast_zero, zero_div, add_zero]
    exact guards_exact q
  have hr : (0 : ℚ) < r / n := div_pos (by exact_mod_cast Nat.pos_of_ne_zero hzero) hpos
  obtain hlt | heq | hgt := lt_trichotomy (2 * r) n
  · have hbelow : (r : ℚ) / n < 1 / 2 := by
      rw [div_lt_div_iff₀ hpos two_pos]
      exact_mod_cast (by omega : r * 2 < 1 * n)
    rw [Nat.compare_eq_lt.mpr hlt]
    change Guards ⟨q, false, true⟩ _
    exact ⟨by linarith, by linarith, iff_of_false Bool.false_ne_true (by linarith),
      iff_of_true rfl ⟨by linarith, by linarith⟩⟩
  · have hhalf : (r : ℚ) / n = 1 / 2 := by
      rw [div_eq_div_iff hpos.ne' two_ne_zero]
      exact_mod_cast (by omega : r * 2 = 1 * n)
    rw [Nat.compare_eq_eq.mpr heq]
    change Guards ⟨q, true, false⟩ _
    exact ⟨by linarith, by linarith, iff_of_true rfl (by linarith),
      iff_of_false Bool.false_ne_true fun h => h.2 (by linarith)⟩
  · have habove : 1 / 2 < (r : ℚ) / n := by
      rw [div_lt_div_iff₀ two_pos hpos]
      exact_mod_cast (by omega : 1 * n < r * 2)
    rw [Nat.compare_eq_gt.mpr hgt]
    change Guards ⟨q, true, true⟩ _
    exact ⟨by linarith, by linarith, iff_of_true rfl (by linarith),
      iff_of_true rfl ⟨by linarith, by linarith⟩⟩

/-! ## Rounding -/

/-- The exponent that a mantissa is shifted to. -/
theorem targetExponent_eq (t : ℤ) : Format.binary64.targetExponent t = max (t - 53) (-1074) := rfl

/-- The last place of a number is the exponent that its whole part is shifted to. -/
theorem Guards.targetExponent_eq {em : ExtendedMantissa} {x : ℚ} (h : Guards em x)
    (hne : em.mantissa ≠ 0) (e : ℤ) :
    Format.binary64.targetExponent (totalExponent em.mantissa e) = gridExponent (x * 2 ^ e) := by
  have hx : 0 < x :=
    lt_of_lt_of_le (by exact_mod_cast Nat.pos_of_ne_zero hne) h.mantissa_le
  have hpos : 0 < x * 2 ^ e := mul_pos hx (two_zpow_pos e)
  have hlow : 2 ^ (em.mantissa.log2 + e : ℤ) ≤ x * 2 ^ e := by
    have hself : (2 : ℚ) ^ em.mantissa.log2 ≤ x :=
      le_trans (by exact_mod_cast Nat.log2_self_le hne) h.mantissa_le
    rw [two_zpow_add, zpow_natCast]
    exact mul_le_mul_of_nonneg_right hself (two_zpow_pos e).le
  have hhigh : x * 2 ^ e < 2 ^ (em.mantissa.log2 + 1 + e : ℤ) := by
    have hself : ((em.mantissa + 1 : ℕ) : ℚ) ≤ 2 ^ (em.mantissa.log2 + 1) := by
      exact_mod_cast Nat.lt_log2_self
    have hlt : x < 2 ^ (em.mantissa.log2 + 1) :=
      lt_of_lt_of_le (by exact_mod_cast h.lt_mantissa) hself
    rw [two_zpow_add, ← Nat.cast_succ, zpow_natCast]
    exact mul_lt_mul_of_pos_right hlt (two_zpow_pos e)
  have hle := (two_zpow_le_iff hpos _).mp hlow
  have hlt := (lt_two_zpow_iff hpos _).mp hhigh
  rw [Double.targetExponent_eq, totalExponent, gridExponent, abs_of_pos hpos]
  omega

/-- If the whole part is zero, the last place is the smallest, unless that were a shift to the left. -/
theorem Guards.targetExponent_eq_of_le {em : ExtendedMantissa} {x : ℚ} (h : Guards em x) (hx : 0 < x)
    {e : ℤ} (he : e ≤ gridExponent (x * 2 ^ e)) :
    Format.binary64.targetExponent (totalExponent em.mantissa e) = gridExponent (x * 2 ^ e) := by
  obtain hzero | hne := eq_or_ne em.mantissa 0
  · have hpos : 0 < x * 2 ^ e := mul_pos hx (two_zpow_pos e)
    have hlt : x * 2 ^ e < 2 ^ e := by
      have hone : x < 1 := by simpa [hzero] using h.lt_mantissa
      exact mul_lt_of_lt_one_left (two_zpow_pos e) hone
    have hlog := (lt_two_zpow_iff hpos e).mp hlt
    unfold gridExponent at *
    rw [abs_of_pos hpos] at *
    rw [Double.targetExponent_eq, totalExponent, hzero, Nat.log2_zero]
    omega
  · exact h.targetExponent_eq hne e

theorem mantissa_ofMantissaAndAccuracy (m : ℕ) (accuracy : Accuracy) :
    (ExtendedMantissa.ofMantissaAndAccuracy m accuracy).mantissa = m := by
  obtain _ | order := accuracy
  · rfl
  · cases order <;> rfl

/-- A shift to the target exponent, with the number of digits spelled out. -/
theorem shiftToTargetExponent_eq {m : ℕ} {e : ℤ} {n : ℕ} (accuracy : Accuracy)
    (hn : (Format.binary64.targetExponent (totalExponent m e) - e).toNat = n) :
    UnpackedFloat.shiftToTargetExponent Format.binary64 m e accuracy =
      (ExtendedMantissa.ofMantissaAndAccuracy m accuracy >>> n, e + n) := by
  subst hn
  rfl

/-- The first shift is to the last place of the number. -/
theorem exists_shiftToTargetExponent {m : ℕ} {e : ℤ} {accuracy : Accuracy} {x : ℚ}
    (h : Guards (.ofMantissaAndAccuracy m accuracy) x) (hx : 0 < x)
    (he : e ≤ gridExponent (x * 2 ^ e)) :
    ∃ em, UnpackedFloat.shiftToTargetExponent Format.binary64 m e accuracy =
        (em, gridExponent (x * 2 ^ e)) ∧
      Guards em (x * 2 ^ e / 2 ^ gridExponent (x * 2 ^ e)) := by
  have htarget := h.targetExponent_eq_of_le hx he
  rw [mantissa_ofMantissaAndAccuracy] at htarget
  obtain ⟨n, hn⟩ := Int.le.dest he
  refine ⟨ExtendedMantissa.ofMantissaAndAccuracy m accuracy >>> n, ?_, ?_⟩
  · rw [shiftToTargetExponent_eq accuracy (n := n) (by omega), hn]
  · have hscaled : x * 2 ^ e / 2 ^ gridExponent (x * 2 ^ e) = x / 2 ^ n := by
      rw [← hn, add_comm e, two_zpow_add, zpow_natCast]
      exact mul_div_mul_right _ _ (two_zpow_pos e).ne'
    rw [hscaled]
    exact h.shiftRight n

/-- A mantissa of 53 digits stays where it is. -/
theorem shiftToTargetExponent_of_lt {m : ℕ} {e : ℤ} (hm : m < 2 ^ 53) (he : -1074 ≤ e) :
    UnpackedFloat.shiftToTargetExponent Format.binary64 m e .exact = (⟨m, false, false⟩, e) := by
  have hlog : m.log2 ≤ 52 := by
    obtain rfl | hne := eq_or_ne m 0
    · simp
    · exact Nat.le_of_lt_succ ((Nat.log2_lt hne).mpr hm)
  rw [shiftToTargetExponent_eq (n := 0), Nat.cast_zero, add_zero]
  · rfl
  · rw [targetExponent_eq, totalExponent]
    omega

/-- A mantissa that rounding has carried to the next power of two is shifted by one digit. -/
theorem shiftToTargetExponent_carry {e : ℤ} (he : -1074 ≤ e) :
    UnpackedFloat.shiftToTargetExponent Format.binary64 (2 ^ 53) e .exact =
      (⟨2 ^ 52, false, false⟩, e + 1) := by
  rw [shiftToTargetExponent_eq (n := 1)]
  · rfl
  · rw [targetExponent_eq, totalExponent, Nat.log2_two_pow]
    omega

/-- Rounding with guard bits gives the canonical form of the nearest double. -/
theorem represents_roundWithAccuracy (s : Sign) {m : ℕ} {e : ℤ} {accuracy : Accuracy} {x : ℚ}
    (h : Guards (.ofMantissaAndAccuracy m accuracy) x) (hx : 0 < x)
    (he : e ≤ gridExponent (x * 2 ^ e)) :
    Represents (UnpackedFloat.roundWithAccuracy Format.binary64 s m e accuracy)
      (withSign s (nearest (x * 2 ^ e))) := by
  obtain ⟨em, hshift, hguards⟩ := exists_shiftToTargetExponent h hx he
  have hrounded := hguards.roundedMantissa
  have hlarge := (abs_le.mp (abs_nearestInt_grid_le (x * 2 ^ e))).2
  have hsmall := le_nearestInt_grid (mul_pos hx (two_zpow_pos e))
  have hlow : -1074 ≤ gridExponent (x * 2 ^ e) := le_max_right _ _
  have hnearest : nearest (x * 2 ^ e) = em.roundedMantissa * 2 ^ gridExponent (x * 2 ^ e) := by
    rw [nearest, ← hrounded, Int.cast_natCast]
  rw [← hrounded] at hlarge hsmall
  rw [hnearest]
  unfold UnpackedFloat.roundWithAccuracy
  rw [hshift]
  dsimp only
  generalize gridExponent (x * 2 ^ e) = g at *
  generalize em.roundedMantissa = r at *
  obtain hlt | rfl := (show r ≤ 2 ^ 53 by omega).lt_or_eq
  · rw [shiftToTargetExponent_of_lt hlt hlow]
    dsimp only
    split_ifs with hzero
    · rw [hzero, Nat.cast_zero, zero_mul]
      cases s <;> simpa using represents_zero _
    · exact ⟨⟨hlt, hlow, by omega⟩, by simp, rfl⟩
  · rw [shiftToTargetExponent_carry hlow]
    dsimp only
    rw [dif_neg (by norm_num)]
    refine ⟨⟨by norm_num, by omega, .inl le_rfl⟩, by simp, ?_⟩
    rw [measure, add_comm, two_zpow_add]
    congr 1
    push_cast
    ring

/-- Rounding gives the canonical form of the nearest double. -/
theorem represents_round (s : Sign) {m : ℕ} (hm : 0 < m) (e : ℤ) :
    Represents (UnpackedFloat.round Format.binary64 s m e) (withSign s (nearest (m * 2 ^ e))) := by
  have htarget := (guards_exact m).targetExponent_eq hm.ne' e
  change Format.binary64.targetExponent (totalExponent m e) = _ at htarget
  unfold UnpackedFloat.round UnpackedFloat.decreaseExponent
  rw [htarget]
  dsimp only
  generalize hk : (e - gridExponent (m * 2 ^ e)).toNat = k
  have hscaled : ((m <<< k : ℕ) : ℚ) * 2 ^ (e - k) = m * 2 ^ e := by
    rw [Nat.shiftLeft_eq, Nat.cast_mul, mul_assoc, Nat.cast_pow, Nat.cast_two, ← zpow_natCast,
      ← two_zpow_add, add_sub_cancel]
  rw [← hscaled] at hk ⊢
  refine represents_roundWithAccuracy s (guards_exact _) ?_ (by omega)
  rw [Nat.shiftLeft_eq]
  exact_mod_cast Nat.mul_pos hm (Nat.two_pow_pos k)

/-- Normalizing gives the canonical form of the nearest double. -/
theorem represents_normalize (m : ℤ) (e : ℤ) (s : Sign) :
    Represents (UnpackedFloat.normalize Format.binary64 m e s) (nearest (m * 2 ^ e)) := by
  unfold UnpackedFloat.normalize
  obtain hneg | rfl | hpos := lt_trichotomy m 0
  · rw [Int.compare_eq_lt.mpr hneg]
    have hround := represents_round .negative (m := (-m).toNat) (by omega) e
    have hcast : (((-m).toNat : ℕ) : ℚ) = -m := by
      exact_mod_cast Int.toNat_of_nonneg (by omega : 0 ≤ -m)
    rw [hcast, neg_mul, nearest_neg, withSign_negative, neg_neg] at hround
    exact hround
  · rw [Int.cast_zero, zero_mul, nearest_zero]
    exact represents_zero _
  · rw [Int.compare_eq_gt.mpr hpos]
    have hround := represents_round .positive (m := m.toNat) (by omega) e
    have hcast : ((m.toNat : ℕ) : ℚ) = m := by
      exact_mod_cast Int.toNat_of_nonneg hpos.le
    rw [hcast] at hround
    exact hround

end Allotment.Double
