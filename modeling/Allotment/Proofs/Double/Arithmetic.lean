import Allotment.Proofs.Double.Rounding

/-!
# Arithmetic of doubles

The sum, difference, product and quotient of finite doubles are numbers, and their values are those of
the exact results, rounded. Machine integers are rounded to doubles in the same way, and a double is
truncated to a machine integer by the floor of its value.
-/

namespace Allotment.Double

open Float.Model (UnpackedFloat Format totalExponent)
open Float.Model.UnpackedFloat (Sign ExtendedMantissa)

/-! ## Unpacked doubles -/

theorem Normal.isDouble {m : ℕ} {e : ℤ} (h : Normal m e) (s : Sign) :
    IsDouble (withSign s (m * 2 ^ e)) := by
  have hdouble : IsDouble (m * 2 ^ e) :=
    ⟨m, e, by have := h.1; rw [Nat.abs_cast]; omega, h.2.1, by rw [Int.cast_natCast]⟩
  cases s
  · exact hdouble.neg
  · exact hdouble

theorem isDouble_value (x : Float) : IsDouble (value x) := by
  have hx := (bounded_unpack x.toModel).canonical
  have hzero : IsDouble 0 := by simpa using isDouble_natCast (n := 0) (by norm_num)
  rw [value]
  generalize x.toModel.unpack = f at hx
  cases f with
  | notANumber => exact hzero
  | infinity s =>
    cases s
    · exact (isDouble_two_zpow (by norm_num)).neg
    · exact isDouble_two_zpow (by norm_num)
  | zero s => exact hzero
  | finite s m e hm => exact hx.isDouble s

/-- A finite double is the nearest to its own value. -/
theorem represents_self {f : UnpackedFloat} (hf : Canonical f) (hfinite : f.isFinite = true) :
    Represents f (nearest (measure f)) := by
  obtain ⟨s, rfl⟩ | ⟨s, m, e, hm, rfl⟩ := isFinite_cases hfinite
  · rw [show measure (.zero s) = 0 from rfl, nearest_zero]
    exact represents_zero s
  · exact ⟨hf, by simp, (hf.isDouble s).nearest_eq.symm⟩

/-- A smaller exponent is made up for by a larger mantissa. -/
theorem decreaseExponent_mul (m : ℕ) {d e : ℤ} (h : d ≤ e) :
    ((UnpackedFloat.decreaseExponent m e d).1 : ℚ) * 2 ^ d = m * 2 ^ e := by
  obtain ⟨n, rfl⟩ := Int.le.dest h
  have hn : (d + n - d).toNat = n := by omega
  unfold UnpackedFloat.decreaseExponent
  dsimp only
  rw [hn, Nat.shiftLeft_eq, add_comm d, two_zpow_add, zpow_natCast]
  push_cast
  ring

theorem cast_apply_mul (s : Sign) (m : ℕ) (x : ℚ) :
    ((s.apply m : ℤ) : ℚ) * x = withSign s (m * x) := by
  rw [cast_apply, Int.cast_natCast, withSign_mul]

/-- The sum of finite doubles is the nearest double. -/
theorem represents_add {f g : UnpackedFloat} (hf : Canonical f) (hg : Canonical g)
    (hff : f.isFinite = true) (hgf : g.isFinite = true) :
    Represents (UnpackedFloat.add Format.binary64 f g) (nearest (measure f + measure g)) := by
  obtain ⟨s, rfl⟩ | ⟨s, m, e, hm, rfl⟩ := isFinite_cases hff <;>
    obtain ⟨t, rfl⟩ | ⟨t, n, f, hn, rfl⟩ := isFinite_cases hgf
  · rw [show measure (.zero s) + measure (.zero t) = 0 from add_zero 0, nearest_zero]
    cases s <;> cases t <;> exact represents_zero _
  · rw [show measure (.zero s) = 0 from rfl, zero_add]
    exact represents_self hg hgf
  · rw [show measure (.zero t) = 0 from rfl, add_zero]
    exact represents_self hf hff
  · have hsum := represents_normalize
      (s.apply (UnpackedFloat.decreaseExponent m e (min e f)).1 +
        t.apply (UnpackedFloat.decreaseExponent n f (min e f)).1) (min e f) .positive
    rw [Int.cast_add, add_mul, cast_apply_mul, cast_apply_mul,
      decreaseExponent_mul m (min_le_left e f), decreaseExponent_mul n (min_le_right e f)] at hsum
    exact hsum

theorem withSign_neg (s : Sign) (x : ℚ) : withSign (-s) x = -withSign s x := by
  cases s
  · exact (neg_neg x).symm
  · rfl

theorem measure_neg (f : UnpackedFloat) : measure f.neg = -measure f := by
  cases f with
  | notANumber => exact neg_zero.symm
  | infinity s => exact withSign_neg s _
  | zero s => exact neg_zero.symm
  | finite s m e hm => exact withSign_neg s _

/-- A difference is a sum with the sign of what is taken away turned about. -/
theorem sub_eq_add (f g : UnpackedFloat) :
    UnpackedFloat.sub Format.binary64 f g = UnpackedFloat.add Format.binary64 f g.neg := by
  cases f <;> cases g <;> try rfl
  case finite.finite s m e hm t n f hn =>
    unfold UnpackedFloat.sub UnpackedFloat.add UnpackedFloat.neg
    cases t
    · exact congrArg (UnpackedFloat.normalize _ · _ _) (sub_neg_eq_add _ _)
    · exact congrArg (UnpackedFloat.normalize _ · _ _) (Int.sub_eq_add_neg)

/-- The difference of finite doubles is the nearest double. -/
theorem represents_sub {f g : UnpackedFloat} (hf : Canonical f) (hg : Canonical g)
    (hff : f.isFinite = true) (hgf : g.isFinite = true) :
    Represents (UnpackedFloat.sub Format.binary64 f g) (nearest (measure f - measure g)) := by
  have hcanonical : Canonical g.neg := by cases g <;> exact hg
  have hfinite : g.neg.isFinite = true := by cases g <;> exact hgf
  have hsum := represents_add hf hcanonical hff hfinite
  rw [measure_neg, ← sub_eq_add_neg] at hsum
  rw [sub_eq_add]
  exact hsum

theorem withSign_mul_withSign (s t : Sign) (x y : ℚ) :
    withSign s x * withSign t y = withSign (s * t) (x * y) := by
  cases s <;> cases t
  · exact neg_mul_neg x y
  · exact neg_mul x y
  · exact mul_neg x y
  · rfl

theorem withSign_div_withSign (s t : Sign) (x y : ℚ) :
    withSign s x / withSign t y = withSign (s / t) (x / y) := by
  cases s <;> cases t
  · exact neg_div_neg_eq x y
  · exact neg_div y x
  · exact div_neg x
  · rfl

/-- A product has no fewer than 53 digits, unless it is too small. -/
theorem Normal.add_le_gridExponent {m n : ℕ} {e f : ℤ} (hm : Normal m e) (hn : Normal n f)
    (hmpos : 0 < m) (hnpos : 0 < n) :
    e + f ≤ gridExponent (((m * n : ℕ) : ℚ) * 2 ^ (e + f)) := by
  have hpos : (0 : ℚ) < ((m * n : ℕ) : ℚ) * 2 ^ (e + f) :=
    cast_mul_two_zpow_pos (Nat.mul_pos hmpos hnpos) _
  unfold gridExponent
  rw [abs_of_pos hpos]
  obtain hlarge | hsmall := Nat.lt_or_ge (m * n) (2 ^ 52)
  · have hm := hm.2.2.resolve_left fun h => by nlinarith
    have hn := hn.2.2.resolve_left fun h => by nlinarith
    omega
  · have hlog := (two_zpow_le_iff hpos _).mp (two_zpow_le_cast_mul hsmall (le_refl (e + f + 52)))
    omega

/-- The product of finite doubles is the nearest double. -/
theorem represents_mul {f g : UnpackedFloat} (hf : Canonical f) (hg : Canonical g)
    (hff : f.isFinite = true) (hgf : g.isFinite = true) :
    Represents (UnpackedFloat.mul Format.binary64 f g) (nearest (measure f * measure g)) := by
  obtain ⟨s, rfl⟩ | ⟨s, m, e, hm, rfl⟩ := isFinite_cases hff <;>
    obtain ⟨t, rfl⟩ | ⟨t, n, f, hn, rfl⟩ := isFinite_cases hgf
  · rw [show measure (.zero s) = 0 from rfl, zero_mul, nearest_zero]
    exact represents_zero _
  · rw [show measure (.zero s) = 0 from rfl, zero_mul, nearest_zero]
    exact represents_zero _
  · rw [show measure (.zero t) = 0 from rfl, mul_zero, nearest_zero]
    exact represents_zero _
  · have hproduct := represents_roundWithAccuracy (s * t) (guards_exact (m * n))
      (by exact_mod_cast Nat.mul_pos hm hn) (hf.add_le_gridExponent hg hm hn)
    have hvalue : measure (.finite s m e hm) * measure (.finite t n f hn) =
        withSign (s * t) (((m * n : ℕ) : ℚ) * 2 ^ (e + f)) := by
      rw [measure, measure, withSign_mul_withSign, two_zpow_add, mul_mul_mul_comm, Nat.cast_mul]
    rw [hvalue, nearest_withSign]
    exact hproduct

/-- A quotient has no fewer digits than the exponent chosen for it asks for. -/
theorem targetExponent_le_gridExponent {m n : ℕ} (hm : 0 < m) (hn : 0 < n) (e f : ℤ) :
    Format.binary64.targetExponent (totalExponent m e - totalExponent n f) ≤
      gridExponent (m * 2 ^ e / (n * 2 ^ f)) := by
  have hmpos := cast_mul_two_zpow_pos hm e
  have hnpos := cast_mul_two_zpow_pos hn f
  have hpos := div_pos hmpos hnpos
  have hlow : (2 : ℚ) ^ (m.log2 + e : ℤ) ≤ m * 2 ^ e :=
    two_zpow_le_cast_mul (Nat.log2_self_le hm.ne') (by omega)
  have hhigh : (n : ℚ) * 2 ^ f < 2 ^ (n.log2 + 1 + f : ℤ) :=
    cast_mul_two_zpow_lt Nat.lt_log2_self (by push_cast; omega)
  have hquotient : (2 : ℚ) ^ (m.log2 + e - (n.log2 + 1 + f) : ℤ) ≤ m * 2 ^ e / (n * 2 ^ f) := by
    rw [le_div_iff₀ hnpos]
    calc (2 : ℚ) ^ (m.log2 + e - (n.log2 + 1 + f) : ℤ) * (n * 2 ^ f)
      _ ≤ 2 ^ (m.log2 + e - (n.log2 + 1 + f) : ℤ) * 2 ^ (n.log2 + 1 + f : ℤ) :=
        mul_le_mul_of_nonneg_left hhigh.le (two_zpow_pos _).le
      _ = 2 ^ (m.log2 + e : ℤ) := by rw [← two_zpow_add, sub_add_cancel]
      _ ≤ m * 2 ^ e := hlow
  have hlog := (two_zpow_le_iff hpos _).mp hquotient
  rw [targetExponent_eq, totalExponent, totalExponent, gridExponent, abs_of_pos hpos]
  omega

/-- The quotient of finite doubles is the nearest double. -/
theorem represents_div {f g : UnpackedFloat} (hff : f.isFinite = true) (hgf : g.isFinite = true)
    (hne : measure g ≠ 0) :
    Represents (UnpackedFloat.div Format.binary64 f g) (nearest (measure f / measure g)) := by
  obtain ⟨t, rfl⟩ | ⟨t, n, e', hn, rfl⟩ := isFinite_cases hgf
  · exact absurd rfl hne
  obtain ⟨s, rfl⟩ | ⟨s, m, e, hm, rfl⟩ := isFinite_cases hff
  · rw [show measure (.zero s) = 0 from rfl, zero_div, nearest_zero]
    exact represents_zero _
  have htarget := targetExponent_le_gridExponent hm hn e e'
  have hvalue : measure (.finite s m e hm) / measure (.finite t n e' hn) =
      withSign (s / t) (m * 2 ^ e / (n * 2 ^ e')) :=
    withSign_div_withSign s t _ _
  rw [hvalue, nearest_withSign]
  unfold UnpackedFloat.div UnpackedFloat.divCore
  dsimp only
  generalize hd : min (e - e')
    (Format.binary64.targetExponent (totalExponent m e - totalExponent n e')) = d
  generalize hk : (e - e' - d).toNat = k
  have hscaled : ((m <<< k : ℕ) : ℚ) / n * 2 ^ d = m * 2 ^ e / (n * 2 ^ e') := by
    have hexponent : e = d + k + e' := by omega
    rw [hexponent, two_zpow_add, two_zpow_add, Nat.shiftLeft_eq, zpow_natCast]
    have := (two_zpow_pos e').ne'
    push_cast
    field_simp
  rw [← hscaled] at htarget ⊢
  refine represents_roundWithAccuracy (s / t) (guards_fraction _ hn) ?_ (by omega)
  rw [Nat.shiftLeft_eq]
  exact div_pos (by exact_mod_cast Nat.mul_pos hm (Nat.two_pow_pos k)) (by exact_mod_cast hn)

/-! ## Doubles -/

theorem isNaN_of_isFinite {x : Float} (h : x.isFinite = true) : Scalar.isNaN x = false :=
  (isFinite_iff.mp h).1

theorem add_eq {x y : Float} (hx : x.isFinite = true) (hy : y.isFinite = true) :
    Scalar.isNaN (x + y) = false ∧ value (x + y) = rounded (value x + value y) :=
  (represents_add (bounded_unpack x.toModel).canonical (bounded_unpack y.toModel).canonical hx hy).pack

theorem sub_eq {x y : Float} (hx : x.isFinite = true) (hy : y.isFinite = true) :
    Scalar.isNaN (x - y) = false ∧ value (x - y) = rounded (value x - value y) :=
  (represents_sub (bounded_unpack x.toModel).canonical (bounded_unpack y.toModel).canonical hx hy).pack

theorem mul_eq {x y : Float} (hx : x.isFinite = true) (hy : y.isFinite = true) :
    Scalar.isNaN (x * y) = false ∧ value (x * y) = rounded (value x * value y) :=
  (represents_mul (bounded_unpack x.toModel).canonical (bounded_unpack y.toModel).canonical hx hy).pack

theorem div_eq {x y : Float} (hx : x.isFinite = true) (hy : y.isFinite = true) (hne : value y ≠ 0) :
    Scalar.isNaN (x / y) = false ∧ value (x / y) = rounded (value x / value y) :=
  (represents_div hx hy hne).pack

/-- Machine integers are rounded to the nearest double. -/
theorem ofUInt64_eq (n : UInt64) :
    Scalar.isNaN (Scalar.ofUInt64 n : Float) = false ∧
      value (Scalar.ofUInt64 n) = nearest n.toNat := by
  have hpack := (represents_normalize n.toNat 0 .positive).pack
  rw [zpow_zero, mul_one, Int.cast_natCast] at hpack
  refine ⟨hpack.1, hpack.2.trans (rounded_eq_nearest ?_)⟩
  rw [Nat.abs_cast]
  calc ((n.toNat : ℕ) : ℚ)
    _ ≤ 2 ^ 64 := by exact_mod_cast n.toNat_lt.le
    _ = 2 ^ (64 : ℤ) := by norm_num
    _ ≤ 2 ^ (1023 : ℤ) := two_zpow_le (by norm_num)

/-- Truncation cuts off what stands behind the point. -/
theorem roundToInt_eq (s : Sign) (m : ℕ) (e : ℤ) :
    UnpackedFloat.roundToInt s m e = s.apply ⌊(m * 2 ^ e : ℚ)⌋₊ := by
  have hdecrease : UnpackedFloat.decreaseExponent m e 0 = (m <<< e.toNat, e - e.toNat) := by
    rw [UnpackedFloat.decreaseExponent, Int.sub_zero]
  unfold UnpackedFloat.roundToInt UnpackedFloat.shiftToExponent
  rw [hdecrease]
  dsimp only
  generalize hn : (0 - (e - e.toNat)).toNat = n
  have hguards := (guards_exact (m <<< e.toNat)).shiftRight n
  have hscaled : ((m <<< e.toNat : ℕ) : ℚ) / 2 ^ n = m * 2 ^ e := by
    have hexponent : (2 : ℚ) ^ (e + n) = 2 ^ e.toNat := by
      rw [← zpow_natCast, show e + n = (e.toNat : ℤ) by omega]
    rw [div_eq_iff (by positivity), Nat.shiftLeft_eq, Nat.cast_mul, Nat.cast_pow, Nat.cast_two,
      ← hexponent, two_zpow_add, zpow_natCast, mul_assoc]
  rw [hscaled] at hguards
  have hnonneg : (0 : ℚ) ≤ m * 2 ^ e := mul_nonneg m.cast_nonneg (two_zpow_pos e).le
  rw [(Nat.floor_eq_iff hnonneg).mpr ⟨hguards.mantissa_le, hguards.lt_mantissa⟩]

/-- A double is truncated to the floor of its value, within the machine integers. -/
theorem toNat_toUInt64 (x : Float) :
    (Scalar.toUInt64 x).toNat = min ⌊value x⌋₊ (2 ^ 64 - 1) := by
  have hclamp : ∀ n : ℕ, (UInt64.ofNatClamp n).toNat = min n (2 ^ 64 - 1) := by
    intro n
    obtain hlt | hle := Nat.lt_or_ge n UInt64.size
    · rw [UInt64.toNat_ofNatClamp_of_lt hlt]
      exact (min_eq_left (Nat.le_sub_one_of_lt hlt)).symm
    · rw [UInt64.toNat_ofNatClamp_of_le hle]
      exact (min_eq_right (le_trans (Nat.sub_le _ _) hle)).symm
  change (UInt64.ofNatClamp (x.toModel.unpack.toInt 0 (UInt64.size - 1)).toNat).toNat = _
  rw [hclamp, value]
  cases x.toModel.unpack with
  | notANumber => simp [UnpackedFloat.toInt, measure]
  | infinity s =>
    cases s
    · have hfloor : ⌊measure (.infinity .negative)⌋₊ = 0 :=
        Nat.floor_of_nonpos (neg_nonpos.mpr limit_pos.le)
      rw [hfloor]
      rfl
    · have hfloor : 2 ^ 64 - 1 ≤ ⌊measure (.infinity .positive)⌋₊ := by
        apply Nat.le_floor
        calc ((2 ^ 64 - 1 : ℕ) : ℚ)
          _ ≤ 2 ^ (64 : ℤ) := by norm_num
          _ ≤ limit := two_zpow_le (by norm_num)
      rw [min_eq_right hfloor]
      rfl
  | zero s => simp [UnpackedFloat.toInt, measure]
  | finite s m e hm =>
    rw [UnpackedFloat.toInt, roundToInt_eq, measure]
    cases s
    · have hfloor : ⌊withSign .negative (m * 2 ^ e)⌋₊ = 0 :=
        Nat.floor_of_nonpos (neg_nonpos.mpr (cast_mul_two_zpow_pos hm e).le)
      rw [hfloor, Sign.apply, Int.toNat_neg_natCast]
    · rfl

/-! ## Infinities -/

/-- A number that is not finite is an infinity. -/
theorem exists_infinity {x : Float} (hx : Scalar.isNaN x = false) (h : x.isFinite ≠ true) :
    ∃ s, x.toModel.unpack = .infinity s := by
  rw [isNaN_iff] at hx
  change x.toModel.unpack.isFinite ≠ true at h
  cases hf : x.toModel.unpack with
  | infinity s => exact ⟨s, rfl⟩
  | notANumber => exact absurd hf hx
  | zero s => rw [hf] at h; exact absurd rfl h
  | finite s m e hm => rw [hf] at h; exact absurd rfl h

theorem abs_value_le (x : Float) : |value x| ≤ limit := by
  have hlimit := limit_pos
  have hx := bounded_unpack x.toModel
  rw [value]
  generalize x.toModel.unpack = f at hx
  rw [abs_le]
  cases f with
  | notANumber => simpa [measure] using hlimit.le
  | infinity s => cases s <;> simp [measure, hlimit.le]
  | zero s => simpa [measure] using hlimit.le
  | finite s m e hm =>
    have hbelow := hx.lt
    have hpos := cast_mul_two_zpow_pos hm e
    cases s
    · rw [measure, withSign_negative]
      constructor <;> linarith
    · rw [measure, withSign_positive]
      constructor <;> linarith

/-- A number that is not negative is finite or the positive infinity. -/
theorem isFinite_or_infinity {x : Float} (hx : Scalar.isNaN x = false) (h : 0 ≤ value x) :
    x.isFinite = true ∨ x.toModel.unpack = .infinity .positive := by
  by_cases hfinite : x.isFinite = true
  · exact .inl hfinite
  · obtain ⟨s, hs⟩ := exists_infinity hx hfinite
    rw [value, hs] at h
    cases s
    · exact absurd h (not_le.mpr (neg_neg_of_pos limit_pos))
    · exact .inr hs

theorem value_of_infinity {x : Float} {s : Sign} (h : x.toModel.unpack = .infinity s) :
    value x = withSign s limit := by
  rw [value, h, measure]

/-- What comes out infinite is a number with the value of the infinity. -/
theorem pack_infinity (s : Sign) :
    Scalar.isNaN (⟨Float.Model.pack (.infinity s)⟩ : Float) = false ∧
      value ⟨Float.Model.pack (.infinity s)⟩ = withSign s limit := by
  have hlimit := limit_pos
  have hpack := (show Represents (.infinity s) (withSign s limit) from ⟨trivial, by simp, rfl⟩).pack
  refine ⟨hpack.1, hpack.2.trans ?_⟩
  cases s
  · rw [withSign_negative, min_eq_right (by linarith), max_self]
  · rw [withSign_positive, min_self, max_eq_right (by linarith)]

/-- The sum of numbers that are not negative is rounded, also if one is an infinity. -/
theorem add_eq_of_nonneg {x y : Float} (hx : Scalar.isNaN x = false) (hy : Scalar.isNaN y = false)
    (hx' : 0 ≤ value x) (hy' : 0 ≤ value y) :
    Scalar.isNaN (x + y) = false ∧ value (x + y) = rounded (value x + value y) := by
  have hinfinite : ∀ {x y : Float}, UnpackedFloat.add Format.binary64 x.toModel.unpack y.toModel.unpack =
      .infinity .positive → limit ≤ value x + value y →
      Scalar.isNaN (x + y) = false ∧ value (x + y) = rounded (value x + value y) := by
    intro x y hsum hlarge
    rw [rounded_of_limit_le hlarge]
    change Scalar.isNaN (⟨Float.Model.pack (UnpackedFloat.add _ _ _)⟩ : Float) = false ∧
      value ⟨Float.Model.pack (UnpackedFloat.add _ _ _)⟩ = _
    rw [hsum]
    exact pack_infinity .positive
  obtain hfx | hix := isFinite_or_infinity hx hx' <;> obtain hfy | hiy := isFinite_or_infinity hy hy'
  · exact add_eq hfx hfy
  · refine hinfinite ?_ (by rw [value_of_infinity hiy, withSign_positive]; linarith)
    obtain ⟨s, hs⟩ | ⟨s, m, e, hm, hs⟩ := isFinite_cases hfx
    · rw [hs, hiy]
      rfl
    · rw [hs, hiy]
      rfl
  · refine hinfinite ?_ (by rw [value_of_infinity hix, withSign_positive]; linarith)
    obtain ⟨s, hs⟩ | ⟨s, m, e, hm, hs⟩ := isFinite_cases hfy
    · rw [hix, hs]
      rfl
    · rw [hix, hs]
      rfl
  · refine hinfinite ?_ (by rw [value_of_infinity hix, withSign_positive]; linarith)
    rw [hix, hiy]
    rfl

/-- A finite double divided by an infinity is a zero. -/
theorem div_infinity {x y : Float} {s : Sign} (hx : x.isFinite = true)
    (hy : y.toModel.unpack = .infinity s) : Scalar.isNaN (x / y) = false ∧ value (x / y) = 0 := by
  have hquotient : ∃ t, UnpackedFloat.div Format.binary64 x.toModel.unpack y.toModel.unpack = .zero t := by
    obtain ⟨t, ht⟩ | ⟨t, m, e, hm, ht⟩ := isFinite_cases hx
    · rw [ht, hy]
      exact ⟨_, rfl⟩
    · rw [ht, hy]
      exact ⟨_, rfl⟩
  obtain ⟨t, ht⟩ := hquotient
  change Scalar.isNaN (⟨Float.Model.pack (UnpackedFloat.div _ _ _)⟩ : Float) = false ∧
    value ⟨Float.Model.pack (UnpackedFloat.div _ _ _)⟩ = 0
  rw [ht]
  have hlimit := limit_pos
  have hpack := (represents_zero t).pack
  rwa [min_eq_right hlimit.le, max_eq_right (by linarith)] at hpack

/-- A finite double divided by a number other than zero is a number. -/
theorem isNaN_div {x y : Float} (hx : x.isFinite = true) (hy : Scalar.isNaN y = false)
    (hne : value y ≠ 0) : Scalar.isNaN (x / y) = false := by
  by_cases hfinite : y.isFinite = true
  · exact (div_eq hx hfinite hne).1
  · obtain ⟨s, hs⟩ := exists_infinity hy hfinite
    exact (div_infinity hx hs).1

/-- Division by a positive double keeps the order. -/
theorem value_div_mono {x y z : Float} (hx : x.isFinite = true) (hy : y.isFinite = true)
    (hz : z.isFinite = true) (hpos : 0 < value z) (h : value x ≤ value y) :
    value (x / z) ≤ value (y / z) := by
  rw [(div_eq hx hz hpos.ne').2, (div_eq hy hz hpos.ne').2]
  exact rounded_mono (div_le_div_of_nonneg_right h hpos.le)

/-- A finite double whose value is zero is a zero. -/
theorem exists_zero {x : Float} (hx : x.isFinite = true) (h : value x = 0) :
    ∃ s, x.toModel.unpack = .zero s := by
  obtain hzero | ⟨s, m, e, hm, hs⟩ := isFinite_cases hx
  · exact hzero
  · have hpos := cast_mul_two_zpow_pos hm e
    rw [value, hs] at h
    cases s
    · exact absurd h (neg_neg_of_pos hpos).ne
    · exact absurd h hpos.ne'

/-- Zero divided by zero is not a number. -/
theorem isNaN_zero_div {x y : Float} (hx : x.isFinite = true) (hy : y.isFinite = true)
    (hx' : value x = 0) (hy' : value y = 0) : Scalar.isNaN (x / y) = true := by
  obtain ⟨s, hs⟩ := exists_zero hx hx'
  obtain ⟨t, ht⟩ := exists_zero hy hy'
  rw [← Bool.not_eq_false, isNaN_iff, not_not]
  change (Float.Model.pack (UnpackedFloat.div _ x.toModel.unpack y.toModel.unpack)).unpack = _
  rw [hs, ht]
  exact unpack_pack (f := .notANumber) trivial

/-- A positive double times an infinity is that infinity. -/
theorem mul_infinity {x y : Float} {s : Sign} (hx : x.isFinite = true) (hpos : 0 < value x)
    (hy : y.toModel.unpack = .infinity s) :
    Scalar.isNaN (x * y) = false ∧ value (x * y) = withSign s limit := by
  have hproduct : UnpackedFloat.mul Format.binary64 x.toModel.unpack y.toModel.unpack = .infinity s := by
    rw [value] at hpos
    obtain ⟨t, ht⟩ | ⟨t, m, e, hm, ht⟩ := isFinite_cases hx
    · rw [ht] at hpos
      exact absurd hpos (lt_irrefl 0)
    · rw [ht] at hpos
      rw [ht, hy]
      cases t
      · exact absurd hpos (not_lt.mpr (neg_nonpos.mpr (cast_mul_two_zpow_pos hm e).le))
      · cases s <;> rfl
  change Scalar.isNaN (⟨Float.Model.pack (UnpackedFloat.mul _ _ _)⟩ : Float) = false ∧
    value ⟨Float.Model.pack (UnpackedFloat.mul _ _ _)⟩ = _
  rw [hproduct]
  exact pack_infinity s

/-- Whether a double is finite and has a given value. -/
structure Exactly (x : Float) (q : ℚ) : Prop where
  finite : x.isFinite = true
  value_eq : value x = q

theorem Exactly.number {x : Float} {q : ℚ} (h : Exactly x q) : Scalar.isNaN x = false :=
  isNaN_of_isFinite h.finite

theorem isDouble_natCast_mul {n : ℕ} {e : ℤ} (hn : n ≤ 2 ^ 53) (he : -1074 ≤ e) :
    IsDouble (n * 2 ^ e) :=
  ⟨n, e, by rw [Nat.abs_cast]; exact_mod_cast hn, he, by rw [Int.cast_natCast]⟩

theorem natCast_mul_lt_limit {n : ℕ} {e : ℤ} (hn : n ≤ 2 ^ 53) (he : e ≤ 970) :
    (n : ℚ) * 2 ^ e < limit :=
  cast_mul_two_zpow_lt (k := 54) (by omega) (by push_cast; omega)

theorem natCast_lt_limit {n : ℕ} (hn : n ≤ 2 ^ 53) : (n : ℚ) < limit := by
  simpa using natCast_mul_lt_limit (e := 0) hn (by norm_num)

/-- A result with 53 digits is exact. -/
theorem exactly_of_rounded {x : Float} {n : ℕ} {e : ℤ}
    (h : Scalar.isNaN x = false ∧ value x = rounded (n * 2 ^ e)) (hn : n ≤ 2 ^ 53)
    (he : -1074 ≤ e) (he' : e ≤ 970) : Exactly x (n * 2 ^ e) := by
  have hlimit := limit_pos
  have hlt := natCast_mul_lt_limit hn he'
  have hnonneg : (0 : ℚ) ≤ n * 2 ^ e := mul_nonneg n.cast_nonneg (two_zpow_pos e).le
  have hvalue : value x = n * 2 ^ e :=
    h.2.trans ((isDouble_natCast_mul hn he).rounded_eq hnonneg hlt.le)
  exact ⟨isFinite_iff.mpr ⟨h.1, by rw [hvalue]; linarith, by rw [hvalue]; exact hlt⟩, hvalue⟩

theorem exactly_natCast {x : Float} {n : ℕ} (h : Scalar.isNaN x = false) (hvalue : value x = n)
    (hn : n ≤ 2 ^ 53) : Exactly x n := by
  have hlimit := limit_pos
  have hlt := natCast_lt_limit hn
  have hnonneg : (0 : ℚ) ≤ n := n.cast_nonneg
  exact ⟨isFinite_iff.mpr ⟨h, by rw [hvalue]; linarith, by rw [hvalue]; exact hlt⟩, hvalue⟩

theorem exactly_ofUInt64 {n : UInt64} (h : n.toNat ≤ 2 ^ 53) :
    Exactly (Scalar.ofUInt64 n) n.toNat := by
  obtain ⟨hnumber, hvalue⟩ := ofUInt64_eq n
  exact exactly_natCast hnumber (hvalue.trans (isDouble_natCast h).nearest_eq) h

theorem exactly_zero : Exactly Scalar.zero 0 := by
  have hexact := exactly_ofUInt64 (n := 0) (by decide)
  rw [UInt64.toNat_zero, Nat.cast_zero] at hexact
  exact hexact

theorem exactly_one : Exactly Scalar.one 1 := by
  have hexact := exactly_ofUInt64 (n := 1) (by decide)
  rw [UInt64.toNat_one, Nat.cast_one] at hexact
  exact hexact

theorem exactly_two : Exactly Scalar.two 2 := by
  have hexact := exactly_ofUInt64 (n := 2) (by decide)
  rw [show (2 : UInt64).toNat = 2 from rfl, Nat.cast_two] at hexact
  exact hexact

/-- The negative of a finite double has the negative value. -/
theorem Exactly.neg {x : Float} {q : ℚ} (h : Exactly x q) : Exactly (-x) (-q) := by
  obtain ⟨hnumber, hlower, hupper⟩ := isFinite_iff.mp h.finite
  have hcanonical := (bounded_unpack x.toModel).canonical
  have hrepresents : Represents x.toModel.unpack.neg (-value x) := by
    rw [isNaN_iff] at hnumber
    refine ⟨?_, ?_, measure_neg _⟩
    · cases hx : x.toModel.unpack <;> rw [hx] at hcanonical <;> exact hcanonical
    · cases hx : x.toModel.unpack with
      | notANumber => exact absurd hx hnumber
      | _ => nofun
  obtain ⟨hnumber', hvalue⟩ := hrepresents.pack
  rw [min_eq_right (by linarith), max_eq_right (by linarith), h.value_eq] at hvalue
  rw [h.value_eq] at hlower hupper
  have hneg : -x = ⟨Float.Model.pack x.toModel.unpack.neg⟩ := rfl
  rw [hneg]
  exact ⟨isFinite_iff.mpr ⟨hnumber', by rw [hvalue]; linarith, by rw [hvalue]; linarith⟩, hvalue⟩

theorem Exactly.isInf_eq {x : Float} {q : ℚ} (h : Exactly x q) : x.isInf = false := by
  have hfinite : x.toModel.unpack.isFinite = true := h.finite
  change x.toModel.unpack.isInf = false
  cases hx : x.toModel.unpack <;> rw [hx] at hfinite <;> first | rfl | cases hfinite

/-- A result that stays well within the limits is finite and the nearest double. -/
theorem exactly_nearest {x : Float} {q : ℚ} {e : ℤ} (h : Scalar.isNaN x = false ∧ value x = rounded q)
    (hq : |q| ≤ 2 ^ e) (he : -1074 ≤ e) (he' : e < 1024) : Exactly x (nearest q) := by
  have hpower := isDouble_two_zpow he
  have hlimit : (2 : ℚ) ^ e < limit := zpow_lt_zpow_right₀ (by norm_num) he'
  have hvalue : value x = nearest q := h.2.trans (rounded_eq_nearest (hq.trans (two_zpow_le (by omega))))
  have hupper := hpower.nearest_le (abs_le.mp hq).2
  have hlower := hpower.neg.le_nearest (abs_le.mp hq).1
  exact ⟨isFinite_iff.mpr ⟨h.1, by rw [hvalue]; linarith, by rw [hvalue]; linarith⟩, hvalue⟩

/-! ## Numbers that are not negative -/

/-- Whether a double is a number that is not negative. -/
structure Nonneg (x : Float) : Prop where
  number : Scalar.isNaN x = false
  nonneg : 0 ≤ value x

theorem Nonneg.add {x y : Float} (hx : Nonneg x) (hy : Nonneg y) :
    Nonneg (x + y) ∧ value (x + y) = rounded (value x + value y) := by
  obtain ⟨hnumber, hvalue⟩ := add_eq_of_nonneg hx.number hy.number hx.nonneg hy.nonneg
  refine ⟨⟨hnumber, ?_⟩, hvalue⟩
  rw [hvalue]
  exact rounded_nonneg (add_nonneg hx.nonneg hy.nonneg)

theorem ofUInt64_nonneg (n : UInt64) : Nonneg (Scalar.ofUInt64 n) := by
  obtain ⟨hnumber, hvalue⟩ := ofUInt64_eq n
  refine ⟨hnumber, ?_⟩
  rw [hvalue]
  exact nearest_nonneg n.toNat.cast_nonneg

theorem one_le_value_ofUInt64 {n : UInt64} (h : 0 < n) : 1 ≤ value (Scalar.ofUInt64 n) := by
  have hone : ((1 : ℕ) : ℚ) ≤ n.toNat := by exact_mod_cast UInt64.lt_iff_toNat_lt.mp h
  rw [(ofUInt64_eq n).2, ← Nat.cast_one]
  exact (isDouble_natCast (by norm_num)).le_nearest hone

theorem value_ofUInt64_le (n : UInt64) : value (Scalar.ofUInt64 n) ≤ 2 ^ (64 : ℤ) := by
  rw [(ofUInt64_eq n).2]
  exact (isDouble_two_zpow (by norm_num)).nearest_le (by exact_mod_cast n.toNat_lt.le)

/-- What is no larger than a power of two below the limit is finite. -/
theorem Nonneg.isFinite {x : Float} (h : Nonneg x) {e : ℤ} (he : e < 1024) (hle : value x ≤ 2 ^ e) :
    x.isFinite = true := by
  have hlimit : (2 : ℚ) ^ e < limit := zpow_lt_zpow_right₀ (by norm_num) he
  have hpos := limit_pos
  have hnonneg := h.nonneg
  exact isFinite_iff.mpr ⟨h.number, by linarith, by linarith⟩

/-- What is no larger than the machine integers is finite. -/
theorem isFinite_of_le {x : Float} (hnumber : Scalar.isNaN x = false) (hnonneg : 0 ≤ value x)
    (hle : value x ≤ 2 ^ (64 : ℤ)) : x.isFinite = true :=
  Nonneg.isFinite ⟨hnumber, hnonneg⟩ (by norm_num) hle

theorem isFinite_ofUInt64 (n : UInt64) : (Scalar.ofUInt64 n : Float).isFinite = true :=
  isFinite_of_le (ofUInt64_nonneg n).number (ofUInt64_nonneg n).nonneg (value_ofUInt64_le n)

theorem isFinite_max {x y : Float} (hx : x.isFinite = true) (hy : y.isFinite = true) :
    (Scalar.max x y).isFinite = true := by
  unfold Scalar.max
  split_ifs <;> assumption

end Allotment.Double
