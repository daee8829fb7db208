import Mathlib
import Allotment.Proofs.Scalar
import Allotment.Proofs.Double.Nearest

/-!
# The values of doubles

A double stands for a rational number: a finite one for its mantissa times a power of two, an infinity
for the number that is the first too large. What bits unpack to is canonical, packing a canonical form
overflows to an infinity exactly from that number on, and comparing doubles is comparing values.
-/

namespace Allotment.Double

open Float.Model (UnpackedFloat Format)
open Float.Model.UnpackedFloat (Sign)

/-- A number with a sign put before it. -/
def withSign : Sign → ℚ → ℚ
  | .negative, x => -x
  | .positive, x => x

@[simp] theorem withSign_negative (x : ℚ) : withSign .negative x = -x := rfl

@[simp] theorem withSign_positive (x : ℚ) : withSign .positive x = x := rfl

theorem cast_apply (s : Sign) (n : ℤ) : ((s.apply n : ℤ) : ℚ) = withSign s n := by
  cases s
  · exact Int.cast_neg n
  · rfl

theorem withSign_mul (s : Sign) (x y : ℚ) : withSign s x * y = withSign s (x * y) := by
  cases s
  · exact neg_mul x y
  · rfl

theorem nearest_withSign (s : Sign) (x : ℚ) : nearest (withSign s x) = withSign s (nearest x) := by
  cases s
  · exact nearest_neg x
  · rfl

/-- The first number that is too large to be rounded to a double. -/
def limit : ℚ := 2 ^ (1024 : ℤ)

theorem limit_pos : 0 < limit := two_zpow_pos _

/-- The value of an unpacked double. -/
def measure : UnpackedFloat → ℚ
  | .notANumber => 0
  | .infinity s => withSign s limit
  | .zero _ => 0
  | .finite s m e _ => withSign s (m * 2 ^ e)

/-- Whether a mantissa has 53 digits, fewer only above the smallest exponent. -/
def Normal (m : ℕ) (e : ℤ) : Prop := m < 2 ^ 53 ∧ -1074 ≤ e ∧ (2 ^ 52 ≤ m ∨ e = -1074)

/-- Whether a finite unpacked double has the mantissa and exponent its value asks for. -/
def Canonical : UnpackedFloat → Prop
  | .finite _ m e _ => Normal m e
  | _ => True

/-- Whether an unpacked double is canonical and, if finite, not too large. -/
def Bounded : UnpackedFloat → Prop
  | .finite _ m e _ => Normal m e ∧ e ≤ 971
  | _ => True

theorem Bounded.canonical {f : UnpackedFloat} (h : Bounded f) : Canonical f := by
  cases f with
  | finite s m e hm => exact h.1
  | _ => trivial

/-! ## Bits -/

/-- A fraction with the hidden bit in front of it. -/
theorem toNat_hidden_append (fraction : BitVec 52) :
    (1#1 ++ fraction).toNat = 2 ^ 52 + fraction.toNat := by
  rw [BitVec.toNat_append, ← Nat.shiftLeft_add_eq_or_of_lt fraction.isLt]
  rfl

/-- What a sign, eleven exponent bits and 52 fraction bits stand for. -/
def ofFields (s : Sign) (exponent : BitVec 11) (fraction : BitVec 52) : UnpackedFloat :=
  if exponent = -1#11 then
    if fraction = 0#52 then .infinity s else .notANumber
  else if exponent = 0#11 then
    if h : fraction = 0#52 then .zero s
    else .finite s fraction.toNat (exponent.toNat - 1075 + 1)
      (by simpa [BitVec.toNat_pos, BitVec.pos_iff_ne_zero])
  else .finite s (1#1 ++ fraction).toNat (exponent.toNat - 1075) (by rw [toNat_hidden_append]; omega)

theorem unpack_eq_ofFields (b : BitVec 64) :
    UnpackedFloat.unpack Format.binary64 b =
      ofFields (.ofBitVec (@UnpackedFloat.unpackSign Format.binary64 b))
        (@UnpackedFloat.unpackExponent Format.binary64 b)
        (@UnpackedFloat.unpackMantissa Format.binary64 b) := rfl

theorem ofBitVec_toBitVec (s : Sign) : Sign.ofBitVec s.toBitVec = s := by
  cases s <;> rfl

theorem unpackSign_packComponents (s : Sign) (exponent : BitVec 11) (fraction : BitVec 52) :
    UnpackedFloat.unpackSign
      (UnpackedFloat.packComponents Format.binary64 s exponent fraction) = s.toBitVec := by
  unfold UnpackedFloat.unpackSign UnpackedFloat.packComponents BitVec.extractLsb
  rw [BitVec.extractLsb'_append_eq_of_le (by decide), BitVec.extractLsb'_append_eq_of_le (by decide)]
  cases s <;> rfl

/-- Unpacking gives back the fields that were packed. -/
theorem unpack_packComponents (s : Sign) (exponent : BitVec 11) (fraction : BitVec 52) :
    UnpackedFloat.unpack Format.binary64
      (UnpackedFloat.packComponents Format.binary64 s exponent fraction) =
      ofFields s exponent fraction := by
  rw [unpack_eq_ofFields, unpackSign_packComponents, ofBitVec_toBitVec,
    UnpackedFloat.unpackExponent_packComponents, UnpackedFloat.unpackMantissa_packComponents]

/-- What fields stand for is canonical and not too large. -/
theorem bounded_ofFields (s : Sign) (exponent : BitVec 11) (fraction : BitVec 52) :
    Bounded (ofFields s exponent fraction) := by
  have hfraction := fraction.isLt
  have hexponent := exponent.isLt
  unfold ofFields
  split_ifs with hones hzero hlow hzero
  · trivial
  · trivial
  · trivial
  · have hlow : exponent.toNat = 0 := congrArg BitVec.toNat hlow
    refine ⟨⟨?_, ?_, .inr ?_⟩, ?_⟩ <;> omega
  · have hpositive : exponent.toNat ≠ 0 := fun h => hlow (BitVec.eq_of_toNat_eq h)
    have hbelow : exponent.toNat ≠ 2047 := fun h => hones (BitVec.eq_of_toNat_eq h)
    rw [Bounded, Normal, toNat_hidden_append]
    refine ⟨⟨?_, ?_, .inl ?_⟩, ?_⟩ <;> omega

theorem bounded_unpack (x : Float.Model) : Bounded x.unpack :=
  bounded_ofFields _ _ _

/-- What packing leaves of an unpacked double: a finite one that is too large becomes an infinity. -/
def saturate : UnpackedFloat → UnpackedFloat
  | .finite s m e h => if 972 ≤ e then .infinity s else .finite s m e h
  | f => f

theorem ofFields_normal (s : Sign) {m : ℕ} {e : ℤ} (hpos : 0 < m) (hm : m < 2 ^ 53)
    (hhidden : 2 ^ 52 ≤ m) (hlow : -1074 ≤ e) (hhigh : e ≤ 971) :
    ofFields s (BitVec.ofNat 11 (e + 1075).toNat) (BitVec.ofNat 52 m) = .finite s m e hpos := by
  have hexponent : (BitVec.ofNat 11 (e + 1075).toNat).toNat = (e + 1075).toNat :=
    Nat.mod_eq_of_lt (by omega)
  have hmantissa : (1#1 ++ BitVec.ofNat 52 m).toNat = m := by
    rw [toNat_hidden_append, BitVec.toNat_ofNat]
    omega
  have hones : BitVec.ofNat 11 (e + 1075).toNat ≠ -1#11 := by
    intro h
    have hbits := congrArg BitVec.toNat h
    rw [hexponent] at hbits
    have hones : (-1#11).toNat = 2047 := rfl
    omega
  have hzero : BitVec.ofNat 11 (e + 1075).toNat ≠ 0#11 := by
    intro h
    have hbits := congrArg BitVec.toNat h
    rw [hexponent, BitVec.toNat_ofNat] at hbits
    omega
  unfold ofFields
  rw [if_neg hones, if_neg hzero]
  rw [hexponent, UnpackedFloat.finite.injEq]
  exact ⟨rfl, hmantissa, by omega⟩

theorem ofFields_subnormal (s : Sign) {m : ℕ} (hpos : 0 < m) (hm : m < 2 ^ 52) :
    ofFields s 0#11 (BitVec.ofNat 52 m) = .finite s m (-1074) hpos := by
  have hmantissa : (BitVec.ofNat 52 m).toNat = m := Nat.mod_eq_of_lt hm
  have hzero : BitVec.ofNat 52 m ≠ 0#52 := by
    intro h
    have hbits := congrArg BitVec.toNat h
    rw [hmantissa, BitVec.toNat_ofNat] at hbits
    omega
  unfold ofFields
  rw [if_neg (by decide), if_pos rfl, dif_neg hzero]
  rw [UnpackedFloat.finite.injEq]
  exact ⟨rfl, hmantissa, rfl⟩

/-- Packing loses nothing but what is too large. -/
theorem unpack_pack {f : UnpackedFloat} (h : Canonical f) :
    (Float.Model.pack f).unpack = saturate f := by
  change UnpackedFloat.unpack Format.binary64 (UnpackedFloat.pack Format.binary64 f) = _
  cases f with
  | notANumber => exact unpack_packComponents _ _ _
  | infinity s => exact unpack_packComponents s _ _
  | zero s => exact unpack_packComponents s _ _
  | finite s m e hpos =>
    obtain ⟨hm, hlow, hhidden⟩ := h
    have hbiased : e + (Format.binary64.exponentBias : ℤ) +
        (Format.binary64.mantissaBitsWithoutImplicit : ℤ) = e + 1075 := by
      rw [add_assoc]
      rfl
    unfold UnpackedFloat.pack
    dsimp only
    rw [hbiased]
    dsimp only [saturate]
    by_cases hlarge : 972 ≤ e
    · rw [if_pos (by omega), if_pos hlarge]
      exact unpack_packComponents s _ _
    · rw [if_neg (by omega), if_neg hlarge]
      by_cases hnormal : 2 ^ 52 ≤ m
      · have hlog : m.log2 = 52 := (Nat.log2_eq_iff hpos.ne').mpr ⟨hnormal, hm⟩
        rw [if_pos (by rw [hlog]; rfl), unpack_packComponents]
        exact ofFields_normal s hpos hm hnormal hlow (by omega)
      · obtain rfl : e = -1074 := hhidden.resolve_left hnormal
        have hlog : m.log2 < 52 := (Nat.log2_lt hpos.ne').mpr (not_le.mp hnormal)
        rw [if_neg (by change ¬_ = 53; omega), unpack_packComponents]
        exact ofFields_subnormal s hpos (not_le.mp hnormal)

/-! ## The order of values -/

theorem cast_mul_two_zpow_lt {m : ℕ} {e f : ℤ} {k : ℕ} (hm : m < 2 ^ k) (h : e + k ≤ f) :
    (m : ℚ) * 2 ^ e < 2 ^ f := by
  calc (m : ℚ) * 2 ^ e
    _ < 2 ^ k * 2 ^ e := mul_lt_mul_of_pos_right (by exact_mod_cast hm) (two_zpow_pos e)
    _ = 2 ^ (k + e : ℤ) := by rw [two_zpow_add, zpow_natCast]
    _ ≤ 2 ^ f := two_zpow_le (by omega)

theorem two_zpow_le_cast_mul {m : ℕ} {e f : ℤ} {k : ℕ} (hm : 2 ^ k ≤ m) (h : f ≤ e + k) :
    (2 : ℚ) ^ f ≤ m * 2 ^ e := by
  calc (2 : ℚ) ^ f
    _ ≤ 2 ^ (k + e : ℤ) := two_zpow_le (by omega)
    _ = 2 ^ k * 2 ^ e := by rw [two_zpow_add, zpow_natCast]
    _ ≤ m * 2 ^ e := mul_le_mul_of_nonneg_right (by exact_mod_cast hm) (two_zpow_pos e).le

theorem cast_mul_two_zpow_pos {m : ℕ} (h : 0 < m) (e : ℤ) : (0 : ℚ) < m * 2 ^ e :=
  mul_pos (by exact_mod_cast h) (two_zpow_pos e)

/-- Canonical forms are in the order of exponents, then of mantissas. -/
theorem Normal.lt {m n : ℕ} {e f : ℤ} (hm : Normal m e) (hn : Normal n f)
    (h : e < f ∨ e = f ∧ m < n) : (m : ℚ) * 2 ^ e < n * 2 ^ f := by
  obtain hexponent | ⟨rfl, hmantissa⟩ := h
  · have hhidden : 2 ^ 52 ≤ n := hn.2.2.resolve_right (by have := hm.2.1; omega)
    calc (m : ℚ) * 2 ^ e
      _ < 2 ^ (e + 53) := cast_mul_two_zpow_lt hm.1 le_rfl
      _ ≤ n * 2 ^ f := two_zpow_le_cast_mul hhidden (by push_cast; omega)
  · exact mul_lt_mul_of_pos_right (by exact_mod_cast hmantissa) (two_zpow_pos e)

/-- A finite double is smaller than the value of the positive infinity. -/
theorem Bounded.lt {s : Sign} {m : ℕ} {e : ℤ} {h : 0 < m} (hf : Bounded (.finite s m e h)) :
    (m : ℚ) * 2 ^ e < limit :=
  cast_mul_two_zpow_lt hf.1.1 (by have := hf.2; push_cast; omega)

/-- The first part of a rank is where the value lies: at an infinity, at zero or between them. -/
theorem measure_of_rank {f : UnpackedFloat} (hf : Bounded f) {i : ℤ ×ₗ ℤ ×ₗ ℤ} (hi : rank f = some i) :
    (ofLex i).1 = -2 ∧ measure f = -limit ∨
    (ofLex i).1 = -1 ∧ -limit < measure f ∧ measure f < 0 ∨
    (ofLex i).1 = 0 ∧ measure f = 0 ∨
    (ofLex i).1 = 1 ∧ 0 < measure f ∧ measure f < limit ∨
    (ofLex i).1 = 2 ∧ measure f = limit := by
  cases f with
  | notANumber => cases hi
  | infinity s =>
    cases s <;> cases hi
    · exact .inl ⟨rfl, rfl⟩
    · exact .inr (.inr (.inr (.inr ⟨rfl, rfl⟩)))
  | zero s =>
    cases hi
    exact .inr (.inr (.inl ⟨rfl, rfl⟩))
  | finite s m e hm =>
    have hpos := cast_mul_two_zpow_pos hm e
    have hbelow := hf.lt
    cases s <;> cases hi
    · exact .inr (.inl ⟨rfl, neg_lt_neg hbelow, neg_neg_of_pos hpos⟩)
    · exact .inr (.inr (.inr (.inl ⟨rfl, hpos, hbelow⟩)))

/-- Apart from the finite doubles other than zero, the first part of a rank is all of it. -/
theorem rank_cases {f : UnpackedFloat} {i : ℤ ×ₗ ℤ ×ₗ ℤ} (hi : rank f = some i) :
    (∃ m e h, f = .finite .negative m e h ∧ i = toLex (-1, toLex (-e, -(m : ℤ)))) ∨
    (∃ m e h, f = .finite .positive m e h ∧ i = toLex (1, toLex (e, (m : ℤ)))) ∨
    ((ofLex i).1 ≠ -1 ∧ (ofLex i).1 ≠ 1 ∧ (ofLex i).2 = toLex (0, 0)) := by
  cases f with
  | notANumber => cases hi
  | infinity s => cases s <;> cases hi <;> exact .inr (.inr ⟨by decide, by decide, rfl⟩)
  | zero s => cases hi; exact .inr (.inr ⟨by decide, by decide, rfl⟩)
  | finite s m e hm =>
    cases s <;> cases hi
    · exact .inl ⟨m, e, hm, rfl, rfl⟩
    · exact .inr (.inl ⟨m, e, hm, rfl, rfl⟩)

/-- A smaller rank is a smaller value. -/
theorem measure_lt_of_rank_lt {f g : UnpackedFloat} (hf : Bounded f) (hg : Bounded g)
    {i j : ℤ ×ₗ ℤ ×ₗ ℤ} (hi : rank f = some i) (hj : rank g = some j) (h : i < j) :
    measure f < measure g := by
  have hlimit := limit_pos
  obtain hplace | ⟨hplace, hrest⟩ := Prod.Lex.lt_iff.mp h
  · obtain h | h | h | h | h := measure_of_rank hf hi <;>
      obtain h' | h' | h' | h' | h' := measure_of_rank hg hj <;>
      first | omega | linarith
  · -- at one place, only finite doubles of one sign differ in rank
    obtain ⟨m, e, hm, rfl, rfl⟩ | ⟨m, e, hm, rfl, rfl⟩ | hi := rank_cases hi <;>
      obtain ⟨n, e', hn, rfl, rfl⟩ | ⟨n, e', hn, rfl, rfl⟩ | hj := rank_cases hj
    · have hlt := hg.1.lt hf.1 ((Prod.Lex.toLex_lt_toLex.mp hrest).imp (by omega) (by omega))
      exact neg_lt_neg hlt
    · cases hplace
    · exact absurd hplace.symm hj.1
    · cases hplace
    · exact hf.1.lt hg.1 ((Prod.Lex.toLex_lt_toLex.mp hrest).imp (by omega) (by omega))
    · exact absurd hplace.symm hj.2.1
    · exact absurd hplace hi.1
    · exact absurd hplace hi.2.1
    · rw [hi.2.2, hj.2.2] at hrest
      exact absurd hrest (lt_irrefl _)

/-- Doubles of one rank have one value. -/
theorem measure_eq_of_rank_eq {f g : UnpackedFloat} (hf : Bounded f) (hg : Bounded g)
    {i : ℤ ×ₗ ℤ ×ₗ ℤ} (hi : rank f = some i) (hj : rank g = some i) : measure f = measure g := by
  have hf := measure_of_rank hf hi
  have hg := measure_of_rank hg hj
  obtain ⟨m, e, hm, rfl, rfl⟩ | ⟨m, e, hm, rfl, rfl⟩ | hi := rank_cases hi
  · obtain ⟨n, e', hn, rfl, h⟩ | ⟨n, e', hn, rfl, h⟩ | hj := rank_cases hj
    · simp only [EmbeddingLike.apply_eq_iff_eq, Prod.mk.injEq, neg_inj, Nat.cast_inj, true_and] at h
      obtain ⟨rfl, rfl⟩ := h
      rfl
    · simp at h
    · exact absurd rfl hj.1
  · obtain ⟨n, e', hn, rfl, h⟩ | ⟨n, e', hn, rfl, h⟩ | hj := rank_cases hj
    · simp at h
    · simp only [EmbeddingLike.apply_eq_iff_eq, Prod.mk.injEq, Nat.cast_inj, true_and] at h
      obtain ⟨rfl, rfl⟩ := h
      rfl
    · exact absurd rfl hj.2.1
  · obtain h | h | h | h | h := hf <;> obtain h' | h' | h' | h' | h' := hg <;>
      first | omega | linarith

/-! ## Values of doubles -/

/-- The value of a double. -/
def value (x : Float) : ℚ := measure x.toModel.unpack

/-- A double is at most another one exactly if its value is. -/
theorem le_iff_value_le {x y : Float} (hx : Scalar.isNaN x = false) (hy : Scalar.isNaN y = false) :
    Scalar.le x y = true ↔ value x ≤ value y := by
  obtain ⟨i, hi⟩ := isNaN_eq_false_iff.mp hx
  obtain ⟨j, hj⟩ := isNaN_eq_false_iff.mp hy
  have hle : Scalar.le x y = true ↔ i ≤ j := by simp [le_iff, hi, hj]
  have hbx := bounded_unpack x.toModel
  have hby := bounded_unpack y.toModel
  rw [hle]
  obtain hlt | rfl | hgt := lt_trichotomy i j
  · exact iff_of_true hlt.le (measure_lt_of_rank_lt hbx hby hi hj hlt).le
  · exact iff_of_true le_rfl (measure_eq_of_rank_eq hbx hby hi hj).le
  · exact iff_of_false hgt.not_ge (measure_lt_of_rank_lt hby hbx hj hi hgt).not_ge

/-- A double is less than another one exactly if its value is. -/
theorem lt_iff_value_lt {x y : Float} (hx : Scalar.isNaN x = false) (hy : Scalar.isNaN y = false) :
    Scalar.lt x y = true ↔ value x < value y := by
  rw [Scalar.Comparable.lt_iff, ← Bool.not_eq_true, le_iff_value_le hx hy, le_iff_value_le hy hx,
    ← lt_iff_le_not_ge]

theorem isNaN_iff {x : Float} : Scalar.isNaN x = false ↔ x.toModel.unpack ≠ .notANumber := by
  rw [isNaN_eq_false_iff]
  cases x.toModel.unpack with
  | notANumber => simp [rank]
  | infinity s => cases s <;> simp [rank]
  | zero s => simp [rank]
  | finite s m e hm => cases s <;> simp [rank]

theorem value_max {x y : Float} (hx : Scalar.isNaN x = false) (hy : Scalar.isNaN y = false) :
    value (Scalar.max x y) = max (value x) (value y) := by
  unfold Scalar.max
  rw [hx, if_neg Bool.false_ne_true]
  split_ifs with h
  · exact (max_eq_right ((lt_iff_value_lt hx hy).mp h).le).symm
  · exact (max_eq_left (not_lt.mp (mt (lt_iff_value_lt hx hy).mpr h))).symm

theorem value_min {x y : Float} (hx : Scalar.isNaN x = false) (hy : Scalar.isNaN y = false) :
    value (Scalar.min x y) = min (value x) (value y) := by
  unfold Scalar.min
  rw [hx, if_neg Bool.false_ne_true]
  split_ifs with h
  · exact (min_eq_right ((lt_iff_value_lt hy hx).mp h).le).symm
  · exact (min_eq_left (not_lt.mp (mt (lt_iff_value_lt hy hx).mpr h))).symm

theorem isNaN_max {x y : Float} (hx : Scalar.isNaN x = false) (hy : Scalar.isNaN y = false) :
    Scalar.isNaN (Scalar.max x y) = false := by
  unfold Scalar.max
  split_ifs <;> assumption

theorem isNaN_min {x y : Float} (hx : Scalar.isNaN x = false) (hy : Scalar.isNaN y = false) :
    Scalar.isNaN (Scalar.min x y) = false := by
  unfold Scalar.min
  split_ifs <;> assumption

/-- A finite double is a zero or has a mantissa. -/
theorem isFinite_cases {f : UnpackedFloat} (h : f.isFinite = true) :
    (∃ s, f = .zero s) ∨ ∃ s m e hm, f = .finite s m e hm := by
  cases f with
  | notANumber => cases h
  | infinity s => cases h
  | zero s => exact .inl ⟨s, rfl⟩
  | finite s m e hm => exact .inr ⟨s, m, e, hm, rfl⟩

/-- A double is finite exactly if it is a number and its value lies inside the limits. -/
theorem isFinite_iff {x : Float} :
    x.isFinite = true ↔ Scalar.isNaN x = false ∧ -limit < value x ∧ value x < limit := by
  have hlimit := limit_pos
  have hx := bounded_unpack x.toModel
  rw [isNaN_iff]
  change x.toModel.unpack.isFinite = true ↔
    _ ∧ -limit < measure x.toModel.unpack ∧ measure x.toModel.unpack < limit
  generalize x.toModel.unpack = f at hx
  cases f with
  | notANumber => simp [UnpackedFloat.isFinite]
  | infinity s => cases s <;> simp [UnpackedFloat.isFinite, measure, withSign]
  | zero s => simpa [UnpackedFloat.isFinite, measure] using hlimit
  | finite s m e hm =>
    have hbelow := hx.lt
    have hpos := cast_mul_two_zpow_pos hm e
    refine iff_of_true rfl ⟨by simp, ?_⟩
    cases s
    · exact ⟨neg_lt_neg hbelow, by change -_ < _; linarith⟩
    · exact ⟨by change _ < _ * _; linarith, hbelow⟩

/-! ## What a double comes to after rounding -/

/-- The double nearest to a number, an infinity from the limit on. -/
def rounded (x : ℚ) : ℚ := max (-limit) (min limit (nearest x))

theorem rounded_mono {x y : ℚ} (h : x ≤ y) : rounded x ≤ rounded y :=
  max_le_max_left _ (min_le_min_left _ (nearest_mono h))

theorem rounded_le_limit (x : ℚ) : rounded x ≤ limit :=
  max_le (by have := limit_pos; linarith) (min_le_left _ _)

/-- Rounding stays within the limits below the largest power of two. -/
theorem rounded_eq_nearest {x : ℚ} (h : |x| ≤ 2 ^ (1023 : ℤ)) : rounded x = nearest x := by
  have hlimit : (2 : ℚ) ^ (1023 : ℤ) ≤ limit := two_zpow_le (by norm_num)
  have hpower := isDouble_two_zpow (e := 1023) (by norm_num)
  have hupper := hpower.nearest_le (abs_le.mp h).2
  have hlower := hpower.neg.le_nearest (abs_le.mp h).1
  rw [rounded, min_eq_right (hupper.trans hlimit), max_eq_right (by linarith)]

theorem rounded_of_limit_le {x : ℚ} (h : limit ≤ x) : rounded x = limit := by
  have hlimit := limit_pos
  have hnearest : limit ≤ nearest x := (isDouble_two_zpow (by norm_num)).le_nearest h
  rw [rounded, min_eq_left hnearest, max_eq_right (by linarith)]

/-- Rounding leaves doubles below the limit as they are. -/
theorem IsDouble.rounded_eq {x : ℚ} (h : IsDouble x) (hnonneg : 0 ≤ x) (hle : x ≤ limit) :
    rounded x = x := by
  have hlimit := limit_pos
  rw [rounded, h.nearest_eq, min_eq_right hle, max_eq_right (by linarith)]

theorem rounded_zero : rounded 0 = 0 := by
  have hlimit := limit_pos
  rw [rounded, nearest_zero, min_eq_right hlimit.le, max_eq_right (by linarith)]

theorem rounded_nonneg {x : ℚ} (h : 0 ≤ x) : 0 ≤ rounded x :=
  le_max_of_le_right (le_min limit_pos.le (nearest_nonneg h))

/-- A number is not rounded below a double that is no larger. -/
theorem IsDouble.le_rounded {x z : ℚ} (hz : IsDouble z) (hlimit : z ≤ limit) (h : z ≤ x) :
    z ≤ rounded x :=
  le_max_of_le_right (le_min hlimit (hz.le_nearest h))

/-- What is not negative is not rounded up by cutting it at the limit. -/
theorem rounded_le_nearest {x : ℚ} (h : 0 ≤ x) : rounded x ≤ nearest x := by
  have hlimit := limit_pos
  exact max_le (by have := nearest_nonneg h; linarith) (min_le_right _ _)

/-- Whether an unpacked double is canonical and stands for a number. -/
structure Represents (f : UnpackedFloat) (x : ℚ) : Prop where
  canonical : Canonical f
  number : f ≠ .notANumber
  measure_eq : measure f = x

/-- A zero of either sign stands for zero. -/
theorem represents_zero (s : Sign) : Represents (.zero s) 0 := ⟨trivial, by simp, rfl⟩

theorem measure_saturate {f : UnpackedFloat} (h : Canonical f) :
    measure (saturate f) = max (-limit) (min limit (measure f)) := by
  have hlimit := limit_pos
  cases f with
  | notANumber => simp [saturate, measure, hlimit.le]
  | infinity s => cases s <;> simp [saturate, measure, withSign, hlimit.le]
  | zero s => simp [saturate, measure, hlimit.le]
  | finite s m e hm =>
    have hpos := cast_mul_two_zpow_pos hm e
    by_cases hlarge : 972 ≤ e
    · have hhidden : 2 ^ 52 ≤ m := h.2.2.resolve_right (by omega)
      have habove : limit ≤ m * 2 ^ e := two_zpow_le_cast_mul hhidden (by push_cast; omega)
      simp only [saturate, if_pos hlarge, measure]
      cases s
      · rw [withSign_negative, withSign_negative, min_eq_right (by linarith),
          max_eq_left (by linarith)]
      · rw [withSign_positive, withSign_positive, min_eq_left habove, max_eq_right (by linarith)]
    · have hbelow : (m : ℚ) * 2 ^ e < limit :=
        (show Bounded (.finite s m e hm) from ⟨h, by omega⟩).lt
      simp only [saturate, if_neg hlarge, measure]
      cases s
      · rw [withSign_negative, min_eq_right (by linarith), max_eq_right (by linarith)]
      · rw [withSign_positive, min_eq_right hbelow.le, max_eq_right (by linarith)]

theorem saturate_ne_notANumber {f : UnpackedFloat} (h : f ≠ .notANumber) :
    saturate f ≠ .notANumber := by
  cases f with
  | finite s m e hm =>
    simp only [saturate]
    split_ifs <;> simp
  | _ => exact h

/-- Packing a canonical form gives the double of its value. -/
theorem Represents.pack {f : UnpackedFloat} {x : ℚ} (h : Represents f x) :
    Scalar.isNaN (⟨Float.Model.pack f⟩ : Float) = false ∧
      value ⟨Float.Model.pack f⟩ = max (-limit) (min limit x) := by
  constructor
  · rw [isNaN_iff, unpack_pack h.canonical]
    exact saturate_ne_notANumber h.number
  · rw [value, unpack_pack h.canonical, measure_saturate h.canonical, h.measure_eq]

end Allotment.Double
