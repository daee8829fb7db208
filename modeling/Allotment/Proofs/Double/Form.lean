import Allotment.Scalar.Double
import Allotment.Proofs.Double.Arithmetic

/-!
# Doubles and their bits

What the bits of a double show is what the double unpacks to. The bits can be told from it again, so finite
doubles other than zero are equal if their values are.
-/

namespace Allotment.Double

open Decimal (Binary)
open Float.Model (Format UnpackedFloat)
open Float.Model.UnpackedFloat (Sign)

/-- Whether a binary fraction is that of a double. -/
structure IsFraction (b : Binary) : Prop where
  normal : Normal b.mantissa b.exponent
  pos : 0 < b.mantissa
  narrow : b.narrowBelow = true ↔ b.mantissa = 2 ^ 52 ∧ -1074 < b.exponent

/-- The value of a binary fraction. -/
def fractionValue (b : Binary) : ℚ := b.mantissa * 2 ^ b.exponent

/-- The sign that is shown. -/
def signOf (negative : Bool) : Sign := if negative then .negative else .positive

theorem toNat_unpackExponent (x : Float) :
    (@UnpackedFloat.unpackExponent Format.binary64 x.toModel.toBits.toBitVec).toNat =
      x.toBits.toNat / hiddenBit % 0x800 := by
  change (BitVec.extractLsb 62 52 x.toModel.toBits.toBitVec).toNat = _
  rw [BitVec.extractLsb_toNat, Nat.shiftRight_eq_div_pow]
  rfl

theorem toNat_unpackMantissa (x : Float) :
    (@UnpackedFloat.unpackMantissa Format.binary64 x.toModel.toBits.toBitVec).toNat =
      x.toBits.toNat % hiddenBit := by
  change (BitVec.extractLsb 51 0 x.toModel.toBits.toBitVec).toNat = _
  rw [BitVec.extractLsb_toNat, Nat.shiftRight_zero]
  rfl

theorem ofBitVec_unpackSign (x : Float) :
    Sign.ofBitVec (@UnpackedFloat.unpackSign Format.binary64 x.toModel.toBits.toBitVec) =
      signOf (decide (0x8000000000000000 ≤ x.toBits.toNat)) := by
  have hbits := x.toBits.toNat_lt
  have hsign : (@UnpackedFloat.unpackSign Format.binary64 x.toModel.toBits.toBitVec).toNat =
      x.toBits.toNat / 2 ^ 63 % 2 := by
    change (BitVec.extractLsb 63 63 x.toModel.toBits.toBitVec).toNat = _
    rw [BitVec.extractLsb_toNat, Nat.shiftRight_eq_div_pow]
    rfl
  have hzero : @UnpackedFloat.unpackSign Format.binary64 x.toModel.toBits.toBitVec = 0#1 ↔
      ¬ 0x8000000000000000 ≤ x.toBits.toNat := by
    rw [← BitVec.toNat_inj, hsign, BitVec.toNat_ofNat]
    omega
  unfold Sign.ofBitVec signOf
  by_cases h : 0x8000000000000000 ≤ x.toBits.toNat
  · rw [if_neg (mt hzero.mp (not_not.mpr h)), if_pos (decide_eq_true h)]
  · rw [if_pos (hzero.mpr h), if_neg (by simpa using h)]

/-- What a double is, read off its bits, is what it unpacks to. -/
theorem unpack_of_form (x : Float) : match form x with
    | .nan => x.toModel.unpack = .notANumber
    | .infinite negative => x.toModel.unpack = .infinity (signOf negative)
    | .zero negative => x.toModel.unpack = .zero (signOf negative)
    | .fraction negative b =>
      IsFraction b ∧ ∃ h, x.toModel.unpack = .finite (signOf negative) b.mantissa b.exponent h := by
  have hunpack := unpack_eq_ofFields x.toModel.toBits.toBitVec
  rw [ofBitVec_unpackSign] at hunpack
  have hexponent := toNat_unpackExponent x
  have hfraction := toNat_unpackMantissa x
  have hlimit : (@UnpackedFloat.unpackMantissa Format.binary64 x.toModel.toBits.toBitVec).toNat < 2 ^ 52 :=
    BitVec.isLt _
  generalize @UnpackedFloat.unpackExponent Format.binary64 x.toModel.toBits.toBitVec = exponent at *
  generalize @UnpackedFloat.unpackMantissa Format.binary64 x.toModel.toBits.toBitVec = fraction at *
  have hunpack : x.toModel.unpack = ofFields (signOf (decide (0x8000000000000000 ≤ x.toBits.toNat))) exponent fraction :=
    hunpack
  have hones : exponent = -1#11 ↔ exponent.toNat = 2047 := by rw [← BitVec.toNat_inj]; rfl
  have hlow : exponent = 0#11 ↔ exponent.toNat = 0 := by rw [← BitVec.toNat_inj]; rfl
  have hzero : fraction = 0#52 ↔ fraction.toNat = 0 := by rw [← BitVec.toNat_inj]; rfl
  unfold form
  dsimp only
  rw [hunpack, ← hexponent, ← hfraction]
  unfold ofFields
  by_cases h1 : exponent.toNat = 2047
  · rw [if_pos h1, if_pos (hones.mpr h1)]
    by_cases h2 : fraction.toNat = 0
    · rw [if_pos h2, if_pos (hzero.mpr h2)]
    · rw [if_neg h2, if_neg (mt hzero.mp h2)]
  · rw [if_neg h1, if_neg (mt hones.mp h1)]
    by_cases h3 : exponent.toNat = 0
    · rw [if_pos h3, if_pos (hlow.mpr h3)]
      by_cases h2 : fraction.toNat = 0
      · rw [if_pos h2, dif_pos (hzero.mpr h2)]
      · rw [if_neg h2, dif_neg (mt hzero.mp h2)]
        refine ⟨⟨⟨?_, le_rfl, .inr rfl⟩, Nat.pos_of_ne_zero h2, ?_⟩, Nat.pos_of_ne_zero h2, ?_⟩
        · exact hlimit.trans (by norm_num)
        · exact iff_of_false Bool.false_ne_true fun h => lt_irrefl _ h.2
        · rw [UnpackedFloat.finite.injEq, h3]
          exact ⟨rfl, rfl, rfl⟩
    · rw [if_neg h3, if_neg (mt hlow.mp h3)]
      have hhidden : hiddenBit = 2 ^ 52 := rfl
      refine ⟨⟨⟨?_, ?_, .inl ?_⟩, ?_, ?_⟩, ?_, ?_⟩
      · change fraction.toNat + hiddenBit < 2 ^ 53
        omega
      · change -1074 ≤ (exponent.toNat : ℤ) - 1075
        omega
      · change 2 ^ 52 ≤ fraction.toNat + hiddenBit
        omega
      · change 0 < fraction.toNat + hiddenBit
        omega
      · change (decide (fraction.toNat = 0) && decide (1 < exponent.toNat)) = true ↔
          fraction.toNat + hiddenBit = 2 ^ 52 ∧ -1074 < (exponent.toNat : ℤ) - 1075
        rw [Bool.and_eq_true, decide_eq_true_iff, decide_eq_true_iff]
        omega
      · change 0 < fraction.toNat + hiddenBit
        omega
      · rw [UnpackedFloat.finite.injEq, toNat_hidden_append]
        exact ⟨rfl, Nat.add_comm _ _, rfl⟩

/-- The bits of a form. -/
def bitsOf : Form → ℕ
  | .nan => 0
  | .infinite negative => (if negative then 0x8000000000000000 else 0) + 2047 * hiddenBit
  | .zero negative => if negative then 0x8000000000000000 else 0
  | .fraction negative b => (if negative then 0x8000000000000000 else 0) +
      if b.mantissa < hiddenBit then b.mantissa
      else (b.exponent + 1075).toNat * hiddenBit + (b.mantissa - hiddenBit)

/-- The form of a number shows all of its bits. -/
theorem bitsOf_form {x : Float} (h : form x ≠ .nan) : bitsOf (form x) = x.toBits.toNat := by
  have hbits : x.toBits.toNat < 0x10000000000000000 := x.toBits.toNat_lt
  have hhidden : hiddenBit = 0x10000000000000 := rfl
  have hsign : (if decide (0x8000000000000000 ≤ x.toBits.toNat) = true then 0x8000000000000000 else 0) =
      x.toBits.toNat / 0x8000000000000000 * 0x8000000000000000 := by
    by_cases hnegative : 0x8000000000000000 ≤ x.toBits.toNat
    · rw [if_pos (decide_eq_true hnegative)]
      omega
    · rw [if_neg (by simpa using hnegative)]
      omega
  unfold form at h ⊢
  dsimp only at h ⊢
  rw [hhidden] at h ⊢
  generalize x.toBits.toNat = bits at *
  by_cases hones : bits / 0x10000000000000 % 0x800 = 2047
  · rw [if_pos hones] at h ⊢
    by_cases hzero : bits % 0x10000000000000 = 0
    · rw [if_pos hzero, bitsOf, hsign, hhidden]
      omega
    · rw [if_neg hzero] at h
      exact absurd rfl h
  · rw [if_neg hones]
    by_cases hlow : bits / 0x10000000000000 % 0x800 = 0
    · rw [if_pos hlow]
      by_cases hzero : bits % 0x10000000000000 = 0
      · rw [if_pos hzero, bitsOf, hsign]
        omega
      · rw [if_neg hzero, bitsOf, hsign, hhidden]
        dsimp only
        rw [if_pos (Nat.mod_lt _ (by decide))]
        omega
    · rw [if_neg hlow, bitsOf, hsign, hhidden]
      dsimp only
      rw [if_neg (by omega), Int.ofNat_eq_natCast]
      omega

/-- Numbers of one form are equal. -/
theorem eq_of_form_eq {x y : Float} (h : form x = form y) (hx : form x ≠ .nan) : x = y := by
  rw [← Float.toBits_inj, ← UInt64.toNat_inj, ← bitsOf_form hx, ← bitsOf_form (h ▸ hx), h]

/-! ## Fractions and their values -/

theorem IsFraction.value_pos {b : Binary} (hb : IsFraction b) : 0 < fractionValue b :=
  cast_mul_two_zpow_pos hb.pos _

/-- Fractions of one value are equal. -/
theorem IsFraction.eq_of_value_eq {b c : Binary} (hb : IsFraction b) (hc : IsFraction c)
    (h : fractionValue b = fractionValue c) : b = c := by
  have hexponent : b.exponent = c.exponent := by
    obtain hlt | heq | hgt := lt_trichotomy b.exponent c.exponent
    · exact absurd h (hb.normal.lt hc.normal (.inl hlt)).ne
    · exact heq
    · exact absurd h (hc.normal.lt hb.normal (.inl hgt)).ne'
  have hmantissa : b.mantissa = c.mantissa := by
    obtain hlt | heq | hgt := lt_trichotomy b.mantissa c.mantissa
    · exact absurd h (hb.normal.lt hc.normal (.inr ⟨hexponent, hlt⟩)).ne
    · exact heq
    · exact absurd h (hc.normal.lt hb.normal (.inr ⟨hexponent.symm, hgt⟩)).ne'
  have hnarrow : b.narrowBelow = c.narrowBelow := by
    rw [Bool.eq_iff_iff, hb.narrow, hc.narrow, hmantissa, hexponent]
  obtain ⟨m, e, narrow⟩ := b
  obtain ⟨m', e', narrow'⟩ := c
  cases hmantissa
  cases hexponent
  cases hnarrow
  rfl

/-- A double that shows a fraction has its value. -/
theorem exactly_of_form {x : Float} {negative : Bool} {b : Binary} (h : form x = .fraction negative b) :
    IsFraction b ∧ Exactly x (withSign (signOf negative) (fractionValue b)) := by
  have hunpack := unpack_of_form x
  rw [h] at hunpack
  obtain ⟨hb, hpos, hunpack⟩ := hunpack
  refine ⟨hb, ?_, ?_⟩
  · change x.toModel.unpack.isFinite = true
    rw [hunpack]
    rfl
  · rw [value, hunpack]
    rfl

/-- A finite double other than zero shows a fraction. -/
theorem exists_fraction {x : Float} (hx : x.isFinite = true) (hne : value x ≠ 0) :
    ∃ negative b, form x = .fraction negative b := by
  have hunpack := unpack_of_form x
  rw [value] at hne
  change x.toModel.unpack.isFinite = true at hx
  cases hform : form x with
  | fraction negative b => exact ⟨negative, b, rfl⟩
  | nan =>
    rw [hform] at hunpack
    rw [hunpack] at hx
    cases hx
  | infinite negative =>
    rw [hform] at hunpack
    rw [hunpack] at hx
    cases hx
  | zero negative =>
    rw [hform] at hunpack
    rw [hunpack] at hne
    exact absurd rfl hne

/-- Signs and fractions can be told from the value. -/
theorem withSign_signOf_inj {negative negative' : Bool} {q r : ℚ} (hq : 0 < q) (hr : 0 < r)
    (h : withSign (signOf negative) q = withSign (signOf negative') r) : negative = negative' ∧ q = r := by
  cases negative <;> cases negative'
  · exact ⟨rfl, h⟩
  · change q = -r at h
    linarith
  · change -q = r at h
    linarith
  · exact ⟨rfl, neg_inj.mp h⟩

/-- Finite doubles of one value other than zero are equal. -/
theorem eq_of_value_eq {x y : Float} (hx : x.isFinite = true) (hy : y.isFinite = true) (hne : value x ≠ 0)
    (h : value x = value y) : x = y := by
  obtain ⟨negative, b, hform⟩ := exists_fraction hx hne
  obtain ⟨negative', c, hform'⟩ := exists_fraction hy (h ▸ hne)
  obtain ⟨hb, -, hvalue⟩ := exactly_of_form hform
  obtain ⟨hc, -, hvalue'⟩ := exactly_of_form hform'
  rw [hvalue, hvalue'] at h
  obtain ⟨rfl, hfraction⟩ := withSign_signOf_inj hb.value_pos hc.value_pos h
  obtain rfl := hb.eq_of_value_eq hc hfraction
  exact eq_of_form_eq (hform.trans hform'.symm) (by rw [hform]; nofun)

end Allotment.Double
