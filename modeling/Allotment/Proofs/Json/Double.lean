import Allotment.Json.Number
import Allotment.Proofs.Double.Shortest

/-!
# Doubles read as they are written

A number whose digits fit into 53 bits and that is at most a power `10 ^ 22` away from them is read with one
multiplication or division of exact doubles, and thus as the nearest double. Doubles that are written as such a
number are read back, among them the whole numbers that leave room for the zero behind the point.
-/

namespace Allotment.Json.Number

open Double

/-! ## Powers of ten -/

/-- Whether a form shows a natural number. -/
def shows (n : ℕ) : Form → Bool
  | .fraction false b => b.mantissa * 2 ^ b.exponent.toNat = n * 2 ^ (-b.exponent).toNat
  | _ => false

/-- A double that shows a natural number has its value. -/
theorem exactly_of_shows {x : Float} {n : ℕ} (h : shows n (form x) = true) : Exactly x n := by
  unfold shows at h
  split at h
  · rename_i b hform
    have hexact := (exactly_of_form hform).2
    have hcast : (b.mantissa : ℚ) * 2 ^ b.exponent.toNat = n * 2 ^ (-b.exponent).toNat := by
      exact_mod_cast of_decide_eq_true h
    rw [← zpow_mul_pow_toNat (two_ne_zero (α := ℚ)) b.exponent, ← mul_assoc] at hcast
    have hvalue : fractionValue b = n := mul_right_cancel₀ (by positivity) hcast
    change Exactly x (fractionValue b) at hexact
    rwa [hvalue] at hexact
  · cases h

/-- Powers of ten up to `10 ^ 22` are doubles. -/
theorem exactly_powerOfTen {k : ℕ} (hk : k ≤ 22) : Exactly (powerOfTen k) (10 ^ k) := by
  have hall : ((List.range 23).all fun k => shows (10 ^ k) (form (powerOfTen k))) = true := by decide +kernel
  have hexact := exactly_of_shows (List.all_eq_true.mp hall k (List.mem_range.mpr (by omega)))
  rwa [Nat.cast_pow, Nat.cast_ofNat] at hexact

/-- An exact double is scaled by a power of ten that is a double with one rounding. -/
theorem exists_scaled? {s : UInt64} {e : ℤ} (hs : s.toNat ≤ 2 ^ 53) (he : e.natAbs ≤ 22) :
    ∃ x, scaled? s.toFloat e = some x ∧ Exactly x (nearest (s.toNat * 10 ^ e)) := by
  have hexact : Exactly s.toFloat s.toNat := exactly_ofUInt64 hs
  have hpower := exactly_powerOfTen he
  have hnonneg : (0 : ℚ) ≤ s.toNat := Nat.cast_nonneg _
  have hone : (1 : ℚ) ≤ 10 ^ e.natAbs := one_le_pow₀ (by norm_num)
  have hbound : (s.toNat : ℚ) * 10 ^ e.natAbs ≤ 2 ^ (127 : ℤ) := by
    have hs : (s.toNat : ℚ) ≤ 2 ^ 53 := by exact_mod_cast hs
    calc (s.toNat : ℚ) * 10 ^ e.natAbs
      _ ≤ 2 ^ 53 * 10 ^ 22 := mul_le_mul hs (pow_le_pow_right₀ (by norm_num) he) (by positivity) (by positivity)
      _ ≤ 2 ^ (127 : ℤ) := by norm_num
  rw [scaled?, if_pos (by omega)]
  by_cases hsign : 0 ≤ e
  · have hproduct := mul_eq hexact.finite hpower.finite
    rw [hexact.value_eq, hpower.value_eq] at hproduct
    have hresult := exactly_nearest hproduct (abs_of_nonneg (by positivity) |>.trans_le hbound) (by decide) (by decide)
    rw [← zpow_natCast, Int.natAbs_of_nonneg hsign] at hresult
    rw [if_pos hsign]
    dsimp only
    rw [hresult.isInf_eq, if_neg Bool.false_ne_true]
    exact ⟨_, rfl, hresult⟩
  · have hquotient := div_eq hexact.finite hpower.finite (by rw [hpower.value_eq]; positivity)
    rw [hexact.value_eq, hpower.value_eq] at hquotient
    have hless : (s.toNat : ℚ) / 10 ^ e.natAbs ≤ 2 ^ (127 : ℤ) :=
      (div_le_self hnonneg hone).trans ((le_mul_of_one_le_right hnonneg hone).trans hbound)
    have hresult := exactly_nearest hquotient (abs_of_nonneg (by positivity) |>.trans_le hless) (by decide) (by decide)
    rw [div_eq_mul_inv, ← zpow_natCast, ← zpow_neg, Int.ofNat_natAbs_of_nonpos (by omega), neg_neg] at hresult
    rw [if_neg hsign]
    exact ⟨_, rfl, hresult⟩

/-! ## Digits that are read -/

/-- A natural number with digits put behind it. -/
def extend (n : ℕ) (ds : List (Fin 10)) : ℕ := ds.foldl (fun (m : ℕ) (d : Fin 10) => m * 10 + d) n

theorem le_extend (n : ℕ) (ds : List (Fin 10)) : n ≤ extend n ds := by
  induction ds generalizing n with
  | nil => exact le_rfl
  | cons d ds ih => exact le_trans (by omega) (ih (n * 10 + d))

theorem extend_append (n : ℕ) (ds ds' : List (Fin 10)) : extend n (ds ++ ds') = extend (extend n ds) ds' :=
  List.foldl_append

/-- Digits after the point are all read if they make no more than 53 bits. -/
theorem appendDigits_eq {n : ℕ} {ds : List (Fin 10)} (h : extend n ds ≤ 2 ^ 53) :
    appendDigits n ds = (extend n ds, ds.length) := by
  induction ds generalizing n with
  | nil => rfl
  | cons d ds ih =>
    change extend (n * 10 + d) ds ≤ 2 ^ 53 at h
    have hlimit : n * 10 + d ≤ machineLimit := (le_extend _ ds).trans (h.trans (by decide))
    rw [appendDigits, if_pos hlimit, ih h]
    rfl

/-- The digits of a number without its point. -/
def coefficient (n : Number) : ℕ := extend n.whole n.fraction

/-- The power of ten with which the digits are multiplied. -/
def scale (n : Number) : ℤ := n.exponent.getD 0 - n.fraction.length

/-- The rational number that is written, without its sign. -/
def absValue (n : Number) : ℚ := n.coefficient * 10 ^ n.scale

/-- Whether a number has at most 53 bits in its digits, and is no further away from them than the powers of ten
are exact. -/
structure Short (n : Number) : Prop where
  coefficient_le : n.coefficient ≤ 2 ^ 53
  scale_le : n.scale.natAbs ≤ 22
  exponent_le : (n.exponent.getD 0).natAbs ≤ exponentLimit

/-- A short number is read as the nearest double. -/
theorem Short.exists_toFloat? {n : Number} (h : Short n) :
    ∃ x, n.toFloat? = some x ∧ Exactly x (withSign (signOf n.negative) (nearest n.absValue)) := by
  obtain ⟨hcoefficient, hscale, hexponent⟩ := h
  have hwhole : n.whole ≤ machineLimit := (le_extend _ n.fraction).trans (hcoefficient.trans (by decide))
  have hfront : frontDigits n.whole = (n.whole, 0) := by
    rw [frontDigits, if_pos hwhole]
  have hread : n.coefficient.toUInt64.toNat = n.coefficient := Nat.mod_eq_of_lt (by omega)
  obtain ⟨x, hx, hexact⟩ := exists_scaled? (s := n.coefficient.toUInt64) (hread.trans_le hcoefficient) hscale
  have htoFloat : n.toFloat? = some (if n.negative then -x else x) := by
    have hsum : ((0 : ℕ) : ℤ) - n.fraction.length + n.exponent.getD 0 = n.scale := by
      rw [scale]
      omega
    unfold toFloat?
    rw [hfront]
    dsimp only
    rw [appendDigits_eq hcoefficient]
    dsimp only
    rw [if_neg (by omega), hsum]
    exact congrArg (Option.map fun x => if n.negative then -x else x) hx
  rw [hread] at hexact
  refine ⟨_, htoFloat, ?_⟩
  cases n.negative
  · exact hexact
  · exact hexact.neg

/-! ## Decimals that are written -/

theorem length_lastDigits (k n : ℕ) : (lastDigits k n).length = k := by
  induction k generalizing n with
  | zero => rfl
  | succ k ih => rw [lastDigits, List.length_append, ih, List.length_singleton]

/-- The last digits of a number make up the number with what stands before them. -/
theorem extend_lastDigits (k n : ℕ) : extend (n / 10 ^ k) (lastDigits k n) = n := by
  induction k generalizing n with
  | zero => exact Nat.div_one n
  | succ k ih =>
    rw [lastDigits, extend_append, pow_succ', ← Nat.div_div_eq_div_mul, ih]
    exact Nat.div_add_mod' n 10

/-- The number that is written for a decimal has its value. -/
theorem absValue_ofDecimal (negative : Bool) (d : Decimal) : (ofDecimal negative d).absValue = decimalValue d := by
  have hsplit : ∀ places : ℕ, ∀ e : Option ℤ, e.getD 0 - places = d.exponent →
      (⟨negative, d.digits / Nat.pow 10 places, lastDigits places d.digits, e⟩ : Number).absValue = decimalValue d := by
    intro places e he
    rw [absValue, coefficient, scale, length_lastDigits, he, Nat.pow_eq, extend_lastDigits, decimalValue]
  unfold ofDecimal
  dsimp only
  split_ifs with hpoint hwhole
  · obtain ⟨e, he⟩ := Int.eq_ofNat_of_zero_le hwhole
    rw [decimalValue, absValue, coefficient, scale, he, Int.toNat_natCast, zpow_natCast]
    change ((d.digits * 10 ^ e * 10 + 0 : ℕ) : ℚ) * 10 ^ (0 - (1 : ℕ) : ℤ) = _
    push_cast
    ring
  · exact hsplit _ none (by change 0 - _ = _; omega)
  · have hwidth : 0 < Decimal.width d.digits := Nat.length_toDigits_pos
    exact hsplit _ (some _) (by change _ - _ - _ = _; omega)

theorem negative_ofDecimal (negative : Bool) (d : Decimal) : (ofDecimal negative d).negative = negative := by
  unfold ofDecimal
  dsimp only
  split_ifs <;> rfl

/-! ## Doubles that are read back -/

/-- Whether a double is read back from the number that is written for it. -/
def ReadsBack (x : Float) : Prop := (ofFloat? x).bind toFloat? = some x

instance (x : Float) : Decidable (ReadsBack x) := inferInstanceAs (Decidable (_ = some x))

/-- A zero is read back, with its sign. -/
theorem readsBack_of_zero {x : Float} {negative : Bool} (h : form x = .zero negative) : ReadsBack x := by
  have hzero : form 0.0 = .zero false := by decide +kernel
  have hzero' : form (-0.0) = .zero true := by decide +kernel
  cases negative
  · rw [eq_of_form_eq (h.trans hzero.symm) (by rw [h]; nofun)]
    decide +kernel
  · rw [eq_of_form_eq (h.trans hzero'.symm) (by rw [h]; nofun)]
    decide +kernel

/-- A double is read back if the number that is written for it is short. -/
theorem Short.readsBack {x : Float} {n : Number} (hn : ofFloat? x = some n) (h : Short n) : ReadsBack x := by
  cases hform : form x with
  | nan => simp [ofFloat?, hform] at hn
  | infinite negative => simp [ofFloat?, hform] at hn
  | zero negative => exact readsBack_of_zero hform
  | fraction negative b =>
    obtain ⟨hb, hexact⟩ := exactly_of_form hform
    obtain ⟨y, hy, hread⟩ := h.exists_toFloat?
    have hofDecimal : ofDecimal negative (Decimal.shortest b) = n := by
      simpa [ofFloat?, hform] using hn
    rw [← hofDecimal, absValue_ofDecimal, negative_ofDecimal, nearest_shortest hb] at hread
    have hne : value x ≠ 0 := by
      rw [hexact.value_eq]
      have hpos := hb.value_pos
      cases negative
      · exact hpos.ne'
      · exact (neg_neg_of_pos hpos).ne
    rw [ReadsBack, hn, Option.bind_some, hy,
      eq_of_value_eq hexact.finite hread.finite hne (hexact.value_eq.trans hread.value_eq.symm)]

/-! ## Whole numbers -/

/-- A whole number is written with a zero behind the point. -/
theorem ofDecimal_whole {d : Decimal} {n : ℕ} (negative : Bool) (hexponent : 0 ≤ d.exponent)
    (hvalue : decimalValue d = n) (hpos : 0 < n) (hn : n < 10 ^ 16) :
    ofDecimal negative d = ⟨negative, n, [0], none⟩ := by
  obtain ⟨digits, exponent⟩ := d
  obtain ⟨e, rfl⟩ := Int.eq_ofNat_of_zero_le hexponent
  have hproduct : digits * 10 ^ e = n := by
    rw [decimalValue, zpow_natCast] at hvalue
    exact_mod_cast hvalue
  have hdigits : 0 < digits := by
    rw [← hproduct] at hpos
    exact Nat.pos_of_mul_pos_right hpos
  have hwidth : Decimal.width digits - 1 + e < 16 := by
    rw [← Nat.pow_lt_pow_iff_right (by decide : 1 < 10), pow_add]
    calc 10 ^ (Decimal.width digits - 1) * 10 ^ e
      _ ≤ digits * 10 ^ e := Nat.mul_le_mul_right _ (pow_width_le hdigits)
      _ < 10 ^ 16 := hproduct ▸ hn
  unfold ofDecimal
  dsimp only
  rw [if_pos (by omega), if_pos hexponent, Int.toNat_natCast, Nat.pow_eq, hproduct]

/-- Whole numbers are read back if they have at most 53 bits also with a zero put behind them. -/
theorem readsBack_ofUInt64 {n : UInt64} (h : 10 * n.toNat ≤ 2 ^ 53) : ReadsBack (Scalar.ofUInt64 n) := by
  have hexact : Exactly (Scalar.ofUInt64 n) n.toNat := exactly_ofUInt64 (by omega)
  obtain hzero | hpos := Nat.eq_zero_or_pos n.toNat
  · rw [← UInt64.toNat_zero, UInt64.toNat_inj] at hzero
    subst hzero
    decide +kernel
  · have hvaluepos : (0 : ℚ) < n.toNat := Nat.cast_pos.mpr hpos
    obtain ⟨negative, b, hform⟩ := exists_fraction hexact.finite (by rw [hexact.value_eq]; exact hvaluepos.ne')
    obtain ⟨hb, hfraction⟩ := exactly_of_form hform
    obtain ⟨rfl, hvalue⟩ := @withSign_signOf_inj negative false _ _ hb.value_pos hvaluepos
      (hfraction.value_eq.symm.trans hexact.value_eq)
    obtain ⟨hexponent, hwhole⟩ := shortest_whole hb hvalue (by omega)
    have hwritten : ofFloat? (Scalar.ofUInt64 n) = some ⟨false, n.toNat, [0], none⟩ := by
      rw [ofFloat?, hform, ← ofDecimal_whole false hexponent hwhole hpos (by omega)]
    refine Short.readsBack hwritten ⟨?_, ?_, Nat.zero_le _⟩
    · change n.toNat * 10 + 0 ≤ 2 ^ 53
      omega
    · change (0 - (1 : ℕ) : ℤ).natAbs ≤ 22
      decide

/-- The bound is not for the proof only: the largest whole number with 53 bits is read back as another one. -/
example : ¬ReadsBack 9007199254740991 := by decide +kernel

end Allotment.Json.Number
