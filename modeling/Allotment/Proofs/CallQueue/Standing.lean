import Allotment.Proofs.CallQueue.Charges
import Allotment.Proofs.CallQueue.Decay
import Allotment.Proofs.Double.Sum

/-!
# Levels by a caller's part of the traffic

The level of a caller is one more than the place of the last threshold that its part of the counted calls
reaches. A larger part reaches every threshold that a smaller one reaches, so of two callers the one with
the larger count never has the better level, whatever the thresholds are. Counts are doubles here: a decay
rounds every count, a division rounds every part, and rounding keeps the order.

What has to be known of the counts for this is that they are finite. They are, for a count grows by one at a
time and stays at `2⁵³`, from where on one more call is rounded away; the total of counts that are no larger
stays below `2¹⁰⁶` for the same reason, however many callers there are.
-/

namespace Allotment.DecayRanking

open Double (value Nonneg Exactly)

/-! ## Thresholds -/

section Thresholds

variable {F : Type} [Scalar F] {share other : F} {thresholds : List F}

/-- There are no more levels than the thresholds separate. -/
theorem levelOf_le_length (share : F) (thresholds : List F) :
    levelOf share thresholds ≤ thresholds.length := by
  induction thresholds with
  | nil => exact le_rfl
  | cons t rest ih =>
    rw [levelOf, List.length_cons]
    cases hrest : levelOf share rest with
    | zero => dsimp only; split <;> omega
    | succ n => dsimp only; omega

/-- A part that reaches no threshold has the best level. -/
theorem levelOf_eq_zero (h : ∀ t ∈ thresholds, Scalar.le t share = false) :
    levelOf share thresholds = 0 := by
  induction thresholds with
  | nil => rfl
  | cons t rest ih =>
    rw [levelOf, ih fun s hs => h s (List.mem_cons_of_mem t hs)]
    dsimp only
    rw [h t List.mem_cons_self, if_neg Bool.false_ne_true]

variable [Scalar.Comparable F]

/-- A larger part of the traffic has no better level. -/
theorem levelOf_mono (h : Scalar.le share other = true) (thresholds : List F) :
    levelOf share thresholds ≤ levelOf other thresholds := by
  induction thresholds with
  | nil => exact le_rfl
  | cons t rest ih =>
    have hfirst : Scalar.le t share = true → Scalar.le t other = true :=
      fun ht => Scalar.Comparable.le_trans ht h
    rw [levelOf, levelOf]
    cases hshare : levelOf share rest <;> cases hother : levelOf other rest <;> rw [hshare, hother] at ih
    · dsimp only
      split_ifs with ht ht' <;> first | omega | exact absurd (hfirst ht) ht'
    · dsimp only
      split <;> omega
    · omega
    · dsimp only
      omega

/-- Numbers of which none is greater than the next one are in order. -/
theorem pairwise_of_not_descends (hnumbers : ∀ t ∈ thresholds, Scalar.isNaN t = false)
    (h : descends thresholds = false) : thresholds.Pairwise fun s t => Scalar.le s t = true := by
  induction thresholds with
  | nil => exact .nil
  | cons t rest ih =>
    cases rest with
    | nil => exact List.pairwise_singleton _ t
    | cons s rest =>
      rw [descends, Bool.or_eq_false_iff] at h
      have hrest := ih (fun x hx => hnumbers x (List.mem_cons_of_mem t hx)) h.2
      have hts : Scalar.le t s = true := by
        have htotal := Scalar.Comparable.le_total (hnumbers t (by simp)) (hnumbers s (by simp))
        by_contra hnot
        have hlt : Scalar.lt s t = true :=
          Scalar.Comparable.lt_iff.mpr ⟨htotal.resolve_left hnot, by simpa using hnot⟩
        rw [h.1] at hlt
        contradiction
      refine List.pairwise_cons.mpr ⟨fun x hx => ?_, hrest⟩
      obtain rfl | hx := List.mem_cons.mp hx
      · exact hts
      · exact Scalar.Comparable.le_trans hts ((List.pairwise_cons.mp hrest).1 x hx)

/-- With thresholds in order the level is the number of thresholds that are reached. -/
theorem levelOf_eq_length_filter (h : thresholds.Pairwise fun s t => Scalar.le s t = true) :
    levelOf share thresholds = (thresholds.filter fun t => Scalar.le t share).length := by
  induction thresholds with
  | nil => rfl
  | cons t rest ih =>
    obtain ⟨hfirst, hrest⟩ := List.pairwise_cons.mp h
    rw [levelOf, ih hrest]
    cases hreached : (rest.filter fun t => Scalar.le t share).length with
    | zero =>
      dsimp only
      rw [List.filter_cons]
      split <;> simp [hreached]
    | succ n =>
      -- if a later threshold is reached, so is the first
      obtain ⟨s, hs⟩ := List.exists_mem_of_length_pos (by rw [hreached]; exact Nat.succ_pos n)
      obtain ⟨hs, hle⟩ := List.mem_filter.mp hs
      have ht : Scalar.le t share = true := Scalar.Comparable.le_trans (hfirst s hs) hle
      dsimp only
      rw [List.filter_cons_of_pos (by exact ht), List.length_cons, hreached]

end Thresholds

/-! ## Counts -/

theorem exactly_forgetBelow : Exactly (forgetBelow : Float) (1 / 2) := by
  have hdiv := Double.div_eq Double.exactly_one.finite Double.exactly_two.finite
    (by rw [Double.exactly_two.value_eq]; norm_num)
  rw [Double.exactly_one.value_eq, Double.exactly_two.value_eq] at hdiv
  have hexact := Double.exactly_of_rounded (x := forgetBelow) (n := 1) (e := -1)
    (by simpa [forgetBelow] using hdiv) (by norm_num) (by norm_num) (by norm_num)
  simpa using hexact

/-- Whether a double lies between zero and one. -/
structure InUnit (x : Float) : Prop extends Nonneg x where
  le_one : value x ≤ 1

/-- Whether a double is a count that may be remembered along with a total. -/
structure IsCount (total c : Float) : Prop where
  number : Scalar.isNaN c = false
  half_le : 1 / 2 ≤ value c
  le : value c ≤ 2 ^ (53 : ℤ)
  le_total : value c ≤ value total

/-- What is known of every ranking: its settings agree with each other, its factor is no larger than one,
and its counts and their total are finite. -/
structure Moderate (r : DecayRanking Float) : Prop where
  levels : r.thresholds.length + 1 = r.levels
  ascending : descends r.thresholds = false
  factor : InUnit r.factor
  total : Nonneg r.total
  total_le : value r.total ≤ 2 ^ (106 : ℤ)
  counts : ∀ caller c, r.counts.get? caller = some c → IsCount r.total c

section Counts

variable {r : DecayRanking Float} {x y c total : Float}

theorem InUnit.finite (h : InUnit x) : x.isFinite = true :=
  h.isFinite (e := 0) (by norm_num) (by simpa using h.le_one)

theorem inUnit_zero : InUnit Scalar.zero where
  number := Double.exactly_zero.number
  nonneg := Double.exactly_zero.value_eq.ge
  le_one := by rw [Double.exactly_zero.value_eq]; norm_num

theorem inUnit_one : InUnit Scalar.one where
  number := Double.exactly_one.number
  nonneg := by rw [Double.exactly_one.value_eq]; norm_num
  le_one := Double.exactly_one.value_eq.le

theorem isDouble_one : Double.IsDouble 1 := by
  simpa using Double.isDouble_natCast (n := 1) (by norm_num)

theorem InUnit.mul (hx : InUnit x) (hy : InUnit y) : InUnit (x * y) := by
  obtain ⟨hnumber, hvalue⟩ := Double.mul_eq hx.finite hy.finite
  have hnonneg := mul_nonneg hx.nonneg hy.nonneg
  refine ⟨⟨hnumber, ?_⟩, ?_⟩
  · rw [hvalue]
    exact Double.rounded_nonneg hnonneg
  · rw [hvalue]
    exact (Double.rounded_le_nearest hnonneg).trans
      (isDouble_one.nearest_le (mul_le_one₀ hx.le_one hy.nonneg hy.le_one))

/-- Repeated squaring stays between zero and one. -/
theorem InUnit.powFrom (hx : InUnit x) (hy : InUnit y) (k : ℕ) : InUnit (Scalar.powFrom x y k) := by
  induction k using Nat.strong_induction_on generalizing x y with
  | _ k ih =>
    have hdigit : InUnit (if k % 2 = 1 then x * y else x) := by
      split
      · exact hx.mul hy
      · exact hx
    rw [Scalar.powFrom]
    split
    · exact hdigit
    · exact ih (k / 2) (by omega) hdigit (hy.mul hy)

/-- The factor of any number of periods lies between zero and one. -/
theorem Moderate.factorOf (h : r.Moderate) (periods : ℕ) : InUnit (r.factorOf periods) := by
  unfold DecayRanking.factorOf
  split
  · exact inUnit_one.powFrom h.factor periods
  · exact inUnit_zero

theorem IsCount.nonneg (h : IsCount total c) : Nonneg c :=
  ⟨h.number, by linarith [h.half_le]⟩

theorem IsCount.finite (h : IsCount total c) : c.isFinite = true :=
  h.nonneg.isFinite (by norm_num) h.le

theorem Moderate.total_finite (h : r.Moderate) : r.total.isFinite = true :=
  h.total.isFinite (by norm_num) h.total_le

/-- The count of any caller is finite. -/
theorem Moderate.count_finite (h : r.Moderate) (caller : String) : (r.count caller).isFinite = true := by
  unfold count
  cases hcount : r.counts.get? caller with
  | none => exact Double.exactly_zero.finite
  | some c => exact (h.counts caller c hcount).finite

theorem Moderate.count_nonneg (h : r.Moderate) (caller : String) : 0 ≤ value (r.count caller) := by
  unfold count
  cases hcount : r.counts.get? caller with
  | none => exact Double.exactly_zero.value_eq.ge
  | some c => exact (h.counts caller c hcount).nonneg.nonneg

theorem count_of_get?_eq_none {caller : String} (h : r.counts.get? caller = none) :
    r.count caller = Scalar.zero := by
  rw [count, h, Option.getD_none]

/-! ## Decay -/

/-- What a decay by a factor makes of a count. -/
def decayed (c x : Float) : Float :=
  if isZero x then Scalar.zero
  else if Scalar.le forgetBelow (c * x) then c * x else Scalar.zero

/-- A count is kept if its multiple is no less than one half. -/
theorem forgetBelow_le_iff (hc : c.isFinite = true) (hx : InUnit x) :
    Scalar.le forgetBelow (c * x) = true ↔ 1 / 2 ≤ value (c * x) := by
  rw [Double.le_iff_value_le exactly_forgetBelow.number (Double.mul_eq hc hx.finite).1,
    exactly_forgetBelow.value_eq]

/-- What is kept of a count is a multiple of it that is no larger and not small. -/
theorem IsCount.mul (hc : IsCount total c) (hx : InUnit x) (hkept : 1 / 2 ≤ value (c * x)) :
    Nonneg (c * x) ∧ value (c * x) ≤ 2 ^ (53 : ℤ) := by
  obtain ⟨hnumber, hvalue⟩ := Double.mul_eq hc.finite hx.finite
  have hnonneg := mul_nonneg hc.nonneg.nonneg hx.nonneg
  have hle := mul_le_of_le_one_right hc.nonneg.nonneg hx.le_one
  refine ⟨⟨hnumber, by linarith⟩, ?_⟩
  rw [hvalue]
  exact (Double.rounded_le_nearest hnonneg).trans
    ((Double.isDouble_two_zpow (by norm_num)).nearest_le (hle.trans hc.le))

/-- Every caller is left with what the decay makes of its count, also those who have none. -/
theorem count_decayBy (r : DecayRanking Float) (hx : InUnit x) (caller : String) :
    (r.decayBy x).count caller = decayed (r.count caller) x := by
  have hfind := find_decayCounts r.counts x caller
  unfold decayed
  change ((decayCounts r.counts x).get? caller).getD Scalar.zero = _
  rw [hfind]
  split
  · rfl
  · cases hcount : r.counts.get? caller with
    | none =>
      have hzero := Double.exactly_zero
      have hvalue := (Double.mul_eq hzero.finite hx.finite).2
      rw [hzero.value_eq, zero_mul, Double.rounded_zero] at hvalue
      rw [count_of_get?_eq_none hcount, if_neg]
      · rfl
      · rw [forgetBelow_le_iff hzero.finite hx, hvalue]
        norm_num
    | some c =>
      rw [count, hcount, Option.bind_some, Option.getD_some]
      split <;> rfl

/-- A decay keeps the order of counts. -/
theorem value_decayed_mono {c c' : Float} (hc : c.isFinite = true) (hc' : c'.isFinite = true)
    (hx : InUnit x) (h : value c ≤ value c') : value (decayed c x) ≤ value (decayed c' x) := by
  have hmul : value (c * x) ≤ value (c' * x) := by
    rw [(Double.mul_eq hc hx.finite).2, (Double.mul_eq hc' hx.finite).2]
    exact Double.rounded_mono (mul_le_mul_of_nonneg_right h hx.nonneg)
  have hzero := Double.exactly_zero.value_eq
  unfold decayed
  split
  · exact le_rfl
  · by_cases hkept : 1 / 2 ≤ value (c * x)
    · rw [if_pos ((forgetBelow_le_iff hc hx).mpr hkept),
        if_pos ((forgetBelow_le_iff hc' hx).mpr (hkept.trans hmul))]
      exact hmul
    · rw [if_neg (mt (forgetBelow_le_iff hc hx).mp hkept), hzero]
      split
      · rename_i hkept'
        linarith [(forgetBelow_le_iff hc' hx).mp hkept']
      · exact hzero.ge

/-! ## What every step keeps -/

/-- A decay by a factor between zero and one keeps counts and total finite. -/
theorem Moderate.decayBy (h : r.Moderate) (hx : InUnit x) : (r.decayBy x).Moderate := by
  have hkept : ∀ caller c, (r.decayBy x).counts.get? caller = some c →
      Nonneg c ∧ 1 / 2 ≤ value c ∧ value c ≤ 2 ^ (53 : ℤ) := by
    intro caller c hc
    change (decayCounts r.counts x).get? caller = some c at hc
    rw [find_decayCounts] at hc
    split at hc
    · contradiction
    · obtain ⟨c', hc', hc⟩ := Option.bind_eq_some_iff.mp hc
      have hcount := h.counts caller c' hc'
      split at hc
      · rename_i hle
        obtain rfl := Option.some.inj hc
        have hhalf := (forgetBelow_le_iff hcount.finite hx).mp hle
        exact ⟨(hcount.mul hx hhalf).1, hhalf, (hcount.mul hx hhalf).2⟩
      · contradiction
  have hvalues : ∀ c ∈ (r.decayBy x).counts.values, Nonneg c ∧ 1 / 2 ≤ value c ∧ value c ≤ 2 ^ (53 : ℤ) := by
    intro c hc
    obtain ⟨caller, hcaller⟩ := Table.mem_values_iff.mp hc
    exact hkept caller c hcaller
  have htotal : (r.decayBy x).total = Scalar.sum ((r.decayBy x).counts.values.map id) := by
    rw [List.map_id]
    rfl
  refine ⟨h.levels, h.ascending, h.factor, ?_, ?_, fun caller c hc => ?_⟩
  · rw [htotal]
    exact Double.sum_nonneg fun c hc => (hvalues c hc).1
  · rw [htotal]
    exact Double.sum_le_two_zpow (by norm_num) (fun c hc => (hvalues c hc).1)
      fun c hc => (hvalues c hc).2.2
  · obtain ⟨hnonneg, hhalf, hle⟩ := hkept caller c hc
    refine ⟨hnonneg.number, hhalf, hle, ?_⟩
    rw [htotal]
    exact Double.le_sum (f := id) (fun c hc => (hvalues c hc).1) (Table.mem_values_iff.mpr ⟨caller, hc⟩)

/-- The time of the last decay does not matter for the counts. -/
theorem Moderate.at (h : r.Moderate) (now : ℕ) : Moderate { r with lastDecay := now } :=
  ⟨h.levels, h.ascending, h.factor, h.total, h.total_le, h.counts⟩

theorem Moderate.catchUp (h : r.Moderate) (now : ℕ) : (r.catchUp now).Moderate := by
  by_cases hdue : r.due now = 0
  · rw [catchUp_of_due_eq_zero hdue]
    exact h
  · rw [catchUp_of_due_ne_zero hdue]
    exact (h.decayBy (h.factorOf _)).at _

/-- One more call is added to a count or a total, unless it is rounded away. -/
theorem value_add_one (hc : Nonneg c) {e : ℤ} (he : 53 ≤ e) (hle : value c ≤ 2 ^ e) :
    Nonneg (c + Scalar.one) ∧ value (c + Scalar.one) = Double.rounded (value c + 1) ∧
      value (c + Scalar.one) ≤ 2 ^ e := by
  obtain ⟨hsum, hvalue⟩ := hc.add inUnit_one.toNonneg
  rw [Double.exactly_one.value_eq] at hvalue
  refine ⟨hsum, hvalue, ?_⟩
  have hone : (1 : ℚ) ≤ 2 ^ (e - 53) := one_le_zpow₀ (by norm_num) (by omega)
  rw [hvalue]
  exact (Double.rounded_le_nearest (by linarith [hc.nonneg])).trans
    (Double.nearest_le_two_zpow (by omega) (by linarith))

/-- One more call keeps counts and total finite. -/
theorem Moderate.addCall (h : r.Moderate) (caller : String) : (r.addCall caller).Moderate := by
  obtain ⟨htotal, hvalue, htotalLe⟩ := value_add_one h.total (by norm_num) h.total_le
  have hgrows : ∀ {c : Float}, value c ≤ value r.total + 1 → value c ≤ value (r.total + Scalar.one) := by
    intro c hc
    rw [hvalue]
    exact (Double.isDouble_value c).le_rounded (abs_le.mp (Double.abs_value_le c)).2 hc
  refine ⟨h.levels, h.ascending, h.factor, htotal, htotalLe, fun other c hc => ?_⟩
  change (r.counts.insert caller _).get? other = some c at hc
  rw [Table.get?_insert] at hc
  split at hc
  · -- the caller's own count, which is zero if it has none
    obtain rfl := Option.some.inj hc
    change IsCount (r.total + Scalar.one) (r.count caller + Scalar.one)
    have hcount : Nonneg (r.count caller) :=
      ⟨Double.isNaN_of_isFinite (h.count_finite caller), h.count_nonneg caller⟩
    have hbound : value (r.count caller) ≤ 2 ^ (53 : ℤ) ∧ value (r.count caller) ≤ value r.total := by
      unfold count
      cases hfound : r.counts.get? caller with
      | none =>
        rw [Option.getD_none, Double.exactly_zero.value_eq]
        exact ⟨(Double.two_zpow_pos 53).le, h.total.nonneg⟩
      | some c => exact ⟨(h.counts caller c hfound).le, (h.counts caller c hfound).le_total⟩
    obtain ⟨hsum, hsumValue, hsumLe⟩ := value_add_one hcount le_rfl hbound.1
    have hlimit : (1 : ℚ) ≤ Double.limit := by
      simpa using (Double.natCast_lt_limit (n := 1) (by norm_num)).le
    refine ⟨hsum.number, ?_, hsumLe, ?_⟩
    · have hge : 1 ≤ value (r.count caller + Scalar.one) := by
        rw [hsumValue]
        exact isDouble_one.le_rounded hlimit (by linarith [hcount.nonneg])
      linarith
    · rw [hsumValue, hvalue]
      exact Double.rounded_mono (by linarith [hbound.2])
  · have hold := h.counts other c hc
    exact ⟨hold.number, hold.half_le, hold.le, hgrows (by linarith [hold.le_total])⟩

/-- What settings agree with each other are those of a moderate ranking. -/
theorem moderate_new {levels : ℕ} {thresholds : List Float} {factor : Float} {periodNs now : ℕ}
    (h : new levels thresholds factor periodNs now = .ok r) : r.Moderate := by
  unfold DecayRanking.new at h
  split at h
  · contradiction
  rename_i hlevels
  split at h
  · contradiction
  rename_i hcount
  split at h
  · contradiction
  rename_i horder
  split at h
  · contradiction
  rename_i hfraction
  obtain rfl := Except.ok.inj h
  have hzero := Double.exactly_zero
  obtain ⟨hpos, hlt⟩ : Scalar.lt Scalar.zero factor = true ∧ Scalar.lt factor Scalar.one = true := by
    simpa [isFraction] using hfraction
  have hnumber := (Scalar.Comparable.isNaN_of_le (Scalar.Comparable.lt_iff.mp hpos).1).2
  rw [Double.lt_iff_value_lt hzero.number hnumber, hzero.value_eq] at hpos
  rw [Double.lt_iff_value_lt hnumber Double.exactly_one.number, Double.exactly_one.value_eq] at hlt
  refine ⟨by dsimp only; omega, by simpa using horder, ⟨⟨hnumber, hpos.le⟩, hlt.le⟩,
    inUnit_zero.toNonneg, ?_, fun caller c hc => by contradiction⟩
  rw [hzero.value_eq]
  exact (Double.two_zpow_pos _).le

/-- Every ranking that comes about is moderate. -/
theorem Reachable.moderate (h : r.Reachable) : r.Moderate := by
  induction h with
  | new levels thresholds factor periodNs now r hmade => exact moderate_new hmade
  | rank r now caller h ih => exact ih.catchUp now
  | charge r now caller h ih => exact (ih.catchUp now).addCall caller
  | decay r now h ih => exact (ih.decayBy ih.factor).at now

/-! ## Levels -/

/-- There are counted calls if the total is not zero. -/
theorem Moderate.total_le_zero_iff (h : r.Moderate) :
    Scalar.le r.total Scalar.zero = true ↔ value r.total = 0 := by
  have hzero := Double.exactly_zero
  rw [Double.le_iff_value_le h.total.number hzero.number, hzero.value_eq]
  exact ⟨fun hle => le_antisymm hle h.total.nonneg, le_of_eq⟩

theorem Moderate.total_pos (h : r.Moderate) (hne : ¬ Scalar.le r.total Scalar.zero = true) :
    0 < value r.total :=
  lt_of_le_of_ne h.total.nonneg fun hzero => hne (h.total_le_zero_iff.mpr hzero.symm)

/-- The level is that of the caller's part of the counted calls; if there are none, that is not a number and
reaches no threshold. -/
theorem Moderate.levelFor_eq (h : r.Moderate) (caller : String) :
    r.levelFor caller = levelOf (r.count caller / r.total) r.thresholds := by
  have hzero := Double.exactly_zero
  unfold levelFor
  split
  · rename_i htotal
    have htotal := h.total_le_zero_iff.mp htotal
    have hnone : r.counts.get? caller = none := by
      cases hcount : r.counts.get? caller with
      | none => rfl
      | some c =>
        have hc := h.counts caller c hcount
        linarith [hc.half_le, hc.le_total]
    have hshare : Scalar.isNaN (r.count caller / r.total) = true := by
      rw [count_of_get?_eq_none hnone]
      exact Double.isNaN_zero_div hzero.finite h.total_finite hzero.value_eq htotal
    rw [levelOf_eq_zero fun t _ => ?_]
    rw [← Bool.not_eq_true]
    intro hle
    rw [(Scalar.Comparable.isNaN_of_le hle).2] at hshare
    contradiction
  · rfl

/-- Of two callers the one with the larger count has no better level. -/
theorem Moderate.levelFor_mono (h : r.Moderate) {a b : String}
    (hle : value (r.count a) ≤ value (r.count b)) : r.levelFor a ≤ r.levelFor b := by
  unfold levelFor
  split
  · exact le_rfl
  · rename_i htotal
    have hpos := h.total_pos htotal
    have hshare := fun caller => Double.div_eq (h.count_finite caller) h.total_finite hpos.ne'
    apply levelOf_mono
    rw [Double.le_iff_value_le (hshare a).1 (hshare b).1]
    exact Double.value_div_mono (h.count_finite a) (h.count_finite b) h.total_finite hpos hle

/-- A caller without a count has the best level if all thresholds are positive. -/
theorem Moderate.levelFor_of_none (h : r.Moderate) {caller : String}
    (hnone : r.counts.get? caller = none)
    (hpos : ∀ t ∈ r.thresholds, Scalar.lt Scalar.zero t = true) : r.levelFor caller = 0 := by
  have hzero := Double.exactly_zero
  unfold levelFor
  split
  · rfl
  · rename_i htotal
    have htotal := h.total_pos htotal
    rw [count_of_get?_eq_none hnone]
    obtain ⟨hnumber, hvalue⟩ := Double.div_eq hzero.finite h.total_finite htotal.ne'
    rw [hzero.value_eq, zero_div, Double.rounded_zero] at hvalue
    apply levelOf_eq_zero
    intro t ht
    have hlt := hpos t ht
    have htnumber := (Scalar.Comparable.isNaN_of_le (Scalar.Comparable.lt_iff.mp hlt).1).2
    rw [Double.lt_iff_value_lt hzero.number htnumber, hzero.value_eq] at hlt
    rw [← Bool.not_eq_true, Double.le_iff_value_le htnumber hnumber, hvalue]
    exact not_le.mpr hlt

/-- Catching up makes of every count what the decay that is due makes of it. -/
theorem Moderate.count_catchUp (h : r.Moderate) (now : ℕ) (caller : String) :
    (r.catchUp now).count caller =
      if r.due now = 0 then r.count caller else decayed (r.count caller) (r.factorOf (r.due now)) := by
  split
  · rename_i hdue
    rw [catchUp_of_due_eq_zero hdue]
  · rename_i hdue
    rw [catchUp_of_due_ne_zero hdue, ← count_decayBy r (h.factorOf _)]
    rfl

/-- Catching up keeps the order of counts. -/
theorem Moderate.count_catchUp_mono (h : r.Moderate) (now : ℕ) {a b : String}
    (hle : value (r.count a) ≤ value (r.count b)) :
    value ((r.catchUp now).count a) ≤ value ((r.catchUp now).count b) := by
  rw [h.count_catchUp, h.count_catchUp]
  split
  · exact hle
  · exact value_decayed_mono (h.count_finite a) (h.count_finite b) (h.factorOf _) hle

/-- A caller who is not remembered is not remembered after catching up either. -/
theorem get?_catchUp_of_none {caller : String} (h : r.counts.get? caller = none) (now : ℕ) :
    (r.catchUp now).counts.get? caller = none := by
  by_cases hdue : r.due now = 0
  · rw [catchUp_of_due_eq_zero hdue, h]
  · rw [catchUp_of_due_ne_zero hdue]
    change (decayCounts r.counts _).get? caller = none
    rw [find_decayCounts, h]
    split <;> rfl

/-- Catching up leaves the thresholds as they are. -/
theorem thresholds_catchUp (r : DecayRanking Float) (now : ℕ) :
    (r.catchUp now).thresholds = r.thresholds := by
  by_cases hdue : r.due now = 0
  · rw [catchUp_of_due_eq_zero hdue]
  · rw [catchUp_of_due_ne_zero hdue]
    rfl

end Counts

/-- Heavier callers never get a better level. Whatever thresholds a ranking was made with, and whatever calls
have been counted and decayed since, at every time and for any two callers: if the count of one is at most
that of the other, before or after the decay that is due, then its level is at most the other's. Every level
is below the number of levels. If all thresholds are numbers, the level is the number of thresholds that are
at most the caller's part of the total; and if all are positive, a caller without remembered calls has the
best level. Asking for a level makes of every count only what the decay that is due makes of it, so whoever
is asked about next at that time gets the level it would have got, and no count changes again. -/
theorem rank_by_share (r : DecayRanking Float) (h : r.Reachable) (now : ℕ) :
    (∀ a b, Scalar.le (r.count a) (r.count b) = true ∨
        Scalar.le ((r.catchUp now).count a) ((r.catchUp now).count b) = true →
      (Ranking.rank r now a).1 ≤ (Ranking.rank r now b).1) ∧
    (∀ a, (Ranking.rank r now a).1 < Ranking.levels r) ∧
    ((∀ t ∈ r.thresholds, Scalar.isNaN t = false) →
      ∀ a, (Ranking.rank r now a).1 = (r.thresholds.filter fun t =>
        Scalar.le t ((r.catchUp now).count a / (r.catchUp now).total)).length) ∧
    ((∀ t ∈ r.thresholds, Scalar.lt Scalar.zero t = true) →
      ∀ a, r.counts.get? a = none ∨ (r.catchUp now).counts.get? a = none →
        (Ranking.rank r now a).1 = 0) ∧
    ∀ a b, (Ranking.rank r now a).2.count b =
        (if r.due now = 0 then r.count b else decayed (r.count b) (r.factorOf (r.due now))) ∧
      Ranking.rank (Ranking.rank r now a).2 now b = ((Ranking.rank r now b).1, (Ranking.rank r now a).2) := by
  have hbefore := h.moderate
  have hafter := hbefore.catchUp now
  have hthresholds := thresholds_catchUp r now
  refine ⟨fun a b hle => ?_, fun a => ?_, fun hnumbers a => ?_, fun hpos a hnone => ?_, fun a b => ⟨?_, ?_⟩⟩
  · apply hafter.levelFor_mono
    obtain hle | hle := hle
    · obtain ⟨ha, hb⟩ := Scalar.Comparable.isNaN_of_le hle
      exact hbefore.count_catchUp_mono now ((Double.le_iff_value_le ha hb).mp hle)
    · obtain ⟨ha, hb⟩ := Scalar.Comparable.isNaN_of_le hle
      exact (Double.le_iff_value_le ha hb).mp hle
  · change (r.catchUp now).levelFor a < r.levels
    have hle := levelOf_le_length ((r.catchUp now).count a / (r.catchUp now).total) (r.catchUp now).thresholds
    rw [hafter.levelFor_eq, ← hbefore.levels, ← hthresholds]
    exact Nat.lt_succ_of_le hle
  · change (r.catchUp now).levelFor a = _
    rw [hafter.levelFor_eq, hthresholds]
    exact levelOf_eq_length_filter (pairwise_of_not_descends hnumbers hbefore.ascending)
  · refine hafter.levelFor_of_none ?_ (by rwa [hthresholds])
    exact hnone.elim (fun hnone => get?_catchUp_of_none hnone now) id
  · exact hbefore.count_catchUp now b
  · change (((r.catchUp now).catchUp now).levelFor b, (r.catchUp now).catchUp now) = _
    rw [catchUp_self]
    rfl

/-- Two levels that are separated by one half of the traffic; counts are halved after a thousand
nanoseconds. -/
def halves : DecayRanking Float := ⟨2, [forgetBelow], forgetBelow, 1000, Table.empty, Scalar.zero, 0⟩

/-- Three counted calls, two of them of one caller. -/
def threeCalls : DecayRanking Float := ((halves.addCall "heavy").addCall "heavy").addCall "light"

theorem reachable_threeCalls : threeCalls.Reachable :=
  .charge _ 30 "light" <| .charge _ 20 "heavy" <| .charge _ 10 "heavy" <|
    .new 2 [forgetBelow] forgetBelow 1000 0 halves rfl

/-- After two periods the lighter caller is forgotten, and the heavier one makes all of the traffic. -/
theorem rank_by_share_of_threeCalls :
    Scalar.le (threeCalls.count "light") (threeCalls.count "heavy") = true ∧
      (Ranking.rank threeCalls 2500 "light").1 ≤ (Ranking.rank threeCalls 2500 "heavy").1 ∧
      (Ranking.rank threeCalls 2500 "heavy").1 = 1 ∧ (Ranking.rank threeCalls 2500 "light").1 = 0 ∧
      (Ranking.rank threeCalls 2500 "heavy").2.count "light" =
        decayed (threeCalls.count "light") (threeCalls.factorOf 2) := by
  obtain ⟨hmono, -, hnumber, hstranger, hcounts⟩ := rank_by_share threeCalls reachable_threeCalls 2500
  have hle : Scalar.le (threeCalls.count "light") (threeCalls.count "heavy") = true := by decide +kernel
  have hforgotten : (threeCalls.catchUp 2500).counts.get? "light" = none := by decide +kernel
  refine ⟨hle, hmono "light" "heavy" (.inl hle), ?_, ?_, (hcounts "heavy" "light").1⟩
  · rw [hnumber (by decide +kernel) "heavy"]
    decide +kernel
  · exact hstranger (by decide +kernel) "light" (.inr hforgotten)

end Allotment.DecayRanking
