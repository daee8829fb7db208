import Allotment.CallQueue.Ranking
import Allotment.Proofs.Table
import Allotment.Scalar.Rational
import Mathlib.Algebra.BigOperators.Group.List.Basic
import Mathlib.Algebra.Order.Ring.Pow
import Mathlib.Logic.Function.Iterate
import Mathlib.Tactic.Linarith

/-!
# Decay by single steps and all at once

A ranking makes up for all periods that have passed since the last decay in one pass, with a power of the
factor. In exact numbers this comes to as many single steps, although each of them may forget callers: a
count that is large enough after the last step was so after every other. So it does not matter either when
the ranking is looked at in between.

One pass makes up for at most `maxPower` periods with a power. After more of them it forgets all callers,
which comes to the same only if their counts have decayed away by then, or if a look in between forgets them
all as well. Nor does one pass over more than `maxPeriods` periods keep the part of a period that is left over.
-/

namespace Allotment.DecayRanking

section Passes

variable {F : Type} [Scalar F] {r : DecayRanking F} {now : ℕ}

/-- How many whole periods have passed since the last decay. -/
def due (r : DecayRanking F) (now : ℕ) : ℕ := (now - r.lastDecay) / r.periodNs

/-- A single step of the decay. -/
def decayOnce (r : DecayRanking F) : DecayRanking F := r.decayBy r.factor

/-- The ranking with the time of its last decay moved on. -/
def moveOn (r : DecayRanking F) (periods : ℕ) : DecayRanking F :=
  { r with lastDecay := r.lastDecay + periods * r.periodNs }

/-- As long as no whole period has passed there is nothing to make up for. -/
theorem catchUp_of_due_eq_zero (h : r.due now = 0) : r.catchUp now = r := if_pos h

/-- A pass decays the counts by the factor of the periods that are due. -/
theorem catchUp_of_due_ne_zero (h : r.due now ≠ 0) :
    r.catchUp now =
      { r.decayBy (r.factorOf (r.due now)) with
        lastDecay := if r.due now ≤ maxPeriods then r.lastDecay + r.due now * r.periodNs else now } :=
  if_neg h

/-- It moves the time of the last decay on by these periods, unless they are very many. -/
theorem catchUp_eq (h : r.due now ≠ 0) (hperiods : r.due now ≤ maxPeriods) :
    r.catchUp now = (r.decayBy (r.factorOf (r.due now))).moveOn (r.due now) := by
  rw [catchUp_of_due_ne_zero h, if_pos hperiods]
  rfl

/-- What is due after the time of the last decay has been moved on is less by as much. -/
theorem due_moveOn (r : DecayRanking F) (factor : F) (periods : ℕ) :
    ((r.decayBy factor).moveOn periods).due now = r.due now - periods := by
  change (now - (r.lastDecay + periods * r.periodNs)) / r.periodNs = _
  rw [Nat.sub_add_eq, Nat.mul_comm, Nat.sub_mul_div, due]

/-- As long as periods have a power of the factor, catching up with them leaves the others due. -/
theorem due_catchUp_of_le {earlier : ℕ} (h : r.due earlier ≤ maxPower) (later : ℕ) :
    (r.catchUp earlier).due later = r.due later - r.due earlier := by
  by_cases hfirst : r.due earlier = 0
  · rw [catchUp_of_due_eq_zero hfirst, hfirst, Nat.sub_zero]
  · rw [catchUp_eq hfirst (h.trans (by decide)), due_moveOn]

/-- Nothing is due after catching up. -/
theorem due_catchUp (r : DecayRanking F) (now : ℕ) : (r.catchUp now).due now = 0 := by
  by_cases hdue : r.due now = 0
  · rw [catchUp_of_due_eq_zero hdue, hdue]
  · by_cases hperiods : r.due now ≤ maxPeriods
    · rw [catchUp_eq hdue hperiods, due_moveOn, Nat.sub_self]
    · rw [catchUp_of_due_ne_zero hdue, if_neg hperiods, due, Nat.sub_self, Nat.zero_div]

/-- A pass changes the counts, their total and the time of the last decay, and nothing else. -/
theorem catchUp_eq_with (r : DecayRanking F) (now : ℕ) :
    r.catchUp now =
      { r with
        counts := (r.catchUp now).counts
        total := (r.catchUp now).total
        lastDecay := (r.catchUp now).lastDecay } := by
  by_cases hdue : r.due now = 0
  · rw [catchUp_of_due_eq_zero hdue]
  · rw [catchUp_of_due_ne_zero hdue]
    rfl

/-- Catching up twice at one time is catching up once. -/
theorem catchUp_self (r : DecayRanking F) (now : ℕ) : (r.catchUp now).catchUp now = r.catchUp now :=
  catchUp_of_due_eq_zero (due_catchUp r now)

/-- A count is multiplied by a factor other than zero, and forgotten if it becomes small. -/
theorem find_decayCounts (counts : Table String F) (factor : F) (caller : String) :
    (decayCounts counts factor).get? caller =
      if isZero factor then none
      else (counts.get? caller).bind fun c =>
        if Scalar.le forgetBelow (c * factor) then some (c * factor) else none := by
  unfold decayCounts
  split
  · rfl
  · exact Table.get?_filterMap _ counts caller

omit [Scalar F] in
/-- More is due later. -/
theorem due_mono (r : DecayRanking F) {now later : ℕ} (h : now ≤ later) : r.due now ≤ r.due later :=
  Nat.div_le_div_right (Nat.sub_le_sub_right h r.lastDecay)

/-- The time of the last decay is moved on by all periods that are due, unless they are very many. -/
theorem lastDecay_catchUp (h : r.due now ≠ 0) :
    (r.catchUp now).lastDecay =
      if r.due now ≤ maxPeriods then r.lastDecay + r.due now * r.periodNs else now := by
  rw [catchUp_of_due_ne_zero h]

/-- A pass makes up for no more than has passed. -/
theorem lastDecay_catchUp_le (h : r.due now ≠ 0) : (r.catchUp now).lastDecay ≤ now := by
  have hpassed : r.lastDecay ≤ now := by
    by_contra hlate
    rw [due, Nat.sub_eq_zero_of_le (Nat.le_of_not_le hlate), Nat.zero_div] at h
    exact h rfl
  have hwhole : r.due now * r.periodNs ≤ now - r.lastDecay := Nat.div_mul_le_self _ _
  rw [lastDecay_catchUp h]
  split <;> omega

/-- Two passes one after the other come to one as far as the time of the last decay goes exactly if one pass
moves it on by periods, or if the second pass ends where one pass does anyway. -/
theorem lastDecay_catchUp_catchUp_iff {earlier later : ℕ} (hle : earlier ≤ later)
    (hfirst : r.due earlier ≠ 0) :
    ((r.catchUp earlier).catchUp later).lastDecay = (r.catchUp later).lastDecay ↔
      r.due later ≤ maxPeriods ∨ maxPeriods < (r.catchUp earlier).due later ∨
        r.periodNs ∣ later - (r.catchUp earlier).lastDecay := by
  have hmono := due_mono r hle
  have hlater : r.due later ≠ 0 := by omega
  have hpassed := (lastDecay_catchUp_le hfirst).trans hle
  have hperiod : (r.catchUp earlier).periodNs = r.periodNs := by
    rw [catchUp_of_due_ne_zero hfirst]
    rfl
  rw [lastDecay_catchUp hlater]
  by_cases hperiods : r.due later ≤ maxPeriods
  · have hmoved := catchUp_eq hfirst (hmono.trans hperiods)
    have hrest : (r.catchUp earlier).due later = r.due later - r.due earlier := by
      rw [hmoved, due_moveOn]
    have hlast : (r.catchUp earlier).lastDecay = r.lastDecay + r.due earlier * r.periodNs := by
      rw [hmoved]
      rfl
    rw [if_pos hperiods]
    refine iff_of_true ?_ (.inl hperiods)
    by_cases hsame : r.due earlier = r.due later
    · rw [catchUp_of_due_eq_zero (by omega), hlast, hsame]
    · rw [lastDecay_catchUp (by omega), if_pos (by omega), hrest, hlast, hperiod, Nat.add_assoc,
        ← Nat.add_mul, Nat.add_sub_cancel' hmono]
  · rw [if_neg hperiods, or_iff_right hperiods]
    have hwhole : (r.catchUp earlier).due later = (later - (r.catchUp earlier).lastDecay) / r.periodNs := by
      rw [due, hperiod]
    by_cases hmany : maxPeriods < (r.catchUp earlier).due later
    · rw [lastDecay_catchUp (by omega), if_neg (by omega)]
      exact iff_of_true rfl (.inl hmany)
    · -- The second pass ends where the time is up exactly if no part of a period is left over.
      have hend : ((r.catchUp earlier).catchUp later).lastDecay =
          (r.catchUp earlier).lastDecay + (r.catchUp earlier).due later * r.periodNs := by
        by_cases hdue : (r.catchUp earlier).due later = 0
        · rw [catchUp_of_due_eq_zero hdue, hdue, Nat.zero_mul, Nat.add_zero]
        · rw [lastDecay_catchUp hdue, if_pos (by omega), hperiod]
      rw [hend, or_iff_right hmany, Nat.dvd_iff_div_mul_eq, ← hwhole]
      omega

end Passes

/-! ## Exact counts -/

section Exact

variable {r : DecayRanking ℚ} {counts : Table String ℚ} {x y : ℚ}

/-- A count is multiplied, and forgotten if it comes to less than one half. -/
theorem get?_decayCounts (counts : Table String ℚ) (hx : 0 < x) (caller : String) :
    (decayCounts counts x).get? caller =
      (counts.get? caller).bind fun c => if 1 / 2 ≤ c * x then some (c * x) else none := by
  have hzero : isZero x = false := by
    rw [isZero, Scalar.rat_zero, Scalar.rat_le, decide_eq_false (not_le.mpr hx), Bool.false_and]
  have hkept : ∀ c : ℚ, Scalar.le forgetBelow c = decide (1 / 2 ≤ c) := fun c => by
    rw [Scalar.rat_le, forgetBelow, Scalar.rat_one, Scalar.rat_two]
  rw [find_decayCounts, hzero, if_neg Bool.false_ne_true]
  simp only [hkept, decide_eq_true_eq]

/-- A count that is left over from a decay is a multiple of one that was there, and not small. -/
theorem exists_of_mem_decayBy (hx : 0 < x) {c : ℚ} (hc : c ∈ (r.decayBy x).counts.values) :
    ∃ c' ∈ r.counts.values, c' * x = c ∧ 1 / 2 ≤ c := by
  obtain ⟨caller, hcount⟩ := Table.mem_values_iff.mp hc
  change (decayCounts r.counts x).get? caller = some c at hcount
  rw [get?_decayCounts _ hx] at hcount
  obtain ⟨c', hc', hcount⟩ := Option.bind_eq_some_iff.mp hcount
  split at hcount
  · rename_i hkept
    obtain rfl := Option.some.inj hcount
    exact ⟨c', Table.mem_values_iff.mpr ⟨caller, hc'⟩, rfl, hkept⟩
  · contradiction

/-- Two decays forget those whom one decay by both factors forgets. -/
theorem decayCounts_decayCounts (counts : Table String ℚ) (hx : 0 < x) (hy : 0 < y) (hle : y ≤ 1) :
    decayCounts (decayCounts counts x) y = decayCounts counts (x * y) := by
  apply Table.ext_get?
  intro caller
  rw [get?_decayCounts _ hy, get?_decayCounts _ hx, get?_decayCounts _ (mul_pos hx hy)]
  cases counts.get? caller with
  | none => rfl
  | some c =>
    rw [Option.bind_some, Option.bind_some, ← mul_assoc]
    by_cases hkept : 1 / 2 ≤ c * x
    · rw [if_pos hkept, Option.bind_some]
    · have hless : ¬ 1 / 2 ≤ c * x * y := by
        intro hlater
        have hpos : 0 ≤ c * x := by
          by_contra hneg
          have := mul_neg_of_neg_of_pos (not_le.mp hneg) hy
          linarith
        have := mul_le_of_le_one_right hpos hle
        linarith
      rw [if_neg hkept, if_neg hless, Option.bind_none]

/-- Two decays of a ranking are one by both factors. -/
theorem decayBy_decayBy (r : DecayRanking ℚ) (hx : 0 < x) (hy : 0 < y) (hle : y ≤ 1) :
    (r.decayBy x).decayBy y = r.decayBy (x * y) := by
  unfold decayBy
  simp only [decayCounts_decayCounts r.counts hx hy hle]

/-- A decay leaves nobody over exactly if all counts become too small. -/
theorem decayCounts_eq_empty_iff (counts : Table String ℚ) (hx : 0 < x) :
    decayCounts counts x = Table.empty ↔ ∀ c ∈ counts.values, c * x < 1 / 2 := by
  constructor
  · intro hempty c hc
    obtain ⟨caller, hcount⟩ := Table.mem_values_iff.mp hc
    have hnone := get?_decayCounts counts hx caller
    rw [hempty, hcount, Option.bind_some] at hnone
    by_contra hkept
    rw [if_pos (not_lt.mp hkept)] at hnone
    contradiction
  · intro hfaded
    apply Table.ext_get?
    intro caller
    rw [get?_decayCounts _ hx]
    cases hcount : counts.get? caller with
    | none => rfl
    | some c =>
      have hsmall := hfaded c (Table.mem_values_iff.mpr ⟨caller, hcount⟩)
      rw [Option.bind_some, if_neg (not_le.mpr hsmall)]
      rfl

/-- What a pass leaves of the counts: they are multiplied by a power of the factor if there is one for all
periods that are due, and otherwise everybody is forgotten. -/
theorem counts_catchUp {now : ℕ} (h : r.due now ≠ 0) :
    (r.catchUp now).counts =
      if r.due now ≤ maxPower then decayCounts r.counts (r.factor ^ r.due now) else Table.empty := by
  rw [catchUp_of_due_ne_zero h]
  change decayCounts r.counts (r.factorOf (r.due now)) = _
  unfold factorOf
  split
  · rw [Scalar.rat_pow]
  · rfl

/-- Where everybody is forgotten there is nothing more to forget. -/
theorem counts_catchUp_of_empty (h : r.counts = Table.empty) (now : ℕ) :
    (r.catchUp now).counts = Table.empty := by
  by_cases hdue : r.due now = 0
  · rw [catchUp_of_due_eq_zero hdue, h]
  · rw [catchUp_of_due_ne_zero hdue]
    change decayCounts r.counts _ = Table.empty
    rw [h]
    unfold decayCounts
    split <;> rfl

/-- What is remembered in total after a pass is what is left of the counts. -/
theorem total_catchUp {now : ℕ} (h : r.due now ≠ 0) :
    (r.catchUp now).total = (r.catchUp now).counts.values.sum := by
  rw [catchUp_of_due_ne_zero h]
  exact Scalar.rat_sum _

section Fraction

variable {k : ℕ} (hpos : 0 < r.factor) (hlt : r.factor < 1)
include hpos hlt

/-- Single steps, at least one of them, are a decay by a power of the factor. -/
theorem iterate_decayOnce (k : ℕ) : decayOnce^[k + 1] r = r.decayBy (r.factor ^ (k + 1)) := by
  induction k with
  | zero =>
    rw [zero_add, pow_one]
    rfl
  | succ k ih =>
    rw [Function.iterate_succ_apply', ih]
    change (r.decayBy (r.factor ^ (k + 1))).decayBy r.factor = _
    rw [decayBy_decayBy r (pow_pos hpos _) hpos hlt.le, ← pow_succ]

/-- Catching up comes to a single step for each period that is due. -/
theorem catchUp_eq_iterate {now : ℕ} (hdue : r.due now ≠ 0) (hpower : r.due now ≤ maxPower) :
    r.catchUp now = (decayOnce^[r.due now] r).moveOn (r.due now) := by
  obtain ⟨k, hk⟩ := Nat.exists_eq_succ_of_ne_zero hdue
  rw [catchUp_eq hdue (hpower.trans (by decide)), factorOf, if_pos hpower, Scalar.rat_pow, hk,
    iterate_decayOnce hpos hlt]

/-- Two passes by powers of the factor are a decay by the power for all their periods. -/
theorem counts_catchUp_catchUp {earlier later : ℕ} (hle : earlier ≤ later) (hfirst : r.due earlier ≠ 0)
    (hearly : r.due earlier ≤ maxPower) (hlate : r.due later - r.due earlier ≤ maxPower) :
    ((r.catchUp earlier).catchUp later).counts = decayCounts r.counts (r.factor ^ r.due later) := by
  have hmono := due_mono r hle
  have hcounts := counts_catchUp hfirst
  rw [if_pos hearly] at hcounts
  have hrest := due_catchUp_of_le hearly later
  have hfactor : (r.catchUp earlier).factor = r.factor := by rw [catchUp_eq_with]
  by_cases hsame : r.due earlier = r.due later
  · rw [catchUp_of_due_eq_zero (by omega), hcounts, hsame]
  · rw [counts_catchUp (by omega), hrest, if_pos hlate, hcounts, hfactor,
      decayCounts_decayCounts _ (pow_pos hpos _) (pow_pos hpos _) (pow_le_one₀ hpos.le hlt.le), ← pow_add,
      Nat.add_sub_cancel' hmono]

/-- Two passes one after the other come to one as far as counts go exactly if both multiply by a power for all
their periods and so does one pass, or if everybody is forgotten anyway. -/
theorem counts_catchUp_catchUp_iff {earlier later : ℕ} (hle : earlier ≤ later)
    (hfirst : r.due earlier ≠ 0) :
    ((r.catchUp earlier).catchUp later).counts = (r.catchUp later).counts ↔
      r.due later ≤ maxPower ∨ maxPower < r.due earlier ∨ maxPower < r.due later - r.due earlier ∨
        ∀ c ∈ r.counts.values, c * r.factor ^ r.due later < 1 / 2 := by
  have hmono := due_mono r hle
  have hlater : r.due later ≠ 0 := by omega
  rw [counts_catchUp hlater]
  by_cases hearly : r.due earlier ≤ maxPower
  · by_cases hlate : r.due later - r.due earlier ≤ maxPower
    · rw [counts_catchUp_catchUp hpos hlt hle hfirst hearly hlate]
      by_cases hpower : r.due later ≤ maxPower
      · rw [if_pos hpower]
        exact iff_of_true rfl (.inl hpower)
      · rw [if_neg hpower, decayCounts_eq_empty_iff _ (pow_pos hpos _)]
        constructor
        · exact fun hfaded => .inr (.inr (.inr hfaded))
        · rintro (h | h | h | hfaded)
          · exact absurd h hpower
          · exact absurd hearly (Nat.not_le.mpr h)
          · exact absurd hlate (Nat.not_le.mpr h)
          · exact hfaded
    · have hrest := due_catchUp_of_le hearly later
      have hmore : (r.catchUp earlier).due later ≠ 0 := by omega
      have hboth := counts_catchUp hmore
      rw [hrest, if_neg hlate] at hboth
      rw [hboth, if_neg (by omega)]
      exact iff_of_true rfl (.inr (.inr (.inl (Nat.not_le.mp hlate))))
  · have hempty := counts_catchUp hfirst
    rw [if_neg hearly] at hempty
    rw [counts_catchUp_of_empty hempty, if_neg (by omega)]
    exact iff_of_true rfl (.inr (.inl (Nat.not_le.mp hearly)))

/-- Exactly when catching up in between does not change what catching up comes to. -/
theorem catchUp_catchUp_iff {earlier later : ℕ} (hle : earlier ≤ later) :
    (r.catchUp earlier).catchUp later = r.catchUp later ↔
      r.due earlier = 0 ∨
        (r.due later ≤ maxPower ∨ maxPower < r.due earlier ∨ maxPower < r.due later - r.due earlier ∨
          ∀ c ∈ r.counts.values, c * r.factor ^ r.due later < 1 / 2) ∧
        (r.due later ≤ maxPeriods ∨ maxPeriods < (r.catchUp earlier).due later ∨
          r.periodNs ∣ later - (r.catchUp earlier).lastDecay) := by
  by_cases hfirst : r.due earlier = 0
  · rw [catchUp_of_due_eq_zero hfirst]
    exact iff_of_true rfl (.inl hfirst)
  rw [or_iff_right hfirst, ← counts_catchUp_catchUp_iff hpos hlt hle hfirst,
    ← lastDecay_catchUp_catchUp_iff hle hfirst]
  refine ⟨fun hsame => by rw [hsame]; exact ⟨rfl, rfl⟩, fun ⟨hcounts, hlast⟩ => ?_⟩
  have hlater : r.due later ≠ 0 := by
    have hmono := due_mono r hle
    omega
  have htotal : ((r.catchUp earlier).catchUp later).total = (r.catchUp later).total := by
    rw [total_catchUp hlater, ← hcounts]
    by_cases hdue : (r.catchUp earlier).due later = 0
    · rw [catchUp_of_due_eq_zero hdue]
      exact total_catchUp hfirst
    · exact total_catchUp hdue
  calc (r.catchUp earlier).catchUp later
      = { r.catchUp earlier with
          counts := (r.catchUp later).counts
          total := (r.catchUp later).total
          lastDecay := (r.catchUp later).lastDecay } := by
        rw [catchUp_eq_with (r.catchUp earlier) later, hcounts, htotal, hlast]
    _ = { r with
          counts := (r.catchUp later).counts
          total := (r.catchUp later).total
          lastDecay := (r.catchUp later).lastDecay } := by
        rw [catchUp_eq_with r earlier]
    _ = r.catchUp later := (catchUp_eq_with r later).symm

end Fraction

/-! ## Counts that come about -/

/-- Whether a ranking comes about from settings by choosing levels, by counting calls and by decays out of
turn, whatever the clock shows. -/
inductive Reachable {F : Type} [Scalar F] : DecayRanking F → Prop where
  | new (levels : ℕ) (thresholds : List F) (factor : F) (periodNs now : ℕ) (r : DecayRanking F)
      (hmade : new levels thresholds factor periodNs now = .ok r) : Reachable r
  | rank (r : DecayRanking F) (now : ℕ) (caller : String) (h : Reachable r) :
      Reachable (Ranking.rank r now caller).2
  | charge (r : DecayRanking F) (now : ℕ) (caller : String) (h : Reachable r) :
      Reachable (Ranking.charge r now caller)
  | decay (r : DecayRanking F) (now : ℕ) (h : Reachable r) : Reachable (r.decay now)

/-- Whether the factor of a ranking is a fraction, its total is that of the counts, and no count is less
than one half. -/
structure Tallied (r : DecayRanking ℚ) : Prop where
  factor_pos : 0 < r.factor
  factor_lt_one : r.factor < 1
  total : r.total = r.counts.values.sum
  half_le : ∀ c ∈ r.counts.values, 1 / 2 ≤ c

/-- A decay, by whatever factor, counts what is left and leaves no small counts. -/
theorem Tallied.decayBy (h : r.Tallied) (hx : 0 ≤ x) : (r.decayBy x).Tallied := by
  refine ⟨h.factor_pos, h.factor_lt_one, Scalar.rat_sum _, fun c hc => ?_⟩
  obtain rfl | hpos := hx.eq_or_lt
  · contradiction
  · obtain ⟨c', -, -, hkept⟩ := exists_of_mem_decayBy hpos hc
    exact hkept

/-- Making up for what is due keeps the tally. -/
theorem Tallied.catchUp (h : r.Tallied) (now : ℕ) : (r.catchUp now).Tallied := by
  have hfactor : 0 ≤ r.factorOf (r.due now) := by
    unfold factorOf
    split
    · rw [Scalar.rat_pow]
      exact pow_nonneg h.factor_pos.le _
    · exact le_rfl
  by_cases hdue : r.due now = 0
  · rw [catchUp_of_due_eq_zero hdue]
    exact h
  · rw [catchUp_of_due_ne_zero hdue]
    obtain ⟨hpos, hlt, htotal, hhalf⟩ := h.decayBy hfactor
    exact ⟨hpos, hlt, htotal, hhalf⟩

/-- One more call keeps the tally. -/
theorem Tallied.addCall (h : r.Tallied) (caller : String) : (r.addCall caller).Tallied := by
  have hvalues := r.counts.values_insert_perm caller (r.count caller + 1)
  have hcount : (r.addCall caller).counts.values.Perm
      ((r.count caller + 1) :: (r.counts.erase caller).values) := hvalues
  cases hfound : r.counts.get? caller with
  | none =>
    have hzero : r.count caller = 0 := by rw [count, hfound]; rfl
    rw [hzero, Table.erase_of_get?_eq_none hfound, zero_add] at hcount
    refine ⟨h.factor_pos, h.factor_lt_one, ?_, ?_⟩
    · rw [hcount.sum_eq, List.sum_cons, ← h.total, add_comm]
      rfl
    · intro c hc
      obtain rfl | hc := List.mem_cons.mp (hcount.mem_iff.mp hc)
      · norm_num
      · exact h.half_le c hc
  | some c₀ =>
    have hold : r.count caller = c₀ := by rw [count, hfound]; rfl
    have hothers := Table.values_perm_of_get? hfound
    rw [hold] at hcount
    have hc₀ := h.half_le c₀ (hothers.mem_iff.mpr List.mem_cons_self)
    refine ⟨h.factor_pos, h.factor_lt_one, ?_, ?_⟩
    · have htotal := h.total
      rw [hothers.sum_eq, List.sum_cons] at htotal
      rw [hcount.sum_eq, List.sum_cons]
      change r.total + 1 = _
      rw [htotal]
      ring
    · intro c hc
      obtain rfl | hc := List.mem_cons.mp (hcount.mem_iff.mp hc)
      · linarith
      · exact h.half_le c (hothers.mem_iff.mpr (List.mem_cons_of_mem c₀ hc))

/-- A ranking that comes about has a true tally. -/
theorem Reachable.tallied (h : r.Reachable) : r.Tallied := by
  induction h with
  | new levels thresholds factor periodNs now r hmade =>
    unfold DecayRanking.new at hmade
    iterate 3
      split at hmade
      · contradiction
    split at hmade
    · contradiction
    · rename_i hfraction
      obtain rfl := Except.ok.inj hmade
      rw [Bool.not_eq_true, Bool.not_eq_false', isFraction, Scalar.rat_lt, Scalar.rat_lt, Scalar.rat_zero,
        Scalar.rat_one, Bool.and_eq_true, decide_eq_true_eq, decide_eq_true_eq] at hfraction
      exact ⟨hfraction.1, hfraction.2, rfl, fun c hc => by contradiction⟩
  | rank r now caller h ih => exact ih.catchUp now
  | charge r now caller h ih => exact (ih.catchUp now).addCall caller
  | decay r now h ih =>
    obtain ⟨hpos, hlt, htotal, hhalf⟩ := ih.decayBy ih.factor_pos.le
    exact ⟨hpos, hlt, htotal, hhalf⟩

/-- Catching up on idle periods equals decaying step by step, in exact numbers. Whatever the counts, a pass
over `k` due periods, of which there may be `2³¹ - 1`, leaves the counts and the total that `k` single steps
leave, and moves the time of the last decay on by `k` periods.

Looking in between does not disturb this if no period was due at the first look, or else exactly as follows.
The counts are the same as long as no more than `2³¹ - 1` periods are due, and after more of them if one of
the two passes has more than that to make up for or if everybody is forgotten anyway. The time is the same as
long as no more than `2³² - 1` periods are due, and after more of them if that many are left for the second
pass or if it ends with a whole period.

In every ranking that comes about the total is that of the counts, and no count is less than one half. -/
theorem decay_exact (r : DecayRanking ℚ) (hpos : 0 < r.factor) (hlt : r.factor < 1) :
    (∀ now k : ℕ, 1 ≤ k → k ≤ 2 ^ 31 - 1 → r.due now = k →
      (r.catchUp now).counts = (decayOnce^[k] r).counts ∧
        (r.catchUp now).total = (decayOnce^[k] r).total ∧
        (r.catchUp now).lastDecay = r.lastDecay + k * r.periodNs) ∧
    (∀ earlier later : ℕ, earlier ≤ later →
      ((r.catchUp earlier).catchUp later = r.catchUp later ↔
        r.due earlier = 0 ∨
          (r.due later ≤ 2 ^ 31 - 1 ∨ 2 ^ 31 - 1 < r.due earlier ∨
            2 ^ 31 - 1 < r.due later - r.due earlier ∨
            ∀ c ∈ r.counts.values, c * r.factor ^ r.due later < 1 / 2) ∧
          (r.due later ≤ 2 ^ 32 - 1 ∨ 2 ^ 32 - 1 < (r.catchUp earlier).due later ∨
            r.periodNs ∣ later - (r.catchUp earlier).lastDecay))) ∧
    (r.Reachable → r.total = r.counts.values.sum ∧ ∀ c ∈ r.counts.values, 1 / 2 ≤ c) := by
  refine ⟨?_, fun earlier later hle => catchUp_catchUp_iff hpos hlt hle, fun h => ?_⟩
  · rintro now k hk hpower rfl
    have hsteps := catchUp_eq_iterate hpos hlt (Nat.ne_of_gt hk) hpower
    have htime : (r.catchUp now).lastDecay = r.lastDecay + r.due now * r.periodNs := by
      rw [lastDecay_catchUp (Nat.ne_of_gt hk), if_pos (hpower.trans (by decide))]
    exact ⟨by rw [hsteps]; rfl, by rw [hsteps]; rfl, htime⟩
  · obtain ⟨-, -, htotal, hhalf⟩ := h.tallied
    exact ⟨htotal, hhalf⟩

end Exact

/-- Eight counted calls, which are halved after every thousand nanoseconds. -/
def eightCalls : DecayRanking ℚ := ⟨1, [], 1 / 2, 1000, Table.empty.insert "user" 8, 8, 0⟩

/-- After two and a half periods two of them are left, also if the ranking is looked at in between. -/
theorem decay_exact_of_eightCalls :
    0 < eightCalls.factor ∧ eightCalls.factor < 1 ∧
      eightCalls.due 2500 = 2 ∧ (eightCalls.catchUp 2500).counts = (decayOnce^[2] eightCalls).counts ∧
      (decayOnce^[2] eightCalls).counts.get? "user" = some 2 ∧
      (eightCalls.catchUp 2500).lastDecay = 2000 ∧
      (eightCalls.catchUp 1500).catchUp 2500 = eightCalls.catchUp 2500 := by
  have hpos : 0 < eightCalls.factor := by norm_num [eightCalls]
  have hlt : eightCalls.factor < 1 := by norm_num [eightCalls]
  obtain ⟨hsteps, hlooks, -⟩ := decay_exact eightCalls hpos hlt
  obtain ⟨hcounts, -, htime⟩ := hsteps 2500 2 (by decide) (by decide) rfl
  refine ⟨hpos, hlt, rfl, hcounts, ?_, htime, ?_⟩
  · decide +kernel
  · exact (hlooks 1500 2500 (by decide)).mpr (.inr ⟨.inl (by decide), .inl (by decide)⟩)

/-- Eight calls of one caller, which hardly fade from one millisecond to the next. -/
def hardlyFading : DecayRanking ℚ :=
  (fun r => Ranking.charge r 0 "user")^[8]
    ⟨2, [1 / 2], 9999999999 / 10000000000, 1000000, Table.empty, 0, 0⟩

/-- Calls may be counted one after another. -/
theorem Reachable.charges {r : DecayRanking ℚ} (h : r.Reachable) (now : ℕ) (caller : String) (n : ℕ) :
    ((fun r => Ranking.charge r now caller)^[n] r).Reachable := by
  induction n with
  | zero => exact h
  | succ n ih =>
    rw [Function.iterate_succ_apply']
    exact .charge _ now caller ih

/-- The ranking comes about from settings by eight calls. -/
theorem reachable_hardlyFading : hardlyFading.Reachable := by
  refine Reachable.charges (.new 2 [1 / 2] (9999999999 / 10000000000) 1000000 0 _ ?_) 0 "user" 8
  norm_num [DecayRanking.new, descends, isFraction]

/-- Of eight calls more than one half is left after that many periods. -/
theorem half_le_of_hardlyFading {k : ℕ} (hk : k ≤ 2 ^ 31) :
    (1 : ℚ) / 2 ≤ 8 * (9999999999 / 10000000000) ^ k := by
  have hle : (k : ℚ) ≤ 2147483648 := by exact_mod_cast hk
  have hbernoulli := one_add_mul_sub_le_pow (a := (9999999999 / 10000000000 : ℚ)) (by norm_num) k
  linarith

/-- Who makes all calls has the whole of them. -/
theorem levelFor_of_alone {r : DecayRanking ℚ} {caller : String} {c : ℚ}
    (hcounts : r.counts = Table.empty.insert caller c) (htotal : r.total = r.counts.values.sum)
    (hpos : 0 < c) : r.levelFor caller = levelOf 1 r.thresholds := by
  have hsum : r.total = c := by
    rw [htotal, hcounts]
    exact add_zero c
  have hcount : r.count caller = c := by
    rw [count, hcounts, Table.get?_insert, if_pos rfl, Option.getD_some]
  rw [levelFor, hsum, hcount, div_self hpos.ne', Scalar.rat_le, Scalar.rat_zero,
    decide_eq_false (not_le.mpr hpos), if_neg Bool.false_ne_true]

/-- After `2³¹` milliseconds without a call nobody is remembered, and the caller of all eight has the best level
again. After a look half way most of the calls are, and the level is the last one. -/
theorem disturbed_of_hardlyFading :
    hardlyFading.Reachable ∧ hardlyFading.counts = Table.empty.insert "user" 8 ∧
      hardlyFading.due (2 ^ 31 * 1000000) = 2 ^ 31 ∧
      (hardlyFading.catchUp (2 ^ 31 * 1000000)).counts = Table.empty ∧
      (Ranking.rank hardlyFading (2 ^ 31 * 1000000) "user").1 = 0 ∧
      ((hardlyFading.catchUp (2 ^ 30 * 1000000)).catchUp (2 ^ 31 * 1000000)).counts =
        Table.empty.insert "user" (8 * hardlyFading.factor ^ 2 ^ 31) ∧
      (Ranking.rank (hardlyFading.catchUp (2 ^ 30 * 1000000)) (2 ^ 31 * 1000000) "user").1 = 1 := by
  have hcounts : hardlyFading.counts = Table.empty.insert "user" 8 := by decide +kernel
  have hfactor : hardlyFading.factor = 9999999999 / 10000000000 := by decide +kernel
  have hpos : 0 < hardlyFading.factor := by norm_num [hfactor]
  have hlt : hardlyFading.factor < 1 := by norm_num [hfactor]
  have hearlier : hardlyFading.due (2 ^ 30 * 1000000) = 2 ^ 30 := by decide +kernel
  have hlater : hardlyFading.due (2 ^ 31 * 1000000) = 2 ^ 31 := by decide +kernel
  have hleft : (1 : ℚ) / 2 ≤ 8 * hardlyFading.factor ^ 2 ^ 31 := by
    rw [hfactor]
    exact half_le_of_hardlyFading le_rfl
  have hforgotten : (hardlyFading.catchUp (2 ^ 31 * 1000000)).counts = Table.empty := by
    rw [counts_catchUp (by omega), hlater, if_neg (by decide)]
  have hrest := due_catchUp_of_le (r := hardlyFading) (by rw [hearlier]; decide) (2 ^ 31 * 1000000)
  have hkept := counts_catchUp_catchUp hpos hlt (by decide : 2 ^ 30 * 1000000 ≤ 2 ^ 31 * 1000000) (by omega)
    (by rw [hearlier]; decide) (by rw [hearlier, hlater]; decide)
  have hone : decayCounts hardlyFading.counts (hardlyFading.factor ^ 2 ^ 31) =
      Table.empty.insert "user" (8 * hardlyFading.factor ^ 2 ^ 31) := by
    apply Table.ext_get?
    intro caller
    rw [get?_decayCounts _ (pow_pos hpos _), hcounts, Table.get?_insert, Table.get?_insert]
    split
    · rw [Option.bind_some, if_pos hleft]
    · rfl
  rw [hlater, hone] at hkept
  refine ⟨reachable_hardlyFading, hcounts, hlater, hforgotten, ?_, hkept, ?_⟩
  · change (hardlyFading.catchUp (2 ^ 31 * 1000000)).levelFor "user" = 0
    rw [levelFor, total_catchUp (by omega), hforgotten]
    rfl
  · change ((hardlyFading.catchUp (2 ^ 30 * 1000000)).catchUp (2 ^ 31 * 1000000)).levelFor "user" = 1
    have hthresholds : hardlyFading.thresholds = [1 / 2] := by decide +kernel
    rw [levelFor_of_alone hkept (total_catchUp (by omega)) (lt_of_lt_of_le (by norm_num) hleft), catchUp_eq_with, catchUp_eq_with,
      hthresholds]
    decide +kernel

end Allotment.DecayRanking
