import Allotment.CallQueue.Fair
import Allotment.Proofs.Double.Power
import Allotment.Proofs.Table

/-!
# Settings of fair call queues

A configuration of a fair call queue is accepted exactly if its settings agree with each other, and what it
leaves unset agrees with any number of levels from one on. The queue then has the levels that were asked for,
and they share the capacity.

Numbers of levels and places are machine integers. That the arithmetic between them never leaves the machine
integers is said by building the queue a second time, with steps that stop where a result would not fit: with
at most `2³¹` levels no step stops, and the same is built.
-/

namespace Allotment

/-! ## Settings that agree -/

namespace FairConfig

variable {F : Type}

/-- Whether there is a weight for each level, and none is zero. -/
structure WeightsFit (c : FairConfig F) : Prop where
  length : c.resolvedWeights.length = c.levels
  positive : ∀ w ∈ c.resolvedWeights, 0 < w

/-- Weights that are left unset fit. -/
theorem weightsFit_of_unset {c : FairConfig F} (h : c.weights = none) : c.WeightsFit := by
  have hweights : c.resolvedWeights = (List.range c.levels).map fun level =>
      Nat.pow 2 (min (c.levels - 1 - level) 63) := by
    rw [resolvedWeights, h, Option.getD_none]
  constructor
  · rw [hweights, List.length_map, List.length_range]
  · rw [hweights]
    intro w hw
    obtain ⟨level, -, rfl⟩ := List.mem_map.mp hw
    exact Nat.two_pow_pos _

variable [Scalar F]

/-- Whether there is a threshold between any two levels, and none is greater than the next. -/
structure ThresholdsFit (c : FairConfig F) : Prop where
  length : c.resolvedThresholds.length = c.levels - 1
  ascending : c.resolvedThresholds.IsChain fun s t => Scalar.lt t s = false

/-- Whether the settings of a fair queue agree with each other. -/
structure Consistent (c : FairConfig F) : Prop where
  levels : 1 ≤ c.levels
  weights : c.WeightsFit
  thresholds : c.ThresholdsFit
  factor_pos : Scalar.lt Scalar.zero c.decayFactor = true
  factor_lt_one : Scalar.lt c.decayFactor Scalar.one = true

/-- Thresholds that are left unset fit if there is a level: each is the reciprocal of a power of two, and the
next one that of the power below. -/
theorem thresholdsFit_of_unset {c : FairConfig Float} (h : c.thresholds = none) (hlevels : 1 ≤ c.levels) :
    c.ThresholdsFit := by
  have hthresholds : c.resolvedThresholds = (List.range (c.levels - 1)).map fun i =>
      Scalar.one / Scalar.pow Scalar.two (c.levels - (i + 1)) := by
    rw [resolvedThresholds, h, Option.getD_none, max_eq_left hlevels]
  constructor
  · rw [hthresholds, List.length_map, List.length_range]
  · rw [hthresholds, List.isChain_map, List.isChain_iff_getElem]
    intro i hi
    rw [List.getElem_range, List.getElem_range]
    have hfirst := Double.isPower_pow_two (c.levels - (i + 1))
    have hnext := Double.isPower_pow_two (c.levels - (i + 1 + 1))
    rw [← Bool.not_eq_true, Double.lt_iff_value_lt hnext.reciprocal.1 hfirst.reciprocal.1, not_lt]
    exact hnext.reciprocal_anti hfirst (by omega)

end FairConfig

namespace DecayRanking

variable {F : Type} [Scalar F] {thresholds : List F} {levels periodNs now : ℕ} {factor : F}

/-- Thresholds do not descend exactly if none is greater than the next. -/
theorem descends_eq_false_iff :
    descends thresholds = false ↔ thresholds.IsChain fun s t => Scalar.lt t s = false := by
  induction thresholds with
  | nil => simp [descends]
  | cons t rest ih =>
    cases rest with
    | nil => simp [descends]
    | cons s rest => rw [descends, Bool.or_eq_false_iff, List.isChain_cons_cons, ih]

/-- A ranking comes about exactly if its thresholds separate its levels and are in order, and its factor lies
between zero and one. -/
theorem new_eq_ok_iff {r : DecayRanking F} :
    new levels thresholds factor periodNs now = .ok r ↔
      (1 ≤ levels ∧ thresholds.length = levels - 1 ∧
        (thresholds.IsChain fun s t => Scalar.lt t s = false) ∧ isFraction factor = true) ∧
      ⟨levels, thresholds, factor, periodNs, Table.empty, Scalar.zero, now⟩ = r := by
  unfold DecayRanking.new
  dsimp only
  rw [← descends_eq_false_iff]
  split_ifs with hlevels hlength horder hfraction
  · exact iff_of_false nofun fun h => absurd h.1.1 (by omega)
  · exact iff_of_false nofun fun h => hlength h.1.2.1
  · exact iff_of_false nofun fun h => absurd h.1.2.2.1 (by rw [horder]; exact Bool.noConfusion)
  · exact iff_of_false nofun fun h => absurd h.1.2.2.2 (by simpa using hfraction)
  · rw [Except.ok.injEq, iff_and_self]
    exact fun _ => ⟨by omega, not_not.mp hlength, by simpa using horder, by simpa using hfraction⟩

end DecayRanking

namespace FairQueue

section New

variable {σ E : Type} [Ranking σ] {capacity : ℕ} {scope : String} {weights : List ℕ} {ranking : σ}

/-- A queue comes about exactly if there is a level, no weight is zero and the ranking has as many levels as
there are weights. -/
theorem new_eq_ok_iff {q : FairQueue σ E} :
    new capacity scope weights ranking = .ok q ↔
      (weights ≠ [] ∧ (∀ w ∈ weights, 0 < w) ∧ Ranking.levels ranking = weights.length) ∧
      ⟨scope, weights.map fun _ => Fifo.new kind (max (capacity / weights.length) 1), ranking,
        RoundRobin.new weights, 0⟩ = q := by
  have hpositive : (∀ w ∈ weights, 0 < w) ↔ ¬ weights.contains 0 = true := by
    rw [List.contains_iff_mem]
    exact ⟨fun h hzero => lt_irrefl 0 (h 0 hzero), fun h w hw => Nat.pos_of_ne_zero fun hw' => h (hw' ▸ hw)⟩
  unfold FairQueue.new
  dsimp only
  rw [hpositive]
  split_ifs with hempty hzero hlevels
  · exact iff_of_false nofun fun h => h.1.1 hempty
  · exact iff_of_false nofun fun h => h.1.2.1 hzero
  · exact iff_of_false nofun fun h => hlevels h.1.2.2
  · rw [Except.ok.injEq, iff_and_self]
    exact fun _ => ⟨hempty, hzero, not_not.mp hlevels⟩

/-- A new queue has a level for each weight, and each level has its part of the capacity, at least one
place. -/
theorem capacity_of_new {q : FairQueue σ E} (h : new capacity scope weights ranking = .ok q) :
    q.levels.length = weights.length ∧ Ranking.levels q.ranking = weights.length ∧
      q.capacity = weights.length * max 1 (capacity / weights.length) := by
  obtain ⟨⟨-, -, hlevels⟩, rfl⟩ := new_eq_ok_iff.mp h
  have hsum : ∀ levels : List (Fifo E),
      levels.foldr (fun level n => level.capacity + n) 0 = (levels.map Fifo.capacity).sum := by
    intro levels
    rw [List.sum_eq_foldr, List.foldr_map]
  have hplaces : ∀ n : ℕ, max (max n 1) 1 = max 1 n := by omega
  refine ⟨List.length_map _, hlevels, ?_⟩
  rw [FairQueue.capacity, hsum, List.map_map]
  change (weights.map fun _ => max (max (capacity / weights.length) 1) 1).sum = _
  rw [List.map_const', List.sum_replicate, smul_eq_mul, hplaces]

end New

end FairQueue

/-! ## Arithmetic that stops -/

namespace Word

/-- A difference that stops below zero. -/
def minus? (a b : ℕ) : Option ℕ := if b ≤ a then some (a - b) else none

/-- One shifted to the left, which stops at the width of a machine integer. -/
def shifted? (places : ℕ) : Option ℕ := if places < 64 then some (Nat.pow 2 places) else none

/-- A quotient that stops at a divisor of zero. -/
def over? (a b : ℕ) : Option ℕ := if b = 0 then none else some (a / b)

/-- A power that stops at exponents too large for a signed integer of 32 bits. -/
def power? {F : Type} [Scalar F] (base : F) (k : ℕ) : Option F :=
  if k < 2 ^ 31 then some (Scalar.pow base k) else none

variable {a b k : ℕ}

theorem minus?_eq (h : b ≤ a) : minus? a b = some (a - b) := if_pos h

theorem shifted?_eq (h : k < 64) : shifted? k = some (Nat.pow 2 k) := if_pos h

theorem over?_eq (h : b ≠ 0) : over? a b = some (a / b) := if_neg h

theorem power?_eq {F : Type} [Scalar F] (base : F) (h : k < 2 ^ 31) :
    power? base k = some (Scalar.pow base k) :=
  if_pos h

end Word

namespace FairConfig

variable {F : Type}

/-- The weights of the levels, in arithmetic that stops. -/
def resolvedWeights? (c : FairConfig F) : Option (List ℕ) :=
  match c.weights with
  | some weights => some weights
  | none => (List.range c.levels).mapM fun level => do
    let last ← Word.minus? c.levels 1
    let places ← Word.minus? last level
    Word.shifted? (min places 63)

/-- The thresholds between the levels, in arithmetic that stops. -/
def resolvedThresholds? [Scalar F] (c : FairConfig F) : Option (List F) :=
  match c.thresholds with
  | some thresholds => some thresholds
  | none => (List.range (max c.levels 1 - 1)).mapM fun i => do
    let k ← Word.minus? (max c.levels 1) (i + 1)
    let power ← Word.power? Scalar.two k
    return Scalar.one / power

theorem resolvedWeights?_eq (c : FairConfig F) : c.resolvedWeights? = some c.resolvedWeights := by
  unfold resolvedWeights? resolvedWeights
  cases c.weights with
  | some weights => rfl
  | none =>
    refine mapM_eq_some_iff.mpr (List.forall₂_map_right_iff.mpr (List.forall₂_same.mpr fun level hlevel => ?_))
    rw [List.mem_range] at hlevel
    have hlast := Word.minus?_eq (a := c.levels) (b := 1) (by omega)
    have hplaces := Word.minus?_eq (a := c.levels - 1) (b := level) (by omega)
    have hshifted := Word.shifted?_eq (k := min (c.levels - 1 - level) 63) (by omega)
    simp only [hlast, hplaces, hshifted, Option.bind_eq_bind, Option.bind_some]

theorem resolvedThresholds?_eq [Scalar F] {c : FairConfig F} (h : c.levels ≤ 2 ^ 31) :
    c.resolvedThresholds? = some c.resolvedThresholds := by
  unfold resolvedThresholds? resolvedThresholds
  cases c.thresholds with
  | some thresholds => rfl
  | none =>
    refine mapM_eq_some_iff.mpr (List.forall₂_map_right_iff.mpr (List.forall₂_same.mpr fun i hi => ?_))
    rw [List.mem_range] at hi
    have hexponent := Word.minus?_eq (a := max c.levels 1) (b := i + 1) (by omega)
    have hpower := Word.power?_eq (Scalar.two : F) (k := max c.levels 1 - (i + 1)) (by omega)
    simp only [hexponent, hpower, Option.bind_eq_bind, Option.bind_some, Option.pure_def]

end FairConfig

/-- A ranking, if its settings agree with each other, in arithmetic that stops. -/
def DecayRanking.new? {F : Type} [Scalar F] (levels : ℕ) (thresholds : List F) (factor : F)
    (periodNs now : ℕ) : Option (Except Error (DecayRanking F)) :=
  let refuse (fault : ConstructionFault) := Except.error (Error.queueConstruction "fair" fault)
  if levels = 0 then some (refuse .noLevels)
  else do
    let between ← Word.minus? levels 1
    if thresholds.length ≠ between then return refuse (.thresholdCount levels thresholds.length)
    else if descends thresholds then return refuse .thresholdOrder
    else if !isFraction factor then return refuse (.decayFactor (Scalar.text factor))
    else return .ok ⟨levels, thresholds, factor, periodNs, Table.empty, Scalar.zero, now⟩

/-- A queue, if its settings agree with each other, in arithmetic that stops. -/
def FairQueue.new? {σ E : Type} [Ranking σ] (capacity : ℕ) (scope : String) (weights : List ℕ)
    (ranking : σ) : Option (Except Error (FairQueue σ E)) :=
  let refuse (fault : ConstructionFault) := Except.error (Error.queueConstruction kind fault)
  if weights = [] then some (refuse .noLevels)
  else if weights.contains 0 then some (refuse .zeroWeight)
  else if Ranking.levels ranking ≠ weights.length then
    some (refuse (.levelMismatch (Ranking.levels ranking) weights.length))
  else do
    let share ← Word.over? capacity weights.length
    return .ok ⟨scope, weights.map fun _ => Fifo.new kind (max share 1), ranking, RoundRobin.new weights, 0⟩

/-- The fair queue of a configuration, in arithmetic that stops. -/
def FairQueue.ofConfig? {F E : Type} [Scalar F] (capacity : ℕ) (scope : String) (c : FairConfig F)
    (now : ℕ) : Option (Except Error (FairQueue (DecayRanking F) E)) := do
  let thresholds ← c.resolvedThresholds?
  match ← DecayRanking.new? c.levels thresholds c.decayFactor (c.decayPeriodMs * 1000000) now with
  | .error e => return .error e
  | .ok ranking =>
    let weights ← c.resolvedWeights?
    FairQueue.new? capacity scope weights ranking

theorem DecayRanking.new?_eq {F : Type} [Scalar F] (levels : ℕ) (thresholds : List F) (factor : F)
    (periodNs now : ℕ) :
    new? levels thresholds factor periodNs now = some (new levels thresholds factor periodNs now) := by
  unfold DecayRanking.new? DecayRanking.new
  dsimp only
  split
  · rfl
  · rename_i hlevels
    rw [Word.minus?_eq (by omega), Option.bind_eq_bind, Option.bind_some]
    split_ifs <;> rfl

theorem FairQueue.new?_eq {σ E : Type} [Ranking σ] (capacity : ℕ) (scope : String) (weights : List ℕ)
    (ranking : σ) :
    (new? capacity scope weights ranking : Option (Except Error (FairQueue σ E))) =
      some (new capacity scope weights ranking) := by
  unfold FairQueue.new? FairQueue.new
  dsimp only
  split
  · rfl
  · rename_i hempty
    rw [Word.over?_eq (mt List.length_eq_zero_iff.mp hempty), Option.bind_eq_bind, Option.bind_some]
    split_ifs <;> rfl

/-- With at most `2³¹` levels no step of the arithmetic stops. -/
theorem FairQueue.ofConfig?_eq {F E : Type} [Scalar F] [Ranked E] {c : FairConfig F}
    (h : c.levels ≤ 2 ^ 31) (capacity : ℕ) (scope : String) (now : ℕ) :
    (ofConfig? capacity scope c now : Option (Except Error (FairQueue (DecayRanking F) E))) =
      some (ofConfig capacity scope c now) := by
  unfold FairQueue.ofConfig? FairQueue.ofConfig DecayRanking.ofConfig
  rw [FairConfig.resolvedThresholds?_eq h, Option.bind_eq_bind, Option.bind_some, DecayRanking.new?_eq,
    Option.bind_eq_bind, Option.bind_some]
  cases DecayRanking.new c.levels c.resolvedThresholds c.decayFactor (c.decayPeriodMs * 1000000) now with
  | error e => rfl
  | ok ranking =>
    dsimp only
    rw [FairConfig.resolvedWeights?_eq, Option.bind_eq_bind, Option.bind_some, FairQueue.new?_eq]
    rfl

/-! ## Building a fair queue -/

namespace FairQueue

variable {F E : Type} [Scalar F] [Ranked E] {c : FairConfig F} {capacity now : ℕ} {scope : String}
  {q : FairQueue (DecayRanking F) E}

/-- A fair queue comes about from a ranking that does. -/
theorem ofConfig_eq_ok_iff : ofConfig capacity scope c now = .ok q ↔ ∃ ranking,
    DecayRanking.ofConfig c now = .ok ranking ∧ new capacity scope c.resolvedWeights ranking = .ok q := by
  unfold FairQueue.ofConfig
  cases DecayRanking.ofConfig c now with
  | error e => exact iff_of_false nofun nofun
  | ok ranking =>
    constructor
    · exact fun h => ⟨ranking, rfl, h⟩
    · rintro ⟨_, hranking, h⟩
      cases hranking
      exact h

/-- What comes about has a weight for each of the levels that were asked for. -/
theorem consistent_of_ofConfig (h : ofConfig capacity scope c now = .ok q) : c.Consistent := by
  obtain ⟨ranking, hranking, hq⟩ := ofConfig_eq_ok_iff.mp h
  obtain ⟨⟨hlevels, hlength, hchain, hfactor⟩, rfl⟩ := DecayRanking.new_eq_ok_iff.mp hranking
  obtain ⟨⟨-, hpositive, hweights⟩, -⟩ := new_eq_ok_iff.mp hq
  rw [DecayRanking.isFraction, Bool.and_eq_true] at hfactor
  exact ⟨hlevels, ⟨hweights.symm, hpositive⟩, ⟨hlength, hchain⟩, hfactor.1, hfactor.2⟩

/-- A queue comes about if the settings agree with each other. -/
theorem exists_of_consistent (h : c.Consistent) (capacity : ℕ) (scope : String) (now : ℕ) :
    ∃ q : FairQueue (DecayRanking F) E, ofConfig capacity scope c now = .ok q := by
  have hfactor : DecayRanking.isFraction c.decayFactor = true := by
    rw [DecayRanking.isFraction, h.factor_pos, h.factor_lt_one, Bool.and_self]
  have hranking : DecayRanking.ofConfig c now = .ok ⟨c.levels, c.resolvedThresholds, c.decayFactor,
      c.decayPeriodMs * 1000000, Table.empty, Scalar.zero, now⟩ :=
    DecayRanking.new_eq_ok_iff.mpr ⟨⟨h.levels, h.thresholds.length, h.thresholds.ascending, hfactor⟩, rfl⟩
  have hnonempty : c.resolvedWeights ≠ [] := by
    have hlength := h.weights.length
    have hlevels := h.levels
    intro hempty
    rw [hempty, List.length_nil] at hlength
    omega
  exact ⟨_, ofConfig_eq_ok_iff.mpr ⟨_, hranking,
    new_eq_ok_iff.mpr ⟨⟨hnonempty, h.weights.positive, h.weights.length.symm⟩, rfl⟩⟩⟩

/-- A queue that comes about has the levels that were asked for, its ranking has as many, and they share the
capacity. -/
theorem levels_of_ofConfig (h : ofConfig capacity scope c now = .ok q) :
    q.levels.length = c.levels ∧ Ranking.levels q.ranking = c.levels ∧
      q.capacity = c.levels * max 1 (capacity / c.levels) := by
  have hlength := (consistent_of_ofConfig h).weights.length
  obtain ⟨ranking, -, hq⟩ := ofConfig_eq_ok_iff.mp h
  have hnew := capacity_of_new hq
  rwa [hlength] at hnew

/-- A fair queue is built from a configuration exactly if its settings agree with each other: there is a
level, a positive weight for each level, a threshold between any two levels with none greater than the next,
and a decay factor strictly between zero and one. Weights and thresholds that are left unset agree with every
number of levels from one on. The queue then has the levels that were asked for, its ranking has as many, and
each has its part of the capacity, at least one place; so the places are no more than the capacity, or one
for each level if that is more. With at most `2³¹` levels no step of the arithmetic leaves the machine
integers. -/
theorem ofConfig_accepts {E : Type} [Ranked E] (c : FairConfig Float) (hlevels : c.levels ≤ 2 ^ 31)
    (capacity : ℕ) (scope : String) (now : ℕ) :
    ((∃ q : FairQueue (DecayRanking Float) E, ofConfig capacity scope c now = .ok q) ↔ c.Consistent) ∧
    (c.weights = none → c.WeightsFit) ∧
    (c.thresholds = none → 1 ≤ c.levels → c.ThresholdsFit) ∧
    (∀ q : FairQueue (DecayRanking Float) E, ofConfig capacity scope c now = .ok q →
      q.levels.length = c.levels ∧ Ranking.levels q.ranking = c.levels ∧
      q.capacity = c.levels * max 1 (capacity / c.levels) ∧ q.capacity ≤ max capacity c.levels) ∧
    (ofConfig? capacity scope c now : Option (Except Error (FairQueue (DecayRanking Float) E))) =
      some (ofConfig capacity scope c now) := by
  refine ⟨⟨fun ⟨q, h⟩ => consistent_of_ofConfig h, fun h => exists_of_consistent h capacity scope now⟩,
    FairConfig.weightsFit_of_unset, FairConfig.thresholdsFit_of_unset, fun q h => ?_,
    ofConfig?_eq hlevels capacity scope now⟩
  obtain ⟨hlength, hranking, hcapacity⟩ := levels_of_ofConfig h
  refine ⟨hlength, hranking, hcapacity, ?_⟩
  have hshare := Nat.mul_div_le capacity c.levels
  rw [hcapacity, ← Nat.mul_max_mul_left, Nat.mul_one]
  omega

/-- A thousand and two hundred levels, with weights and thresholds left unset and places for fewer calls. -/
def manyLevels : FairConfig Float := { FairConfig.default with levels := 1200 }

/-- The settings of many levels agree, although the powers of two grow too large for machine integers and for
doubles, and each level has one place. -/
theorem ofConfig_accepts_of_manyLevels :
    manyLevels.levels ≤ 2 ^ 31 ∧ manyLevels.Consistent ∧
      ∃ q : FairQueue (DecayRanking Float) Call, ofConfig 1000 "ipc" manyLevels 0 = .ok q ∧
        q.levels.length = 1200 ∧ q.capacity = 1200 := by
  have hlevels : manyLevels.levels ≤ 2 ^ 31 := by decide
  obtain ⟨haccepts, hweights, hthresholds, hbuilt, -⟩ :=
    ofConfig_accepts (E := Call) manyLevels hlevels 1000 "ipc" 0
  have hconsistent : manyLevels.Consistent :=
    ⟨by decide, hweights rfl, hthresholds rfl (by decide), by decide +kernel, by decide +kernel⟩
  obtain ⟨q, hq⟩ := haccepts.mpr hconsistent
  obtain ⟨hlength, -, hcapacity, -⟩ := hbuilt q hq
  exact ⟨hlevels, hconsistent, q, hq, hlength, hcapacity⟩

end FairQueue

end Allotment
