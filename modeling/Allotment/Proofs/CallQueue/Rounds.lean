import Allotment.CallQueue.RoundRobin
import Mathlib.Algebra.BigOperators.Group.List.Basic
import Mathlib.Algebra.GroupWithZero.Nat
import Mathlib.Data.List.GetD
import Mathlib.Data.Nat.Count
import Mathlib.Logic.Function.Iterate
import Mathlib.Order.Interval.Finset.Nat

/-!
# Rounds of turns

A round is as many calls as the turns of all levels last together. Whose turn it is depends only on how many
calls of the present round have gone by: the turns of a round follow one another without a gap. So any calls
that are as many as a round has, wherever they begin, serve every level for exactly as long as its turn lasts.
-/

namespace Allotment.RoundRobin

variable {weights : List ℕ} {r : RoundRobin} {k level : ℕ}

/-! ## The parts of a round -/

/-- How many calls the turn of each level lasts. -/
def turns (weights : List ℕ) : List ℕ := weights.map (max · 1)

/-- How many calls of a round come before the turn of a level. -/
def before (weights : List ℕ) (level : ℕ) : ℕ := ((turns weights).take level).sum

/-- How many calls a round has. -/
def round (weights : List ℕ) : ℕ := (turns weights).sum

@[simp] theorem length_turns (weights : List ℕ) : (turns weights).length = weights.length :=
  List.length_map _

/-- The first turn is at the beginning of a round. -/
@[simp] theorem before_zero (weights : List ℕ) : before weights 0 = 0 := rfl

/-- A turn is followed by the next one. -/
theorem before_succ (h : level < weights.length) :
    before weights (level + 1) = before weights level + max weights[level] 1 := by
  unfold before
  rw [List.sum_take_succ _ _ (by simpa using h)]
  simp [turns]

/-- After the last turn the round is over. -/
theorem before_length (weights : List ℕ) : before weights weights.length = round weights := by
  unfold before round
  rw [List.take_of_length_le (length_turns weights).le]

/-- Later levels have their turns later. -/
theorem before_mono {first second : ℕ} (h : first ≤ second) :
    before weights first ≤ before weights second := by
  induction second, h using Nat.le_induction with
  | base => exact le_rfl
  | succ second _ ih =>
    refine ih.trans ?_
    unfold before
    rw [← List.take_append_drop second ((turns weights).take (second + 1)), List.sum_append,
      List.take_take, Nat.min_eq_left (Nat.le_succ second)]
    exact Nat.le_add_right _ _

/-- All turns are within the round. -/
theorem before_le_round (h : level ≤ weights.length) : before weights level ≤ round weights := by
  rw [← before_length]
  exact before_mono h

/-- No two levels have a call of the round in common. -/
theorem eq_of_before {other : ℕ} (hlevel : before weights level ≤ k)
    (hlevel' : k < before weights (level + 1)) (hother : before weights other ≤ k)
    (hother' : k < before weights (other + 1)) : other = level := by
  by_contra hne
  obtain hless | hgreater := Nat.lt_or_gt_of_ne hne
  · have hends : before weights (other + 1) ≤ before weights level := before_mono hless
    omega
  · have hends : before weights (level + 1) ≤ before weights other := before_mono hgreater
    omega

/-! ## The state after a number of calls -/

/-- The state after a number of calls. -/
def after (r : RoundRobin) (k : ℕ) : RoundRobin := (fun s => s.next.2)^[k] r

/-- The level of a call after a number of others. -/
def levelAt (weights : List ℕ) (k : ℕ) : ℕ := ((new weights).after k).next.1

/-- One call more. -/
theorem after_succ (r : RoundRobin) (k : ℕ) : r.after (k + 1) = (r.after k).next.2 :=
  Function.iterate_succ_apply' _ k r

/-- Whether a state is the one after a number of calls: these calls, with those that are left of the turn, are
whole rounds and the turns up to the present one. -/
structure StandsAt (weights : List ℕ) (k : ℕ) (r : RoundRobin) : Prop where
  weights_eq : r.weights = weights
  current : r.current < weights.length
  credit : max r.credit 1 ≤ max weights[r.current] 1
  place : ∃ rounds, k + max r.credit 1 = rounds * round weights + before weights (r.current + 1)

/-- At the beginning no call has been made. -/
theorem standsAt_new (h : weights ≠ []) : StandsAt weights 0 (new weights) := by
  have hlength : 0 < weights.length := List.length_pos_of_ne_nil h
  have hcredit : (new weights).credit = weights[0] := by
    simp [new, List.head?_eq_getElem?, hlength]
  refine ⟨rfl, hlength, ?_, 0, ?_⟩
  · rw [hcredit]
    exact le_rfl
  · rw [hcredit]
    change 0 + _ = 0 * _ + before weights (0 + 1)
    rw [before_succ hlength, before_zero, Nat.zero_mul, Nat.zero_add, Nat.zero_add]

/-- A call takes one from the turn, and the next turn begins when nothing is left of it. -/
theorem StandsAt.next (h : StandsAt weights k r) : StandsAt weights (k + 1) r.next.2 := by
  obtain ⟨rfl, hcurrent, hcredit, rounds, hplace⟩ := h
  have hnonempty : r.weights ≠ [] := List.ne_nil_of_length_pos (by omega)
  unfold RoundRobin.next
  by_cases hlast : r.credit - 1 = 0
  · -- The turn is over, so the calls up to now end with it.
    rw [if_pos ⟨hlast, hnonempty⟩]
    have hfollowing : (r.current + 1) % r.levels < r.weights.length :=
      Nat.mod_lt _ (Nat.zero_lt_of_lt hcurrent)
    have hweight : r.weights.getD ((r.current + 1) % r.levels) 0 =
        r.weights[(r.current + 1) % r.levels] := List.getD_eq_getElem _ _ hfollowing
    refine ⟨rfl, hfollowing, ?_, ?_⟩
    · simp only [hweight, le_refl]
    · simp only [hweight, before_succ hfollowing]
      by_cases hround : r.current + 1 = r.weights.length
      · refine ⟨rounds + 1, ?_⟩
        rw [hround, before_length] at hplace
        have hfirst : (r.current + 1) % r.levels = 0 := by rw [levels, hround, Nat.mod_self]
        simp only [hfirst, before_zero, Nat.succ_mul]
        omega
      · refine ⟨rounds, ?_⟩
        have hsame : (r.current + 1) % r.levels = r.current + 1 :=
          Nat.mod_eq_of_lt (by rw [levels]; omega)
        simp only [hsame]
        omega
  · rw [if_neg fun hboth => hlast hboth.1]
    refine ⟨rfl, hcurrent, ?_, rounds, ?_⟩ <;> simp only <;> omega

/-- Calls lead to the state after so many of them. -/
theorem standsAt_after (h : weights ≠ []) (k : ℕ) : StandsAt weights k ((new weights).after k) := by
  induction k with
  | zero => exact standsAt_new h
  | succ k ih =>
    rw [after_succ]
    exact ih.next

/-- The level whose turn it is after a number of calls is the one in whose turn the last of them would be,
counted from the beginning of the round. -/
theorem StandsAt.bounds (h : StandsAt weights k r) :
    before weights r.current ≤ k % round weights ∧ k % round weights < before weights (r.current + 1) := by
  obtain ⟨-, hcurrent, hcredit, rounds, hplace⟩ := h
  have hwithin := before_le_round (Nat.succ_le_of_lt hcurrent)
  rw [before_succ hcurrent] at hplace hwithin ⊢
  have hmod : k % round weights = k - rounds * round weights := by
    have hsplit : k = k - rounds * round weights + rounds * round weights := by omega
    rw [hsplit, Nat.add_mul_mod_self_right, Nat.mod_eq_of_lt (by omega)]
    omega
  omega

/-- The turn that is served lies in the round where the call does. -/
theorem levelAt_bounds (h : weights ≠ []) (k : ℕ) :
    levelAt weights k < weights.length ∧ before weights (levelAt weights k) ≤ k % round weights ∧
      k % round weights < before weights (levelAt weights k + 1) := by
  have hstands := standsAt_after h k
  rw [levelAt, next_fst]
  exact ⟨hstands.current, hstands.bounds⟩

/-- A level is served by the calls that are in its part of a round. -/
theorem levelAt_eq_iff (h : weights ≠ []) (k level : ℕ) :
    levelAt weights k = level ↔
      before weights level ≤ k % round weights ∧ k % round weights < before weights (level + 1) := by
  obtain ⟨-, hfrom, hto⟩ := levelAt_bounds h k
  constructor
  · rintro rfl
    exact ⟨hfrom, hto⟩
  · rintro ⟨hlevel, hlevel'⟩
    exact eq_of_before hlevel hlevel' hfrom hto

/-! ## Any calls as many as a round has -/

/-- The calls after some others are those of the state that they lead to. -/
theorem drop_take (r : RoundRobin) (k n : ℕ) : (r.take (k + n)).drop k = (r.after k).take n := by
  induction k generalizing r with
  | zero => rw [Nat.zero_add, List.drop_zero]; rfl
  | succ k ih => rw [Nat.succ_add, take, List.drop_succ_cons, ih, after, after, Function.iterate_succ_apply]

/-- The calls of a state that others have led to serve the levels that come after those. -/
theorem take_after (weights : List ℕ) (k n : ℕ) :
    ((new weights).after k).take n = (List.range n).map fun j => levelAt weights (k + j) := by
  induction n generalizing k with
  | zero => rfl
  | succ n ih =>
    have hone := after_succ (new weights) k
    rw [take, ← hone, ih, List.range_succ_eq_map, List.map_cons, List.map_map]
    congr 1
    apply List.map_congr_left
    intro j _
    rw [Function.comp_apply, Nat.succ_eq_add_one, Nat.add_right_comm, Nat.add_assoc]

/-- How often a level is served among calls. -/
theorem count_take_after (weights : List ℕ) (k n level : ℕ) :
    (((new weights).after k).take n).count level =
      Nat.count (fun j => levelAt weights (k + j) = level) n := by
  rw [take_after]
  induction n with
  | zero => rfl
  | succ n ih =>
    rw [List.range_succ, List.map_append, List.count_append, ih, Nat.count_succ, List.map_singleton,
      List.count_singleton]
    simp

/-- In the first round a level is served for as long as its turn lasts. -/
theorem count_round (h : weights ≠ []) (hlevel : level < weights.length) :
    Nat.count (fun j => levelAt weights j = level) (round weights) = max weights[level] 1 := by
  have hwithin : before weights (level + 1) ≤ round weights := before_le_round hlevel
  have hturn : (Finset.range (round weights)).filter (fun j => levelAt weights j = level) =
      Finset.Ico (before weights level) (before weights (level + 1)) := by
    ext j
    rw [Finset.mem_filter, Finset.mem_range, Finset.mem_Ico, levelAt_eq_iff h]
    constructor
    · rintro ⟨hj, hturn⟩
      rwa [Nat.mod_eq_of_lt hj] at hturn
    · intro hturn
      have hj : j < round weights := by omega
      rw [Nat.mod_eq_of_lt hj]
      exact ⟨hj, hturn⟩
  rw [Nat.count_eq_card_filter_range, hturn, Nat.card_Ico, before_succ hlevel, Nat.add_sub_cancel_left]

/-- Rounds are alike. -/
theorem levelAt_add_round (h : weights ≠ []) (k : ℕ) :
    levelAt weights (round weights + k) = levelAt weights k := by
  rw [levelAt_eq_iff h, Nat.add_mod_left]
  exact (levelAt_bounds h k).2

/-- Among as many calls as a round has, wherever they begin, a level is served for as long as its turn
lasts. -/
theorem count_window (h : weights ≠ []) (hlevel : level < weights.length) (k : ℕ) :
    Nat.count (fun j => levelAt weights (k + j) = level) (round weights) = max weights[level] 1 := by
  -- The calls up to the end of the window are `k` calls and the window, or a round and `k` calls.
  have hcalls := Nat.count_add (p := fun j => levelAt weights j = level) k (round weights)
  have hrounds := Nat.count_add (p := fun j => levelAt weights j = level) (round weights) k
  simp only [levelAt_add_round h, count_round h hlevel] at hrounds
  rw [Nat.add_comm] at hrounds
  omega

/-- Calls that do not serve a level are no more than the turns of the others in a round. -/
theorem count_eq_zero_le (h : weights ≠ []) (hlevel : level < weights.length) {k n : ℕ}
    (hskipped : Nat.count (fun j => levelAt weights (k + j) = level) n = 0) :
    n + max weights[level] 1 ≤ round weights := by
  have hwindow := count_window h hlevel k
  by_contra hlong
  obtain hless | hmore := Nat.lt_or_ge n (round weights)
  · have hsplit := Nat.count_add (p := fun j => levelAt weights (k + j) = level) n (round weights - n)
    have hrest := Nat.count_le (p := fun j => levelAt weights (k + (n + j)) = level)
      (n := round weights - n)
    rw [Nat.add_sub_cancel' hless.le] at hsplit
    omega
  · have hmono := Nat.count_monotone (fun j => levelAt weights (k + j) = level) hmore
    have hturn : 0 < max weights[level] 1 := by omega
    omega

/-- Weighted round robin is periodic, and every turn lasts as long as its weight says, with one call for a
weight of zero. After `k` calls, whatever their number, the level is served in whose part of the round
`k % round weights` lies, and this is one level only. So as many calls as a round has, wherever they begin,
serve each level exactly for its turn, and calls in a row that all pass over a level are no more than the
turns of the others. -/
theorem take_periodic (h : weights ≠ []) :
    (∀ k n, k < n → ∃ level, ((new weights).take n)[k]? = some level ∧ level < weights.length ∧
      before weights level ≤ k % round weights ∧ k % round weights < before weights (level + 1) ∧
      ∀ other, before weights other ≤ k % round weights →
        k % round weights < before weights (other + 1) → other = level) ∧
    (∀ start level, (hlevel : level < weights.length) →
      (((new weights).take (start + round weights)).drop start).count level = max weights[level] 1) ∧
    ∀ start n level, (hlevel : level < weights.length) →
      level ∉ ((new weights).take (start + n)).drop start → n ≤ round weights - max weights[level] 1 := by
  refine ⟨?_, ?_, ?_⟩
  · intro k n hk
    obtain ⟨hlevel, hfrom, hto⟩ := levelAt_bounds h k
    refine ⟨levelAt weights k, ?_, hlevel, hfrom, hto, fun other => eq_of_before hfrom hto⟩
    have htake := take_after weights 0 n
    rw [after, Function.iterate_zero_apply] at htake
    rw [htake]
    simp [hk]
  · intro start level hlevel
    rw [drop_take, count_take_after, count_window h hlevel]
  · intro start n level hlevel hskipped
    rw [drop_take, ← List.count_eq_zero, count_take_after] at hskipped
    exact Nat.le_sub_of_add_le (count_eq_zero_le h hlevel hskipped)

/-- With weights three, zero and two a round has six calls, and any six in a row serve the middle level
once, here those from the fifth call on. -/
theorem take_periodic_of_zeroWeight :
    [3, 0, 2] ≠ [] ∧ (new [3, 0, 2]).take 10 = [0, 0, 0, 1, 2, 2, 0, 0, 0, 1] ∧
      (((new [3, 0, 2]).take (4 + round [3, 0, 2])).drop 4).count 1 = 1 := by
  have hweights : [3, 0, 2] ≠ [] := by decide
  obtain ⟨-, hwindow, -⟩ := take_periodic hweights
  exact ⟨hweights, by decide, hwindow 4 1 (by decide)⟩

end Allotment.RoundRobin
