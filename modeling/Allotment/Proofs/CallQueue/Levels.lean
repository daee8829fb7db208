import Allotment.Proofs.CallQueue.Contents

/-!
# Levels of a fair queue

What the steps of an operation on a fair queue do to its size, to its tokens and to the levels on
which there are elements. A search that looks at every level finds an element if there is one, so a
poll that has a token to spend hands out an element.
-/

namespace Allotment.FairQueue

variable {σ E : Type}

/-- Whether there is an element on a level. -/
def HoldsAt (q : FairQueue σ E) (level : ℕ) : Prop :=
  ∃ l, q.levels[level]? = some l ∧ l.items ≠ []

/-- Whether a queue has the levels of another, and elements wherever that has. -/
structure Grows (q q' : FairQueue σ E) : Prop where
  length : q'.levels.length = q.levels.length
  holdsAt : ∀ level, q.HoldsAt level → q'.HoldsAt level

/-- A queue with the same levels has elements on the same levels. -/
theorem Grows.of_levels {q q' : FairQueue σ E} (h : q'.levels = q.levels) : q.Grows q' := by
  refine ⟨by rw [h], ?_⟩
  intro level hlevel
  unfold HoldsAt
  rw [h]
  exact hlevel

/-- A queue without elements on its levels is empty. -/
theorem size_eq_zero {q : FairQueue σ E} (h : ∀ l ∈ q.levels, l.items = []) : q.size = 0 := by
  rw [← card_contents, Multiset.card_eq_zero]
  apply sum_map_eq_zero
  intro l hl
  rw [h l hl]
  rfl

/-- A queue that is not empty has an element on some level. -/
theorem exists_holdsAt {q : FairQueue σ E} (h : 0 < q.size) :
    ∃ level < q.levels.length, q.HoldsAt level := by
  by_contra hnone
  push Not at hnone
  have hempty : q.size = 0 := by
    apply size_eq_zero
    intro l hl
    obtain ⟨level, hlevel⟩ := List.mem_iff_getElem?.mp hl
    have hbound : level < q.levels.length := (List.getElem?_eq_some_iff.mp hlevel).1
    by_contra hitems
    exact hnone level hbound ⟨l, hlevel, hitems⟩
  omega

/-- A new fair queue holds nothing and has no tokens. -/
theorem of_new [Ranking σ] {capacity : ℕ} {scope : String} {weights : List ℕ} {ranking : σ}
    {q : FairQueue σ E} (h : new capacity scope weights ranking = .ok q) :
    q.size = 0 ∧ q.tokens = 0 := by
  unfold new at h
  simp only at h
  split at h
  · contradiction
  · split at h
    · contradiction
    · split at h
      · contradiction
      · cases h
        refine ⟨size_eq_zero ?_, rfl⟩
        intro l hl
        obtain ⟨weight, -, rfl⟩ := List.mem_map.mp hl
        rfl

/-- Choosing a level takes no token. -/
theorem tokens_levelFor [Ranking σ] [Ranked E] (q : FairQueue σ E) (now : ℕ) (e : E) :
    (q.levelFor now e).2.2.tokens = q.tokens := by
  unfold levelFor
  split <;> rfl

/-- Spending a token takes one away and touches nothing else. -/
theorem spendToken?_eq_some_iff {q q' : FairQueue σ E} :
    q.spendToken? = some q' ↔ ∃ n, q.tokens = n + 1 ∧ q' = { q with tokens := n } := by
  unfold spendToken?
  cases q.tokens <;> simp [eq_comm]

/-- Placing an element leaves no token, and no level loses its elements. -/
theorem of_placeAt? {q q' : FairQueue σ E} {level : ℕ} {e : E} (h : q.placeAt? level e = some q') :
    q'.size = q.size + 1 ∧ q'.tokens = q.tokens ∧ q.Grows q' := by
  refine ⟨?_, ?_⟩
  · rw [← card_contents, contents_of_placeAt? h, Multiset.card_add, card_contents,
      Multiset.card_singleton]
  · unfold placeAt? at h
    split at h
    · contradiction
    · rename_i l hlevel
      obtain ⟨l', hpush, rfl⟩ := Option.map_eq_some_iff.mp h
      refine ⟨rfl, List.length_set, ?_⟩
      rintro k ⟨held, hheld, hitems⟩
      by_cases hk : level = k
      · subst hk
        have hbound := (List.getElem?_eq_some_iff.mp hlevel).1
        refine ⟨l', List.getElem?_set_self hbound, ?_⟩
        rw [Fifo.items_of_push? hpush]
        simp
      · exact ⟨held, by rw [List.getElem?_set_ne hk]; exact hheld, hitems⟩

/-- Taking an element takes no token. -/
theorem of_takeAt? {q q' : FairQueue σ E} {level : ℕ} {e : E} (h : q.takeAt? level = some (e, q')) :
    q.size = q'.size + 1 ∧ q'.tokens = q.tokens := by
  refine ⟨?_, ?_⟩
  · rw [← card_contents, contents_of_takeAt? h, Multiset.card_add, card_contents,
      Multiset.card_singleton]
  · unfold takeAt? at h
    split at h
    · contradiction
    · obtain ⟨popped, -, hq⟩ := Option.map_eq_some_iff.mp h
      cases hq
      rfl

/-- Nothing is found on a level only if there is nothing on it. -/
theorem not_holdsAt_of_takeAt? {q : FairQueue σ E} {level : ℕ} (h : q.takeAt? level = none) :
    ¬ q.HoldsAt level := by
  rintro ⟨l, hlevel, hitems⟩
  obtain ⟨e, rest, hl⟩ := List.exists_cons_of_ne_nil hitems
  unfold takeAt? at h
  rw [hlevel] at h
  simp [Fifo.pop?, hl] at h

/-- Every level is at some distance from the start of a search. -/
theorem exists_offset (start : ℕ) {level n : ℕ} (h : level < n) :
    ∃ k < n, (start + k) % n = level := by
  refine ⟨(level + (n - start % n)) % n, Nat.mod_lt _ (Nat.zero_lt_of_lt h), ?_⟩
  have hrest : start % n < n := Nat.mod_lt start (Nat.zero_lt_of_lt h)
  have hwhole := Nat.div_add_mod start n
  have hsum : start + (level + (n - start % n)) = level + n * (start / n + 1) := by
    rw [Nat.mul_add]
    omega
  rw [Nat.add_mod_mod, hsum, Nat.add_mul_mod_self_left, Nat.mod_eq_of_lt h]

/-- A search that looks at every level finds an element if there is one. -/
theorem exists_scan? {q : FairQueue σ E} (h : 0 < q.size) (start : ℕ) :
    ∃ found, q.scan? start = some found := by
  obtain ⟨level, hlevel, hheld⟩ := exists_holdsAt h
  obtain ⟨k, hk, heq⟩ := exists_offset start hlevel
  rw [← Option.isSome_iff_exists, scan?, List.findSome?_isSome_iff]
  refine ⟨k, List.mem_range.mpr hk, ?_⟩
  rw [heq, Option.isSome_iff_ne_none]
  exact fun hnone => not_holdsAt_of_takeAt? hnone hheld

/-- A poll hands out an element if there is a token and an element. -/
theorem exists_poll {q : FairQueue σ E} (htokens : 0 < q.tokens) (hsize : 0 < q.size) :
    ∃ e, q.poll.2 = some e := by
  obtain ⟨n, hn⟩ := Nat.exists_eq_succ_of_ne_zero (Nat.ne_of_gt htokens)
  have hspent : q.spendToken? = some { q with tokens := n } :=
    spendToken?_eq_some_iff.mpr ⟨n, hn, rfl⟩
  have hsize' : 0 < ({ q with tokens := n } : FairQueue σ E).nextStart.2.size := hsize
  obtain ⟨found, hfound⟩ := exists_scan? hsize' ({ q with tokens := n } : FairQueue σ E).nextStart.1
  refine ⟨found.1, ?_⟩
  rw [poll, hn, pollTokens, hspent]
  simp only [hfound]

end Allotment.FairQueue
