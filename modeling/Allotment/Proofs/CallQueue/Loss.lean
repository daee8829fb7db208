import Allotment.Proofs.CallQueue.Orderly
import Mathlib.Algebra.BigOperators.Group.Finset.Piecewise
import Mathlib.Data.Multiset.OrderedMonoid

/-!
# What a swap can lose

An insertion that began before a swap may reach the old queue after the swap has looked at it for the
last time. Nobody takes from that queue any more, apart from those who had turned to it before, so
the element may never be delivered. When nothing is in progress, the elements that came in and were
not taken out are all where calls are taken from if and only if every other queue has given out
again what came into it after the last look.
-/

namespace Allotment

section History

variable {E : Type}

/-- The elements that an event brings into any queue. -/
def Event.came : Event E → Multiset E
  | .opened _ held => held
  | .inserted _ _ e => {e}
  | _ => 0

/-- The elements that an event takes out of any queue. -/
def Event.left : Event E → Multiset E
  | .removed _ _ e => {e}
  | _ => 0

/-- All elements that ever came in. -/
def arrivals (log : List (Event E)) : Multiset E := (log.map Event.came).sum

/-- All elements that were ever taken out. -/
def departures (log : List (Event E)) : Multiset E := (log.map Event.left).sum

/-- Whether an event is a look at a queue. -/
def Event.looksAt (queue : ℕ) : Event E → Bool
  | .looked old _ _ => old = queue
  | _ => false

/-- What happened since the last look at a queue. -/
def sinceLook (queue : ℕ) (log : List (Event E)) : List (Event E) :=
  log.takeWhile fun ev => !ev.looksAt queue

/-- Whether an event concerns no queue beyond a number of them. -/
def Event.Within (n : ℕ) : Event E → Prop
  | .opened q _ | .inserted _ q _ | .removed _ q _ => q < n
  | _ => True

/-- A sum with one summand that counts is that summand. -/
theorem sum_range_ite {M : Type} [AddCommMonoid M] {n q : ℕ} (h : q < n) (x : M) :
    ∑ k ∈ Finset.range n, (if q = k then x else 0) = x := by
  rw [Finset.sum_ite_eq (Finset.range n) q fun _ => x]
  simp [h]

/-- What a history brings about altogether is what it brings about for one queue after another, if
each of its events does. -/
theorem sum_map_eq_sum_range {n : ℕ} (total : Event E → Multiset E) (part : ℕ → Event E → Multiset E)
    (log : List (Event E)) (h : ∀ ev ∈ log, total ev = ∑ k ∈ Finset.range n, part k ev) :
    (log.map total).sum = ∑ k ∈ Finset.range n, (log.map (part k)).sum := by
  induction log with
  | nil => simp
  | cons ev rest ih =>
    have hrest := ih fun ev' hev' => h ev' (List.mem_cons_of_mem ev hev')
    simp only [List.map_cons, List.sum_cons, Finset.sum_add_distrib]
    rw [hrest, h ev List.mem_cons_self]

/-- What came in altogether is what came into the queues one by one. -/
theorem arrivals_eq_sum {n : ℕ} {log : List (Event E)} (h : ∀ ev ∈ log, ev.Within n) :
    arrivals log = ∑ k ∈ Finset.range n, entered k log := by
  apply sum_map_eq_sum_range Event.came Event.cameTo log
  intro ev hev
  have hwithin := h ev hev
  cases ev with
  | opened q held => exact (sum_range_ite hwithin held).symm
  | inserted party q e => exact (sum_range_ite hwithin ({e} : Multiset E)).symm
  | _ => simp [Event.came, Event.cameTo]

/-- What was taken out altogether is what was taken out of the queues one by one. -/
theorem departures_eq_sum {n : ℕ} {log : List (Event E)} (h : ∀ ev ∈ log, ev.Within n) :
    departures log = ∑ k ∈ Finset.range n, departed k log := by
  apply sum_map_eq_sum_range Event.left Event.leftFrom log
  intro ev hev
  have hwithin := h ev hev
  cases ev with
  | removed party q e => exact (sum_range_ite hwithin ({e} : Multiset E)).symm
  | _ => simp [Event.left, Event.leftFrom]

/-- After the last look at a drained queue there is only what happened since. -/
theorem Drained.balanced_iff {log : List (Event E)} {old new : ℕ} (h : Drained log old new) :
    Balanced old log ↔ Balanced old (sinceLook old log) := by
  obtain ⟨after, upTo, rfl, hafter, hbalanced⟩ := h
  have hsince : sinceLook old (after ++ .looked old new true :: upTo) = after := by
    unfold sinceLook
    rw [List.takeWhile_append_of_pos]
    · simp [Event.looksAt]
    · intro ev hev
      cases ev with
      | looked q next empty =>
        have hne : q ≠ old := hafter (q, next, empty) (List.mem_filterMap.mpr ⟨_, hev, rfl⟩)
        simpa [Event.looksAt] using hne
      | _ => rfl
  rw [hsince]
  simp only [Balanced, entered_append, entered_cons, departed_append, departed_cons, Event.cameTo,
    Event.leftFrom, zero_add] at hbalanced ⊢
  rw [hbalanced]
  exact add_left_inj _

end History

section Step

variable {F E : Type} [Scalar F] [Ranked E] {m m' : Switchboard F E} {now place : ℕ}
  {task task' : Task F E}

/-- A place that holds a queue is one of the places of queues. -/
theorem Switchboard.insertion?_within {k : ℕ} {e : E} {ev : Event E}
    (h : m.insertion? now place k e = some ev) : ev.Within m.queues.length := by
  obtain ⟨q, hk, hq⟩ := Option.bind_eq_some_iff.mp h
  split at hq <;> cases hq
  exact (List.getElem?_eq_some_iff.mp hk).1

omit [Scalar F] [Ranked E] in
/-- An element is taken out of a place that holds a queue. -/
theorem Switchboard.removal?_within {k : ℕ} {ev : Event E}
    (h : m.removal? place k = some ev) : ev.Within m.queues.length := by
  obtain ⟨e, htaken, rfl⟩ := Option.map_eq_some_iff.mp h
  unfold takeFrom at htaken
  split at htaken
  · contradiction
  · rename_i q hk
    exact (List.getElem?_eq_some_iff.mp hk).1

/-- Queues are never given up, and a step concerns only queues that are there after it. -/
theorem Switchboard.within_step? (h : m.step? now task = some (m', task')) :
    m.queues.length ≤ m'.queues.length ∧
      ∀ ev ∈ m.event? now place task, ev.Within m'.queues.length := by
  by_cases hin : task.InSwap
  · cases swapEffect_of_step? h hin place with
    | quiet hqueues htake hev =>
      rw [hqueues]
      refine ⟨Nat.le_refl _, ?_⟩
      intro ev hcase
      have hwatch := hev ev hcase
      cases ev with
      | turned | looked => trivial
      | _ => exact absurd hwatch not_false
    | opened q hqueues htake hev =>
      rw [hqueues, hev]
      exact ⟨by simp, by simp [Event.Within]⟩
    | moved new hqueues htake hev =>
      rw [hqueues, hev]
      exact ⟨Nat.le_refl _, by simp [Event.Within]⟩
  · have heffect := effect_of_step? h hin
    have hlength : m.queues.length = m'.queues.length := by
      rcases heffect.outside with houtside | ⟨c, -, -, rfl, -⟩
      · exact houtside.length.symm
      · rfl
    refine ⟨Nat.le_of_eq hlength, ?_⟩
    intro ev hev
    rw [← hlength]
    cases heffect with
    | quiet hkeeps hqueues hevent hout hsource => simp [hevent] at hev
    | insertion k e hkeeps hqueues hevent hout hsource =>
      rw [hevent] at hev
      exact insertion?_within hev
    | removal k hkeeps hqueues hevent hfrom hout hsource =>
      rw [hevent] at hev
      exact removal?_within hev
    | lock c htask hfree hboard htask' =>
      subst htask
      simp [event?] at hev

end Step

namespace Traffic

variable {F E : Type} [Scalar F] [Ranked E] {log : List (Event E)} {t t' : Traffic F E}

/-- The history of a run concerns only queues that were built. -/
theorem Run.within (h : Run log t) : ∀ ev ∈ log, ev.Within t.board.queues.length := by
  induction h with
  | start registry now c m hmade =>
    obtain ⟨q, hqueues, -⟩ := Switchboard.of_ofConfig hmade
    simp [Event.Within, hqueues]
  | step log t t' ev hrun hstep ih =>
    cases hstep with
    | begin | shutDown => exact ih
    | advance m m' tasks now place task task' hplace hadvance =>
      obtain ⟨hlength, hnew⟩ := Switchboard.within_step? hadvance
      intro ev hev
      rcases List.mem_append.mp hev with hnow | hbefore
      · exact hnew ev (by simpa using hnow)
      · have hold := ih ev hbefore
        cases ev with
        | opened | inserted | removed => exact Nat.lt_of_lt_of_le hold hlength
        | _ => trivial

/-- What came in is what was taken out and what the queues hold together. -/
theorem Run.arrivals_eq (h : Run log t) :
    arrivals log = departures log +
      ∑ k ∈ Finset.range t.board.queues.length, t.board.contentsAt k := by
  rw [arrivals_eq_sum h.within, departures_eq_sum h.within, ← Finset.sum_add_distrib]
  apply Finset.sum_congr rfl
  intro k _
  rw [← h.accounts k, add_comm]

/-- At rest, a queue from which nothing is taken any more was drained before it was left. -/
theorem Run.drained_of_atRest (h : Run log t) (hrest : t.AtRest) (hopen : t.board.shutdown = false)
    {k : ℕ} (hk : k < t.board.queues.length) (hother : k ≠ t.board.takeRef) :
    ∃ new, Drained log k new := by
  have horderly := h.orderly
  have hout : ∀ (i : ℕ) (a : Task F E), t.tasks[i]? = some a → ¬ a.InSwap := by
    intro i a ha
    obtain ⟨o, rfl⟩ := hrest a (List.mem_of_getElem? ha)
    exact not_false
  rcases horderly.retired k hk with htake | hput | ⟨i, a, ha, hbuilt⟩ | hdrained
  · exact absurd htake hother
  · exact absurd (hput.trans (horderly.settled hout hopen).symm) hother
  · exact absurd (Task.inSwap_of_built? hbuilt) (hout i a ha)
  · exact hdrained

/-- While nothing is in progress and the switchboard is not shut down, the elements that came in and
were not taken out are all in the queue from which calls are taken if and only if every other queue
has given out again what came into it after the last look at it. -/
theorem Run.nothing_lost_iff (h : Run log t) (hrest : t.AtRest) (hopen : t.board.shutdown = false) :
    arrivals log = departures log + t.board.contentsAt t.board.takeRef ↔
      ∀ k < t.board.queues.length, k ≠ t.board.takeRef → Balanced k (sinceLook k log) := by
  have htake : t.board.takeRef ∈ Finset.range t.board.queues.length :=
    Finset.mem_range.mpr (h.orderly.known _ h.orderly.serving)
  rw [h.arrivals_eq, add_right_inj, ← Finset.add_sum_erase _ _ htake, add_eq_left]
  have hiff : ∀ k < t.board.queues.length, k ≠ t.board.takeRef →
      (t.board.contentsAt k = 0 ↔ Balanced k (sinceLook k log)) := by
    intro k hk hother
    obtain ⟨new, hdrained⟩ := h.drained_of_atRest hrest hopen hk hother
    rw [← hdrained.balanced_iff, Balanced, ← h.accounts k, add_eq_right]
  rw [Finset.sum_eq_zero_iff]
  constructor
  · intro hempty k hk hother
    exact (hiff k hk hother).mp (hempty k (Finset.mem_erase.mpr ⟨hother, Finset.mem_range.mpr hk⟩))
  · intro hbalanced k hk
    obtain ⟨hother, hrange⟩ := Finset.mem_erase.mp hk
    have hlt := Finset.mem_range.mp hrange
    exact (hiff k hlt hother).mpr (hbalanced k hlt hother)

/-- A run in which an insertion is blocked while a swap begins, and goes on when the swap has looked
at the old queue for the last time. -/
def lateRun : List (Event String) × Traffic Float String :=
  narrowRun [.put "first", .put "second", .swap narrow, .take]
    [0, 0, 0, 1, 1, 2, 2, 2, 2, 2, 2, 2, 3, 3, 3, 2, 2, 2, 2, 1]

/-- The late insertion belongs to a run. -/
theorem run_lateRun : Run lateRun.1 lateRun.2 :=
  run_narrowRun [.put "first", .put "second", .swap narrow, .take] (by simp [Task.IsFirst])
    [0, 0, 0, 1, 1, 2, 2, 2, 2, 2, 2, 2, 3, 3, 3, 2, 2, 2, 2, 1]

/-- After the late insertion nothing is in progress. -/
theorem atRest_lateRun : lateRun.2.AtRest := by
  have htasks : lateRun.2.tasks =
      [.finished .done, .finished .done, .finished .done, .finished (.taken "first")] := by rfl
  intro task htask
  simp only [htasks, List.mem_cons, List.not_mem_nil, or_false] at htask
  rcases htask with rfl | rfl | rfl | rfl <;> exact ⟨_, rfl⟩

/-- Two elements came in. -/
theorem arrivals_lateRun : arrivals lateRun.1 = {"second", "first"} := by rfl

/-- One element was taken out, and nothing is left where calls are taken from. -/
theorem departures_lateRun :
    departures lateRun.1 + lateRun.2.board.contentsAt lateRun.2.board.takeRef = {"first"} := by rfl

/-- After the late insertion some queue has not given out again what came into it. -/
theorem nothing_lost_iff_late : ∃ k, k ≠ lateRun.2.board.takeRef ∧
    ¬ Balanced k (sinceLook k lateRun.1) := by
  have hiff := run_lateRun.nothing_lost_iff atRest_lateRun (by rfl)
  rw [arrivals_lateRun, departures_lateRun] at hiff
  by_contra hall
  push Not at hall
  have heq := hiff.mpr fun k _ hother => hall k hother
  exact absurd heq (by decide)

/-- An insertion that is blocked while a swap begins may be lost: every operation has ended and the
switchboard is not shut down, yet an element that came in was neither taken out nor is it where calls
are taken from. -/
theorem late_insertion_lost :
    ∃ (log : List (Event String)) (t : Traffic Float String), Run log t ∧ t.AtRest ∧
      t.board.shutdown = false ∧
      arrivals log ≠ departures log + t.board.contentsAt t.board.takeRef := by
  refine ⟨lateRun.1, lateRun.2, run_lateRun, atRest_lateRun, by rfl, ?_⟩
  rw [arrivals_lateRun, departures_lateRun]
  decide

end Traffic

end Allotment
