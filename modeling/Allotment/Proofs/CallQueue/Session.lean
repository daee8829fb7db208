import Allotment.Proofs.CallQueue.Lanes
import Mathlib.Logic.Function.Iterate

/-!
# A fair queue used by one party at a time

As long as no two operations overlap, the levels of a fair queue are bounded lists that take turns in
being drained. An insertion appends an element to the list of its level, and is refused by a full list
even if there is space on others. A poll takes the head of the first list that holds something, counted
in a circle from the one whose turn it is, and moves the turn on by one; a poll of a queue without
elements is not counted as a turn.

Nobody makes space while an insertion waits here: all that can happen in the meantime is that time
passes.
-/

namespace Allotment

/-- One more labelled element is one more under its label. -/
theorem map_snd_filter_append {α β : Type} [DecidableEq α] (xs : List (α × β)) (a b : α) (x : β) :
    ((xs ++ [(a, x)]).filter fun p => p.1 = b).map Prod.snd =
      (xs.filter fun p => p.1 = b).map Prod.snd ++ if a = b then [x] else [] := by
  by_cases h : a = b <;> simp [h]

namespace FairQueue

/-- An operation on a fair queue: an offer at a time, an insertion that may wait between the choice of a
level and the charge, or a poll. -/
inductive Request (E : Type) where
  | offer (now : ℕ) (e : E)
  | put (chosen charged : ℕ) (e : E)
  | poll

/-- A fair queue, and what passed through it so far: the elements that were accepted, with their levels,
and those that were handed out, with the levels that were served. -/
structure Session (σ E : Type) where
  queue : FairQueue σ E
  accepted : List (ℕ × E)
  returned : List (Option ℕ × E)

namespace Session

variable {σ E : Type}

/-- The elements that came to a level. -/
def cameTo (s : Session σ E) (level : ℕ) : List E :=
  (s.accepted.filter fun p => p.1 = level).map Prod.snd

/-- The elements that were handed out from a level. -/
def leftFrom (s : Session σ E) (level : ℕ) : List E :=
  (s.returned.filter fun p => p.1 = some level).map Prod.snd

variable [Ranking σ] [Ranked E]

/-- The session after an element was accepted at the level chosen for it at a time, or refused. -/
def inserted (s : Session σ E) (chosen : ℕ) (e : E) :
    FairQueue σ E × Except E Unit → Session σ E
  | (q, .ok ()) =>
    let level := (s.queue.levelFor chosen e).1
    { s with queue := q, accepted := s.accepted ++ [(level, Ranked.atLevel e level)] }
  | (q, .error _) => { s with queue := q }

/-- The session after one more operation. -/
def next (s : Session σ E) : Request E → Session σ E
  | .offer now e => s.inserted now e (s.queue.offer now e)
  | .put chosen charged e => s.inserted chosen e (s.queue.put chosen charged e)
  | .poll =>
    match s.queue.poll with
    | (q, some e) => { s with queue := q, returned := s.returned ++ [(s.queue.served?, e)] }
    | (q, none) => { s with queue := q }

/-- What holds between operations on a queue of some weights whose levels have a bound. -/
structure Orderly (weights : List ℕ) (bound : ℕ) (s : Session σ E) : Prop where
  capacities : s.queue.levels.map Fifo.capacity = List.replicate weights.length bound
  tokens : s.queue.tokens = s.queue.size
  turn : s.queue.turn = (fun r : RoundRobin => r.next.2)^[s.returned.length] (RoundRobin.new weights)
  order : ∀ level, s.cameTo level = s.leftFrom level ++ s.queue.itemsAt level
  contents : (s.accepted.map Prod.snd : Multiset E) = s.returned.map Prod.snd + s.queue.contents

end Session

variable {σ E : Type}

/-- The levels have the capacities they had. -/
theorem capacities_withItems (q : FairQueue σ E) (level : ℕ) (items : List E) :
    (q.withItems level items).levels.map Fifo.capacity = q.levels.map Fifo.capacity := by
  apply List.ext_getElem?
  intro k
  simp only [withItems, List.getElem?_map, List.getElem?_modify]
  cases q.levels[k]? with
  | none => rfl
  | some l => by_cases hk : level = k <;> simp [hk]

/-- A queue without elements whose first level has the turn. -/
def unused (scope : String) (weights : List ℕ) (bound : ℕ) (ranking : σ) : FairQueue σ E :=
  ⟨scope, weights.map fun _ => Fifo.new kind bound, ranking, RoundRobin.new weights, 0⟩

theorem itemsAt_unused (scope : String) (weights : List ℕ) (bound : ℕ) (ranking : σ) (level : ℕ) :
    (unused scope weights bound ranking : FairQueue σ E).itemsAt level = [] := by
  rw [itemsAt, unused, List.getElem?_map]
  cases weights[level]? <;> rfl

/-- A queue is made from positive weights, one for each level of the ranking. -/
theorem new_eq [Ranking σ] (capacity : ℕ) (scope : String) {weights : List ℕ} {ranking : σ}
    (hweights : weights ≠ []) (hpositive : ∀ w ∈ weights, 0 < w)
    (hlevels : Ranking.levels ranking = weights.length) :
    new (E := E) capacity scope weights ranking =
      .ok (unused scope weights (max (capacity / weights.length) 1) ranking) := by
  have hzero : weights.contains 0 = false := by
    rw [List.contains_eq_mem, decide_eq_false_iff_not]
    exact fun h => Nat.lt_irrefl 0 (hpositive 0 h)
  simp only [new, if_neg hweights, hzero, Bool.false_eq_true, if_false, hlevels, ne_eq,
    not_true_eq_false]
  rfl

/-- A queue without elements is an orderly beginning. -/
theorem orderly_unused [Ranking σ] (scope : String) (weights : List ℕ) {bound : ℕ} (hbound : 1 ≤ bound)
    (ranking : σ) :
    Session.Orderly weights bound (⟨unused scope weights bound ranking, [], []⟩ : Session σ E) := by
  have hsize : (unused scope weights bound ranking : FairQueue σ E).size = 0 :=
    size_eq_zero_iff.mpr fun level _ => itemsAt_unused scope weights bound ranking level
  refine ⟨?_, hsize.symm, rfl, fun level => (itemsAt_unused _ _ _ _ level).symm, ?_⟩
  · simp [unused, Fifo.new, Nat.max_eq_left hbound]
  · rw [← card_contents, Multiset.card_eq_zero] at hsize
    rw [hsize]
    rfl

section Steps

variable [Ranking σ] [Ranked E] {weights : List ℕ} {bound : ℕ} {s : Session σ E}

omit [Ranking σ] [Ranked E] in
/-- There is a level for each weight. -/
theorem Session.Orderly.length (h : s.Orderly weights bound) :
    s.queue.levels.length = weights.length := by
  simpa using congrArg List.length h.capacities

/-- The level of an element is one of the queue, and its capacity is the bound. -/
theorem Session.Orderly.level (h : s.Orderly weights bound) (hweights : weights ≠ []) (now : ℕ)
    (e : E) : ∃ l, s.queue.levels[(s.queue.levelFor now e).1]? = some l ∧ l.capacity = bound := by
  have hlt : (s.queue.levelFor now e).1 < s.queue.levels.length :=
    levelFor_lt (h.length ▸ List.length_pos_iff.mpr hweights) now e
  refine ⟨_, List.getElem?_eq_getElem hlt, ?_⟩
  apply List.eq_of_mem_replicate (n := weights.length)
  rw [← h.capacities]
  exact List.mem_map_of_mem (List.getElem_mem hlt)

/-- An insertion keeps a session orderly. -/
theorem Session.Orderly.put (h : s.Orderly weights bound) (hweights : weights ≠ [])
    (chosen charged : ℕ) (e : E) : (s.next (.put chosen charged e)).Orderly weights bound := by
  obtain ⟨l, hl, -⟩ := h.level hweights chosen e
  have hput := put_eq hl charged
  by_cases hroom : l.items.length < l.capacity
  · simp only [if_pos hroom] at hput
    simp only [next, hput, inserted]
    have hplaced := (placeAt?_eq hl (Ranked.atLevel e (s.queue.levelFor chosen e).1)).trans
      (if_pos hroom)
    refine ⟨(capacities_withItems _ _ _).trans h.capacities, ?_, h.turn, fun k => ?_, ?_⟩
    · exact (congrArg (· + 1) h.tokens).trans (of_placeAt? hplaced).1.symm
    · have hitems := itemsAt_withItems (List.getElem?_eq_some_iff.mp hl).1
        (l.items ++ [Ranked.atLevel e (s.queue.levelFor chosen e).1]) k
      refine (map_snd_filter_append _ _ k _).trans ?_
      change s.cameTo k ++ _ = s.leftFrom k ++ (s.queue.withItems _ _).itemsAt k
      rw [h.order, hitems, List.append_assoc]
      by_cases hk : (s.queue.levelFor chosen e).1 = k
      · rw [if_pos hk, if_pos hk, ← hk, itemsAt_of_getElem? hl]
      · rw [if_neg hk, if_neg hk, List.append_nil]
    · have hcontents := contents_of_placeAt? hplaced
      change _ = _ + (s.queue.withItems _ _).contents
      rw [hcontents, ← add_assoc, ← h.contents, List.map_append, ← Multiset.coe_add]
      rfl
  · simp only [if_neg hroom] at hput
    simp only [next, hput, inserted]
    exact ⟨h.capacities, h.tokens, h.turn, h.order, h.contents⟩

omit [Ranking σ] [Ranked E] in
/-- A poll finds nothing in an empty queue, and else the oldest element of the level that is served. -/
theorem Session.Orderly.poll_cases (h : s.Orderly weights bound) :
    (s.queue.size = 0 ∧ s.queue.poll = (s.queue, none)) ∨
    ∃ n level e rest, s.queue.tokens = n + 1 ∧ s.queue.served? = some level ∧
      s.queue.itemsAt level = e :: rest ∧
      s.queue.poll =
        ({ s.queue.withItems level rest with turn := s.queue.turn.next.2, tokens := n }, some e) := by
  rcases Nat.eq_zero_or_pos s.queue.size with hsize | hsize
  · exact .inl ⟨hsize, poll_of_tokens (h.tokens.trans hsize)⟩
  · obtain ⟨level, hserved⟩ := exists_served? hsize
    obtain ⟨e, rest, hitems⟩ := exists_itemsAt_of_served? hserved
    obtain ⟨n, hn⟩ := Nat.exists_eq_succ_of_ne_zero (Nat.ne_of_gt (h.tokens ▸ hsize))
    exact .inr ⟨n, level, e, rest, hn, hserved, hitems, poll_of_served? hn hserved hitems⟩

/-- A poll keeps a session orderly. -/
theorem Session.Orderly.poll (h : s.Orderly weights bound) : (s.next .poll).Orderly weights bound := by
  rcases h.poll_cases with ⟨-, hpoll⟩ | ⟨n, level, e, rest, htokens, hserved, hitems, hpoll⟩
  · simp only [next, hpoll]
    exact ⟨h.capacities, h.tokens, h.turn, h.order, h.contents⟩
  · simp only [next, hpoll]
    have hlevel : level < s.queue.levels.length := lt_of_itemsAt_ne_nil (hitems ▸ List.cons_ne_nil e rest)
    have htaken : s.queue.takeAt? level = some (e, s.queue.withItems level rest) := by
      rw [takeAt?_eq, hitems]
    refine ⟨(capacities_withItems _ _ _).trans h.capacities, ?_, ?_, fun k => ?_, ?_⟩
    · have hsize := (of_takeAt? htaken).1
      have hbefore := h.tokens
      change n = (s.queue.withItems level rest).size
      omega
    · rw [List.length_append, List.length_singleton, Function.iterate_succ_apply', ← h.turn]
    · have hleft := map_snd_filter_append s.returned s.queue.served? (some k) e
      change s.cameTo k = Session.leftFrom ⟨_, _, _⟩ k ++ (s.queue.withItems level rest).itemsAt k
      rw [Session.leftFrom, hleft, itemsAt_withItems hlevel, h.order, hserved, List.append_assoc]
      by_cases hk : level = k
      · subst hk
        simp [Session.leftFrom, hitems]
      · simp [Session.leftFrom, hk]
    · have hcontents := contents_of_takeAt? htaken
      change _ = _ + (s.queue.withItems level rest).contents
      rw [h.contents, hcontents, List.map_append, ← Multiset.coe_add]
      change _ = _ + {e} + _
      abel

/-- Every operation keeps a session orderly. -/
theorem Session.Orderly.next (h : s.Orderly weights bound) (hweights : weights ≠ [])
    (request : Request E) : (s.next request).Orderly weights bound := by
  cases request with
  | offer now e => exact h.put hweights now now e
  | put chosen charged e => exact h.put hweights chosen charged e
  | poll => exact h.poll

/-- Any number of operations keep a session orderly. -/
theorem Session.Orderly.foldl (h : s.Orderly weights bound) (hweights : weights ≠ [])
    (requests : List (Request E)) : (requests.foldl Session.next s).Orderly weights bound := by
  induction requests generalizing s with
  | nil => exact h
  | cons request rest ih => exact ih (h.next hweights request)

/-- An insertion succeeds exactly if its level has space, and a refused one changes the ranking only. -/
theorem Session.Orderly.put_answers (h : s.Orderly weights bound) (hweights : weights ≠ [])
    (chosen charged : ℕ) (e : E) :
    let q := s.queue
    let level := (q.levelFor chosen e).1
    level < weights.length ∧
      ((q.put chosen charged e).2 = .ok () ↔ (q.itemsAt level).length < bound) ∧
      ∀ e', (q.put chosen charged e).2 = .error e' →
        e' = Ranked.atLevel e level ∧ (q.put chosen charged e).1.levels = q.levels ∧
          (q.put chosen charged e).1.tokens = q.tokens ∧
          (q.put chosen charged e).1.turn = q.turn := by
  obtain ⟨l, hl, hbound⟩ := h.level hweights chosen e
  have hput := put_eq hl charged
  have hlt := h.length ▸ (List.getElem?_eq_some_iff.mp hl).1
  refine ⟨hlt, ?_⟩
  rw [itemsAt_of_getElem? hl, ← hbound]
  by_cases hroom : l.items.length < l.capacity
  · simp only [if_pos hroom] at hput
    rw [hput]
    exact ⟨iff_of_true rfl hroom, nofun⟩
  · simp only [if_neg hroom] at hput
    rw [hput]
    exact ⟨iff_of_false nofun hroom, fun e' he' => ⟨(Except.error.inj he').symm, rfl, rfl, rfl⟩⟩

omit [Ranking σ] [Ranked E] in
/-- A poll finds nothing exactly if nothing is queued, and then changes nothing. -/
theorem Session.Orderly.poll_eq_none (h : s.Orderly weights bound) :
    (s.queue.poll.2 = none ↔ ∀ level < weights.length, s.queue.itemsAt level = []) ∧
      (s.queue.poll.2 = none → s.queue.poll.1 = s.queue) := by
  rw [← h.length, ← size_eq_zero_iff]
  rcases h.poll_cases with ⟨hsize, hpoll⟩ | ⟨n, level, e, rest, htokens, -, -, hpoll⟩
  · simp [hpoll, hsize]
  · have hsize := h.tokens
    rw [hpoll]
    simp only [reduceCtorEq, false_iff, false_implies, and_true]
    omega

omit [Ranking σ] [Ranked E] in
/-- A poll that finds an element takes it from the level that is served. -/
theorem Session.Orderly.poll_eq_some (h : s.Orderly weights bound) {e : E}
    (hfound : s.queue.poll.2 = some e) :
    ∃ level rest, s.queue.served? = some level ∧ s.queue.itemsAt level = e :: rest ∧
      s.queue.poll.1.levels = (s.queue.withItems level rest).levels ∧
      s.queue.poll.1.turn = s.queue.turn.next.2 ∧ s.queue.poll.1.tokens + 1 = s.queue.tokens := by
  rcases h.poll_cases with ⟨-, hpoll⟩ | ⟨n, level, first, rest, htokens, hserved, hitems, hpoll⟩
  · simp [hpoll] at hfound
  · rw [hpoll] at hfound ⊢
    obtain rfl : first = e := by simpa using hfound
    exact ⟨level, rest, hserved, hitems, rfl, rfl, htokens.symm⟩

/-- The session of a queue after some operations. -/
def after (q : FairQueue σ E) (requests : List (Request E)) : Session σ E :=
  requests.foldl Session.next ⟨q, [], []⟩

/-- A new queue with positive weights is drained in weighted round robin, whatever operations are used
on it one after another. An insertion succeeds exactly if its level holds fewer elements than its part
of the capacity, and a refused one leaves levels, tokens and the turn alone. A poll finds nothing
exactly if nothing is queued, and then changes nothing; otherwise it takes the oldest element of the
first level in the circle that has one, and the turn moves on by one. What came to a level is what left
it and then what is on it, in this order, and no element is handed out that was not accepted, or more
often than that. -/
theorem new_drained_in_turn (capacity : ℕ) (scope : String) {weights : List ℕ} (ranking : σ)
    (hweights : weights ≠ []) (hpositive : ∀ w ∈ weights, 0 < w)
    (hlevels : Ranking.levels ranking = weights.length) :
    ∃ start : FairQueue σ E, new capacity scope weights ranking = .ok start ∧
      ∀ requests : List (Request E),
        let s := start.after requests
        let q := s.queue
        (∀ (chosen charged : ℕ) (e : E),
          let level := (q.levelFor chosen e).1
          level < weights.length ∧
          ((q.put chosen charged e).2 = .ok () ↔
            (q.itemsAt level).length < max 1 (capacity / weights.length)) ∧
          ∀ e', (q.put chosen charged e).2 = .error e' →
            e' = Ranked.atLevel e level ∧ (q.put chosen charged e).1.levels = q.levels ∧
              (q.put chosen charged e).1.tokens = q.tokens ∧
              (q.put chosen charged e).1.turn = q.turn) ∧
        (∀ now e, q.offer now e = q.put now now e) ∧
        (q.poll.2 = none ↔ ∀ level < weights.length, q.itemsAt level = []) ∧
        (q.poll.2 = none → q.poll.1 = q) ∧
        (∀ e, q.poll.2 = some e → ∃ level rest,
          q.served? = some level ∧ q.itemsAt level = e :: rest ∧
            q.poll.1.levels = (q.withItems level rest).levels ∧ q.poll.1.turn = q.turn.next.2 ∧
            q.poll.1.tokens + 1 = q.tokens) ∧
        (∀ level, s.cameTo level = s.leftFrom level ++ q.itemsAt level) ∧
        (s.accepted.map Prod.snd : Multiset E) = s.returned.map Prod.snd + q.contents ∧
        q.turn = (fun r : RoundRobin => r.next.2)^[s.returned.length] (RoundRobin.new weights) ∧
        q.tokens = q.size := by
  refine ⟨_, new_eq capacity scope hweights hpositive hlevels, fun requests => ?_⟩
  rw [Nat.max_comm 1]
  have horderly : Session.Orderly weights (max (capacity / weights.length) 1)
      ((unused scope weights (max (capacity / weights.length) 1) ranking).after requests) :=
    (orderly_unused scope weights (Nat.le_max_right _ _) ranking).foldl hweights requests
  obtain ⟨hempty, hunchanged⟩ := horderly.poll_eq_none
  exact ⟨horderly.put_answers hweights, fun _ _ => offer_eq_put _ _ _, hempty, hunchanged,
    fun _ => horderly.poll_eq_some, horderly.order, horderly.contents, horderly.turn, horderly.tokens⟩

/-- Where each of two levels has space for one call, a second call of a caller is refused while the first
is queued. -/
theorem second_refused_of_twoLevels :
    ([2, 1] : List ℕ) ≠ [] ∧ (∀ w ∈ ([2, 1] : List ℕ), 0 < w) ∧
      Ranking.levels (⟨2⟩ : UniformRanking) = ([2, 1] : List ℕ).length ∧
      ∃ start : FairQueue UniformRanking Call, new 2 "calls" [2, 1] ⟨2⟩ = .ok start ∧
        ((start.after [.put 0 0 ⟨1, "user", "call", none⟩]).queue.offer 0
          ⟨2, "user", "call", none⟩).2 ≠ .ok () := by
  have hpositive : ∀ w ∈ ([2, 1] : List ℕ), 0 < w := by decide
  obtain ⟨start, hmade, hall⟩ := new_drained_in_turn (E := Call) 2 "calls"
    (⟨2⟩ : UniformRanking) (List.cons_ne_nil 2 [1]) hpositive rfl
  refine ⟨List.cons_ne_nil 2 [1], hpositive, rfl, start, hmade, ?_⟩
  obtain ⟨hput, hoffer, -⟩ := hall [.put 0 0 ⟨1, "user", "call", none⟩]
  rw [hoffer]
  intro hok
  have hroom := (hput 0 0 _).2.1.mp hok
  cases hmade
  exact absurd hroom (by decide)

end Steps

end FairQueue

end Allotment
