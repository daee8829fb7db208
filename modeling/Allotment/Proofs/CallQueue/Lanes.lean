import Allotment.Proofs.CallQueue.Levels
import Mathlib.Algebra.Order.BigOperators.Group.List
import Mathlib.Data.List.Rotate
import Mathlib.Data.Multiset.OrderedMonoid

/-!
# Levels as lists

The steps of an operation on a fair queue, said in terms of the lists of elements on its levels. An
element is placed at the end of the list of its level if the list is not full. A search takes the head of
the first list that holds something, counted in a circle from where it starts.

An insertion may wait for space, so its level is chosen at one time and its caller charged at another.
-/

namespace Allotment

/-- The first element of a list on which a function is defined is the one that a search finds. -/
theorem findSome?_eq_bind_find? {α β : Type} (f : α → Option β) (xs : List α) :
    xs.findSome? f = (xs.find? fun x => (f x).isSome).bind f := by
  induction xs with
  | nil => rfl
  | cons x rest ih => cases hx : f x <;> simp [hx, ih]

/-- Counting in a circle from a start is a rotation. -/
theorem map_add_mod_range (n start : ℕ) :
    ((List.range n).map fun k => (start + k) % n) = (List.range n).rotate start := by
  refine List.ext_getElem (by simp) ?_
  intro k hk hk'
  simp [List.getElem_rotate, Nat.add_comm]

/-- An element with a level chosen for it, unless it remembers one. -/
def Ranked.atLevel {E : Type} [Ranked E] (e : E) (level : ℕ) : E :=
  if (Ranked.level? e).isSome then e else Ranked.withLevel e level

namespace FairQueue

variable {σ E : Type}

/-- The elements on a level, the oldest first. -/
def itemsAt (q : FairQueue σ E) (level : ℕ) : List E := q.levels[level]?.elim [] Fifo.items

/-- The levels in a circle, beginning with the one whose turn it is. -/
def circle (q : FairQueue σ E) : List ℕ := (List.range q.levels.length).rotate q.turn.current

/-- The first level in the circle that holds an element. -/
def served? (q : FairQueue σ E) : Option ℕ := q.circle.find? fun level => !(q.itemsAt level).isEmpty

/-- The queue with other elements on a level. -/
def withItems (q : FairQueue σ E) (level : ℕ) (items : List E) : FairQueue σ E :=
  { q with levels := q.levels.modify level fun l => { l with items := items } }

/-! ## Elements on a level -/

theorem itemsAt_of_getElem? {q : FairQueue σ E} {level : ℕ} {l : Fifo E}
    (h : q.levels[level]? = some l) : q.itemsAt level = l.items := by
  simp [itemsAt, h]

/-- Other elements on a level change nothing on other levels. -/
theorem itemsAt_withItems {q : FairQueue σ E} {level : ℕ} (hlevel : level < q.levels.length)
    (items : List E) (k : ℕ) :
    (q.withItems level items).itemsAt k = if level = k then items else q.itemsAt k := by
  unfold itemsAt withItems
  rw [List.getElem?_modify]
  by_cases hk : level = k
  · subst hk
    simp [hlevel]
  · simp [hk]

/-- Elements on a level outside the queue are none. -/
theorem lt_of_itemsAt_ne_nil {q : FairQueue σ E} {level : ℕ} (h : q.itemsAt level ≠ []) :
    level < q.levels.length := by
  by_contra hlevel
  exact h (by simp [itemsAt, List.getElem?_eq_none (Nat.le_of_not_lt hlevel)])

theorem holdsAt_iff {q : FairQueue σ E} {level : ℕ} : q.HoldsAt level ↔ q.itemsAt level ≠ [] := by
  unfold HoldsAt itemsAt
  cases q.levels[level]? <;> simp

/-- A queue is empty exactly if no level holds anything. -/
theorem size_eq_zero_iff {q : FairQueue σ E} :
    q.size = 0 ↔ ∀ level < q.levels.length, q.itemsAt level = [] := by
  constructor
  · intro h level hlevel
    rw [← card_contents, Multiset.card_eq_zero] at h
    have hle : ((q.levels[level]).items : Multiset E) ≤ q.contents :=
      List.le_sum_of_mem (List.mem_map_of_mem (List.getElem_mem hlevel))
    rw [h, Multiset.le_zero, Multiset.coe_eq_zero] at hle
    rw [itemsAt_of_getElem? (List.getElem?_eq_getElem hlevel), hle]
  · intro h
    by_contra hsize
    obtain ⟨level, hlevel, hheld⟩ := exists_holdsAt (Nat.pos_of_ne_zero hsize)
    exact holdsAt_iff.mp hheld (h level hlevel)

/-! ## Steps -/

/-- An element has a place on a level exactly if the level is not full. -/
theorem placeAt?_eq {q : FairQueue σ E} {level : ℕ} {l : Fifo E} (h : q.levels[level]? = some l)
    (e : E) : q.placeAt? level e =
      if l.items.length < l.capacity then some (q.withItems level (l.items ++ [e])) else none := by
  unfold placeAt? withItems
  rw [h]
  by_cases hroom : l.items.length < l.capacity
  · have hset : q.levels.modify level (fun l' => { l' with items := l.items ++ [e] }) =
        q.levels.set level { l with items := l.items ++ [e] } := by
      rw [List.modify_eq_set_getElem?, h]
      rfl
    simp [Fifo.push?, Fifo.isFull, hroom, hset]
  · simp [Fifo.push?, Fifo.isFull, hroom, Nat.le_of_not_lt hroom]

/-- The oldest element of a level is taken, if there is one. -/
theorem takeAt?_eq (q : FairQueue σ E) (level : ℕ) : q.takeAt? level =
    match q.itemsAt level with
    | [] => none
    | e :: rest => some (e, q.withItems level rest) := by
  unfold takeAt? itemsAt withItems
  cases h : q.levels[level]? with
  | none => rfl
  | some l =>
    cases hitems : l.items with
    | nil => simp [Fifo.pop?, hitems]
    | cons e rest =>
      have hset : q.levels.modify level (fun l' => { l' with items := rest }) =
          q.levels.set level { l with items := rest } := by
        rw [List.modify_eq_set_getElem?, h]
        rfl
      simp [Fifo.pop?, hitems, hset]

/-- A search takes from the first level that holds something. -/
theorem scan?_eq (q : FairQueue σ E) (start : ℕ) : q.scan? start =
    (((List.range q.levels.length).rotate start).find? fun level =>
      !(q.itemsAt level).isEmpty).bind q.takeAt? := by
  have hfound : (fun level => (q.takeAt? level).isSome) = fun level => !(q.itemsAt level).isEmpty := by
    funext level
    rw [takeAt?_eq]
    cases q.itemsAt level <;> rfl
  rw [scan?, ← map_add_mod_range, ← hfound, ← findSome?_eq_bind_find?, List.findSome?_map]
  rfl

/-- A level that is served holds something. -/
theorem exists_itemsAt_of_served? {q : FairQueue σ E} {level : ℕ} (h : q.served? = some level) :
    ∃ e rest, q.itemsAt level = e :: rest := by
  have hheld := List.find?_some h
  exact List.exists_cons_of_ne_nil (by simpa using hheld)

/-- A queue that is not empty serves a level. -/
theorem exists_served? {q : FairQueue σ E} (h : 0 < q.size) : ∃ level, q.served? = some level := by
  obtain ⟨level, hlevel, hheld⟩ := exists_holdsAt h
  rw [← Option.isSome_iff_exists, served?, List.find?_isSome]
  exact ⟨level, by simpa [circle] using hlevel, by simpa using holdsAt_iff.mp hheld⟩

/-- A poll without a token changes nothing. -/
theorem poll_of_tokens {q : FairQueue σ E} (h : q.tokens = 0) : q.poll = (q, none) := by
  rw [poll, h, pollTokens]

/-- A poll with a token takes the oldest element of the level that is served. -/
theorem poll_of_served? {q : FairQueue σ E} {n level : ℕ} {e : E} {rest : List E}
    (htokens : q.tokens = n + 1) (hserved : q.served? = some level)
    (hitems : q.itemsAt level = e :: rest) :
    q.poll = ({ q.withItems level rest with turn := q.turn.next.2, tokens := n }, some e) := by
  have hspent : q.spendToken? = some { q with tokens := n } :=
    spendToken?_eq_some_iff.mpr ⟨n, htokens, rfl⟩
  have hscan : ({ q with turn := q.turn.next.2, tokens := n } : FairQueue σ E).scan? q.turn.next.1 =
      some (e, { q.withItems level rest with turn := q.turn.next.2, tokens := n }) := by
    rw [scan?_eq, RoundRobin.next_fst]
    change q.served?.bind _ = _
    rw [hserved, Option.bind_some, takeAt?_eq]
    change (match q.itemsAt level with | [] => none | e :: rest => some (e, _)) = _
    rw [hitems]
    rfl
  rw [poll, htokens, pollTokens, hspent]
  simp only [nextStart, hscan]

/-- A poll keeps the number of levels and does not concern the ranking. -/
theorem poll_keeps (q : FairQueue σ E) :
    q.poll.1.levels.length = q.levels.length ∧ q.poll.1.ranking = q.ranking := by
  have hkeeps : ∀ (n : ℕ) (q : FairQueue σ E),
      (q.pollTokens n).1.levels.length = q.levels.length ∧ (q.pollTokens n).1.ranking = q.ranking := by
    intro n
    induction n with
    | zero => exact fun q => ⟨rfl, rfl⟩
    | succ n ih =>
      intro q
      unfold pollTokens
      cases hspend : q.spendToken? with
      | none => exact ⟨rfl, rfl⟩
      | some spent =>
        obtain ⟨k, -, rfl⟩ := spendToken?_eq_some_iff.mp hspend
        cases hscan : ({ q with tokens := k } : FairQueue σ E).nextStart.2.scan?
            ({ q with tokens := k } : FairQueue σ E).nextStart.1 with
        | none =>
          simp only [hscan]
          exact ih _
        | some found =>
          simp only [hscan]
          obtain ⟨offset, -, htaken⟩ := List.exists_of_findSome?_eq_some hscan
          rw [takeAt?_eq] at htaken
          split at htaken
          · contradiction
          · cases htaken
            exact ⟨List.length_modify _ _ _, rfl⟩
  exact hkeeps q.tokens q

section Insertion

variable [Ranking σ] [Ranked E]

/-- The level of an element is the one it remembers, or else the one that the ranking answers, as far as
there are levels. -/
theorem levelFor_level (q : FairQueue σ E) (now : ℕ) (e : E) :
    (q.levelFor now e).1 =
      min ((Ranked.level? e).getD (Ranking.rank q.ranking now (Ranked.caller e)).1)
        (q.levels.length - 1) := by
  unfold levelFor
  split <;> rename_i hlevel <;> rw [hlevel] <;> rfl

/-- Choosing a level changes the ranking only. -/
theorem levelFor_queue (q : FairQueue σ E) (now : ℕ) (e : E) :
    (q.levelFor now e).2.2 = { q with ranking := (q.levelFor now e).2.2.ranking } := by
  unfold levelFor
  split <;> rfl

/-- The element remembers the level from now on, unless it remembered one before. -/
theorem levelFor_element (q : FairQueue σ E) (now : ℕ) (e : E) :
    (q.levelFor now e).2.1 = Ranked.atLevel e (q.levelFor now e).1 := by
  unfold levelFor Ranked.atLevel
  cases Ranked.level? e <;> rfl

/-- A chosen level is one of the queue. -/
theorem levelFor_lt {q : FairQueue σ E} (h : 0 < q.levels.length) (now : ℕ) (e : E) :
    (q.levelFor now e).1 < q.levels.length := by
  rw [levelFor_level]
  omega

/-- Inserts an element whose level is chosen at one time and whose caller is charged at another, or
hands it back with its level. -/
def put (q : FairQueue σ E) (chosen charged : ℕ) (e : E) : FairQueue σ E × Except E Unit :=
  let (level, e, q) := q.levelFor chosen e
  match q.placeAt? level e with
  | some q => (q.accept charged (Ranked.caller e), .ok ())
  | none => (q, .error e)

/-- An offer does both at once. -/
theorem offer_eq_put (q : FairQueue σ E) (now : ℕ) (e : E) : q.offer now e = q.put now now e := rfl

/-- An element goes to the end of its level if there is space, and its caller is charged then. -/
theorem put_eq {q : FairQueue σ E} {chosen : ℕ} {e : E} {l : Fifo E}
    (h : q.levels[(q.levelFor chosen e).1]? = some l) (charged : ℕ) :
    q.put chosen charged e =
      let level := (q.levelFor chosen e).1
      let kept := Ranked.atLevel e level
      let looked := { q with ranking := (q.levelFor chosen e).2.2.ranking }
      if l.items.length < l.capacity then
        ((looked.withItems level (l.items ++ [kept])).accept charged (Ranked.caller kept), .ok ())
      else (looked, .error kept) := by
  have hl : (q.levelFor chosen e).2.2.levels[(q.levelFor chosen e).1]? = some l := by
    rw [levels_levelFor]
    exact h
  simp only [put, placeAt?_eq hl]
  rw [levelFor_element, levelFor_queue]
  by_cases hroom : l.items.length < l.capacity <;> simp [hroom]

end Insertion

end FairQueue

end Allotment
