import Allotment.Proofs.CallQueue.Effect

/-!
# Accounting for elements

What a queue holds is what came into it and was not taken out. This is so at every moment of every
run and for every queue that was ever built, whatever the tasks do and however far they have come.
-/

namespace Allotment

namespace Switchboard

variable {F E : Type}

/-- The contents depend only on the queues. -/
theorem contentsAt_congr {m m' : Switchboard F E} (h : m'.queues = m.queues) (queue : ℕ) :
    m'.contentsAt queue = m.contentsAt queue := by
  unfold contentsAt
  rw [h]

/-- Putting another queue in a place changes the contents of that place only. -/
theorem contentsAt_set {m : Switchboard F E} {k : ℕ} {q : CallQueue F E} (hk : m.queues[k]? = some q)
    (q' : CallQueue F E) (queue : ℕ) :
    ({ m with queues := m.queues.set k q' } : Switchboard F E).contentsAt queue =
      if k = queue then q'.contents else m.contentsAt queue := by
  have hlt : k < m.queues.length := (List.getElem?_eq_some_iff.mp hk).1
  unfold contentsAt
  by_cases hqueue : k = queue
  · subst hqueue
    simp [hlt]
  · simp [hqueue]

/-- A queue put behind the others changes the contents of the new place only. -/
theorem contentsAt_append {m m' : Switchboard F E} {q : CallQueue F E}
    (h : m'.queues = m.queues ++ [q]) (queue : ℕ) :
    m'.contentsAt queue =
      m.contentsAt queue + if m.queues.length = queue then q.contents else 0 := by
  unfold contentsAt
  rw [h]
  rcases Nat.lt_trichotomy queue m.queues.length with hlt | heq | hgt
  · simp [List.getElem?_append_left hlt, Nat.ne_of_gt hlt]
  · subst heq
    simp
  · have hnone : (m.queues ++ [q])[queue]? = none := by
      apply List.getElem?_eq_none
      rw [List.length_append, List.length_singleton]
      exact hgt
    have hnone' : m.queues[queue]? = none := List.getElem?_eq_none (Nat.le_of_lt hgt)
    simp [hnone, hnone', Nat.ne_of_lt hgt]

/-- A queue that looks empty holds nothing. -/
theorem sizeOf_eq_zero_iff (m : Switchboard F E) (queue : ℕ) :
    m.sizeOf queue = 0 ↔ m.contentsAt queue = 0 := by
  unfold sizeOf contentsAt
  cases m.queues[queue]? with
  | none => simp
  | some q => simpa using q.size_eq_zero_iff

/-- Taking removes from a queue exactly the element that the history lists. -/
theorem contentsAt_takeFrom (m : Switchboard F E) (place k queue : ℕ) :
    (m.takeFrom k).1.contentsAt queue + departed queue (m.removal? place k).toList =
      m.contentsAt queue := by
  unfold removal? takeFrom
  cases hk : m.queues[k]? with
  | none => simp [departed]
  | some q =>
    have hheld : m.contentsAt k = q.contents := by simp [contentsAt, hk]
    have hpoll := q.contents_poll
    simp only
    rw [contentsAt_set hk]
    by_cases hqueue : k = queue
    · subst hqueue
      rw [if_pos rfl, hheld, hpoll]
      cases q.poll.2 <;> simp [departed, Event.leftFrom]
    · cases q.poll.2 <;> simp [departed, Event.leftFrom, hqueue]

variable [Scalar F] [Ranked E]

/-- An offer adds to a queue exactly the element that the history lists. -/
theorem contentsAt_offerTo (m : Switchboard F E) (now place k : ℕ) (e : E) (queue : ℕ) :
    (m.offerTo now k e).1.contentsAt queue =
      m.contentsAt queue + entered queue (m.insertion? now place k e).toList := by
  unfold insertion? offerTo
  cases hk : m.queues[k]? with
  | none => simp [entered]
  | some q =>
    have hheld : m.contentsAt k = q.contents := by simp [contentsAt, hk]
    simp only [Option.bind_some]
    rw [contentsAt_set hk]
    cases hoffer : (q.offer now e).2 with
    | ok u =>
      have hadded := CallQueue.contents_offer_ok hoffer
      by_cases hqueue : k = queue
      · subst hqueue
        simp [entered, Event.cameTo, hadded, hheld]
      · simp [entered, Event.cameTo, hqueue]
    | error e' =>
      have hsame := CallQueue.contents_offer_error hoffer
      by_cases hqueue : k = queue
      · subst hqueue
        simp [entered, hsame, hheld]
      · simp [entered, hqueue]

/-- An attempt to insert takes nothing out of a queue. -/
theorem departed_insertion? (m : Switchboard F E) (now place k : ℕ) (e : E) (queue : ℕ) :
    departed queue (m.insertion? now place k e).toList = 0 := by
  unfold insertion?
  cases m.queues[k]? with
  | none => simp [departed]
  | some q =>
    simp only [Option.bind_some]
    split <;> simp [departed, Event.leftFrom]

omit [Scalar F] [Ranked E] in
/-- Looking for an element brings nothing into a queue. -/
theorem entered_removal? (m : Switchboard F E) (place k queue : ℕ) :
    entered queue (m.removal? place k).toList = 0 := by
  unfold removal?
  cases (m.takeFrom k).2 <;> simp [entered, Event.cameTo]

/-- A step inside a swap moves no element; a new queue comes with what it holds. -/
theorem contentsAt_of_inSwap {m m' : Switchboard F E} {now : ℕ} {task task' : Task F E}
    (h : m.step? now task = some (m', task')) (hin : task.InSwap) (place queue : ℕ) :
    departed queue (m.event? now place task).toList = 0 ∧
      m'.contentsAt queue = m.contentsAt queue + entered queue (m.event? now place task).toList := by
  cases swapEffect_of_step? h hin place with
  | quiet hqueues htake hev =>
    rw [contentsAt_congr hqueues]
    cases hcase : m.event? now place task with
    | none => simp [entered, departed]
    | some ev =>
      have hwatch := hev ev hcase
      cases ev with
      | turned | looked => simp [entered, departed, Event.cameTo, Event.leftFrom]
      | _ => exact absurd hwatch not_false
  | opened q hqueues htake hev =>
    rw [hev, contentsAt_append hqueues]
    simp [entered, departed, Event.cameTo, Event.leftFrom]
  | moved new hqueues htake hev =>
    rw [hev, contentsAt_congr hqueues]
    simp [entered, departed, Event.cameTo, Event.leftFrom]

/-- Every step changes the contents of a queue by what the history lists. -/
theorem contentsAt_step? {m m' : Switchboard F E} {now : ℕ} {task task' : Task F E}
    (h : m.step? now task = some (m', task')) (place queue : ℕ) :
    m'.contentsAt queue + departed queue (m.event? now place task).toList =
      m.contentsAt queue + entered queue (m.event? now place task).toList := by
  by_cases hin : task.InSwap
  · obtain ⟨hleft, hcame⟩ := contentsAt_of_inSwap h hin place queue
    rw [hleft, add_zero, hcame]
  · cases effect_of_step? h hin with
    | quiet hkeeps hqueues hevent hout hsource =>
      rw [hevent, contentsAt_congr hqueues]
      simp [entered, departed]
    | insertion k e hkeeps hqueues hevent hout hsource =>
      rw [hevent, contentsAt_congr hqueues, contentsAt_offerTo m now place, departed_insertion?,
        add_zero]
    | removal k hkeeps hqueues hevent hfrom hout hsource =>
      rw [hevent, contentsAt_congr hqueues, contentsAt_takeFrom, entered_removal?, add_zero]
    | lock c htask hfree hboard htask' =>
      subst htask hboard
      simp [event?, entered, departed, contentsAt]

end Switchboard

namespace Traffic

variable {F E : Type} [Scalar F] [Ranked E]

/-- Every step of the traffic changes the contents of a queue by what the history lists. -/
theorem Step.contentsAt {t t' : Traffic F E} {ev : Option (Event E)} (h : Step t ev t') (queue : ℕ) :
    t'.board.contentsAt queue + departed queue ev.toList =
      t.board.contentsAt queue + entered queue ev.toList := by
  cases h with
  | begin => simp [entered, departed]
  | advance m m' tasks now place task task' hplace hstep =>
    exact Switchboard.contentsAt_step? hstep place queue
  | shutDown => simp [entered, departed, Switchboard.shutDown, Switchboard.contentsAt]

/-- A queue holds what came into it and was not taken out. -/
theorem Run.accounts {log : List (Event E)} {t : Traffic F E} (h : Run log t) (queue : ℕ) :
    t.board.contentsAt queue + departed queue log = entered queue log := by
  induction h with
  | start registry now c m hmade =>
    obtain ⟨q, hqueues, -⟩ := Switchboard.of_ofConfig hmade
    cases queue with
    | zero => simp [entered, departed, Event.cameTo, Event.leftFrom]
    | succ k =>
      simp [entered, departed, Event.cameTo, Event.leftFrom, Switchboard.contentsAt, hqueues]
  | step log t t' ev hrun hstep ih =>
    have hchange := hstep.contentsAt queue
    rw [entered_append, departed_append, ← ih, ← add_assoc, hchange]
    abel

end Traffic

end Allotment
