import Allotment.Proofs.CallQueue.Orderly

/-!
# Handing over from an old queue to a new one

Calls begin to be taken from a new queue only once the swap that built it has seen the old queue
empty as often in a row as its configuration asks. By then every element that had come into the old
queue before the last of these looks has been taken out, and no element has been taken out of the new
queue. So elements leave the two queues in the order of the queues, whoever held them up.
-/

namespace Allotment

/-- Whether the history before calls began to be taken from a new queue ends a watch in which the last
looks, as many as were asked for, found the old queue empty, at the last of them everything that had
come into the old queue had been taken out, and nothing had yet been taken out of the new queue. -/
def HandedOver {E : Type} (earlier : List (Event E)) (new : ℕ) : Prop :=
  ∃ old checks watch before after upTo,
    0 < checks ∧
    earlier = watch ++ .turned old new checks :: before ∧
    (looks watch).take checks = List.replicate checks (old, new, true) ∧
    earlier = after ++ .looked old new true :: upTo ∧
    looks after = [] ∧
    Balanced old upTo ∧
    ∀ party e, .removed party new e ∉ earlier

/-- The queue from which calls began to be taken last, the first one if there was no swap. -/
def lastMoved {E : Type} (log : List (Event E)) : ℕ :=
  (log.findSome? fun | .moved new => some new | _ => none).getD 0

section History

variable {E : Type} {log : List (Event E)}

/-- Looks of two stretches of a history, one after the other. -/
theorem looks_append (later earlier : List (Event E)) :
    looks (later ++ earlier) = looks later ++ looks earlier := by
  simp [looks]

/-- Whether every element was taken out of a queue in service. -/
def TakenInService (log : List (Event E)) : Prop :=
  ∀ later party k e earlier, log = later ++ .removed party k e :: earlier → InService earlier k

/-- Nothing was taken out of a queue before calls began to be taken from it. -/
theorem TakenInService.not_removed (h : TakenInService log) {new : ℕ} (hpos : 0 < new) (hunmoved : .moved new ∉ log)
    (party : ℕ) (e : E) : .removed party new e ∉ log := by
  intro hmem
  obtain ⟨later, earlier, hlog⟩ := List.append_of_mem hmem
  rcases h later party new e earlier hlog with hfirst | hmoved
  · omega
  · apply hunmoved
    rw [hlog]
    exact List.mem_append_right later (List.mem_cons_of_mem _ hmoved)

/-- A swap that has looked often enough, with nothing taken out of its new queue, may hand over. -/
theorem HandedOver.of_watched {old new checks seen : ℕ} (hchecks : 0 < checks) (henough : checks ≤ seen)
    (hwatched : Watched log old new checks seen) (hdrained : Drained log old new)
    (hkept : ∀ party e, .removed party new e ∉ log) : HandedOver log new := by
  obtain ⟨watch, before, hwatch, rest, hrest⟩ := hwatched
  obtain ⟨after, upTo, hafter, hothers, hbalanced⟩ := hdrained
  refine ⟨old, checks, watch, before, after, upTo, hchecks, hwatch, ?_, hafter, ?_, hbalanced, hkept⟩
  · rw [hrest, List.take_append_of_le_length (by simpa using henough), List.take_replicate,
      Nat.min_eq_left henough]
  -- Both splits of the history show its last look, and only the watch tells whose look it is.
  · have hhead : (looks log).head? = some (old, new, true) := by
      obtain ⟨n, rfl⟩ := Nat.exists_eq_add_of_lt (hchecks.trans_le henough)
      rw [hwatch, looks_append, hrest]
      simp [List.replicate_succ]
    rw [hafter, looks_append] at hhead
    cases hcase : looks after with
    | nil => rfl
    | cons first others =>
      have heq : first = (old, new, true) := by simpa [hcase] using hhead
      exact absurd (congrArg Prod.fst heq) (hothers first (by simp [hcase]))

/-- An event of a history with something more at its front is the new one or stood there before. -/
theorem append_cons_cases {ev : Option (Event E)} {later earlier : List (Event E)} {e : Event E}
    (h : ev.toList ++ log = later ++ e :: earlier) :
    (ev = some e ∧ log = earlier) ∨ ∃ rest, log = rest ++ e :: earlier := by
  cases ev with
  | none => exact .inr ⟨later, h⟩
  | some first =>
    cases later with
    | nil =>
      obtain ⟨rfl, rfl⟩ := List.cons.inj h
      exact .inl ⟨rfl, rfl⟩
    | cons next rest => exact .inr ⟨rest, (List.cons.inj h).2⟩

end History

section Step

variable {F E : Type} [Scalar F] [Ranked E] {m m' : Switchboard F E} {now place : ℕ}
  {task task' : Task F E}

/-- Only the last but one step of a swap begins to take calls from a new queue. -/
theorem Switchboard.task_of_event?_moved {new : ℕ}
    (h : m.event? now place task = some (.moved new)) : task = .swapTake new := by
  cases task with
  | swapTake q =>
    cases h
    rfl
  | inserting k e => exact absurd trivial (not_isSwap_of_insertion? h)
  | offering counted k e => exact absurd trivial (not_isSwap_of_insertion? h)
  | taking k => exact absurd trivial (not_isSwap_of_removal? h)
  | polling k deadline remaining => exact absurd trivial (not_isSwap_of_removal? h)
  | swapOpen c =>
    simp only [event?] at h
    split at h <;> cases h
  | _ => simp [event?] at h

/-- Only a task that was about to take from a queue takes an element out of it. -/
theorem Switchboard.source?_of_event?_removed {party k : ℕ} {e : E}
    (h : m.event? now place task = some (.removed party k e)) : task.source? = some k := by
  cases task with
  | taking q =>
    obtain ⟨taken, -, htaken⟩ := Option.map_eq_some_iff.mp h
    cases htaken
    rfl
  | polling q deadline remaining =>
    obtain ⟨taken, -, htaken⟩ := Option.map_eq_some_iff.mp h
    cases htaken
    rfl
  | inserting q e =>
    obtain ⟨held, -, hheld⟩ := Option.bind_eq_some_iff.mp h
    split at hheld <;> cases hheld
  | offering counted q e =>
    obtain ⟨held, -, hheld⟩ := Option.bind_eq_some_iff.mp h
    split at hheld <;> cases hheld
  | swapOpen c =>
    simp only [event?] at h
    split at h <;> cases h
  | _ => simp [event?] at h

/-- A step begins to take calls from a new queue exactly when the history says so. -/
theorem Switchboard.takeRef_step? (place : ℕ) (h : m.step? now task = some (m', task')) :
    m'.takeRef = match m.event? now place task with
      | some (.moved new) => new
      | _ => m.takeRef := by
  by_cases hin : task.InSwap
  · cases swapEffect_of_step? h hin place with
    | quiet hqueues htake hev =>
      rw [htake]
      split
      · rename_i new hmoved
        exact absurd (hev _ hmoved) not_false
      · rfl
    | opened q hqueues htake hev => rw [htake, hev]
    | moved new hqueues htake hev => rw [htake, hev]
  · have hkeeps : m'.takeRef = m.takeRef := by
      rcases (effect_of_step? h hin).outside with houtside | ⟨c, -, -, rfl, -⟩
      · exact houtside.keeps.takeRef
      · rfl
    split
    · rename_i new hmoved
      cases task_of_event?_moved hmoved
      exact absurd trivial hin
    · exact hkeeps

end Step

namespace Traffic

variable {F E : Type} [Scalar F] [Ranked E] {log : List (Event E)} {t t' : Traffic F E}

/-- In every run elements are taken only out of queues in service. -/
theorem Run.takenInService (h : Run log t) : TakenInService log := by
  induction h with
  | start =>
    intro later party k e earlier hlog
    have hmem : Event.removed party k e ∈ later ++ .removed party k e :: earlier := by simp
    rw [← hlog] at hmem
    simp at hmem
  | step log t t' ev hrun hstep ih =>
    intro later party k e earlier hlog
    rcases append_cons_cases hlog with ⟨rfl, rfl⟩ | ⟨rest, hrest⟩
    · generalize hev : some (Event.removed party k e) = ev at hstep
      cases hstep with
      | begin | shutDown => contradiction
      | advance m m' tasks now place task task' hplace hadvance =>
        have hsource := Switchboard.source?_of_event?_removed hev.symm
        exact hrun.orderly.sources place task hplace k hsource
    · exact ih rest party k e earlier hrest

/-- In every run calls begin to be taken from a new queue only after a complete watch. -/
theorem Run.handedOver (h : Run log t) (later earlier : List (Event E)) (new : ℕ)
    (hlog : log = later ++ .moved new :: earlier) : HandedOver earlier new := by
  induction h generalizing later earlier new with
  | start =>
    have hmem : Event.moved new ∈ later ++ .moved new :: earlier := by simp
    rw [← hlog] at hmem
    simp at hmem
  | step log t t' ev hrun hstep ih =>
    rcases append_cons_cases hlog with ⟨rfl, rfl⟩ | ⟨rest, hrest⟩
    · generalize hev : some (Event.moved new) = ev at hstep
      cases hstep with
      | begin | shutDown => contradiction
      | advance m m' tasks now place task task' hplace hadvance =>
        cases Switchboard.task_of_event?_moved hev.symm
        obtain ⟨old, checks, seen, henough, hwatching⟩ := hrun.orderly.phase place _ hplace
        have hunused := hwatching.unused
        exact .of_watched hwatching.checks_pos henough hwatching.watched
          (hwatching.drained (hwatching.checks_pos.trans_le henough))
          (hrun.takenInService.not_removed hunused.pos hunused.unmoved)
    · exact ih rest earlier new hrest

/-- Calls are taken from the queue from which they began to be taken last. -/
theorem Run.takeRef_eq_lastMoved (h : Run log t) : t.board.takeRef = lastMoved log := by
  induction h with
  | start registry now c m hmade =>
    obtain ⟨q, -, -, htake, -⟩ := Switchboard.of_ofConfig hmade
    exact htake
  | step log t t' ev hrun hstep ih =>
    cases hstep with
    | begin | shutDown => exact ih
    | advance m m' tasks now place task task' hplace hadvance =>
      have htake := Switchboard.takeRef_step? place hadvance
      change m'.takeRef = _
      rw [htake]
      split
      · rename_i new hmoved
        rw [hmoved]
        rfl
      · rename_i hnot
        cases hev : m.event? now place task with
        | none => exact ih
        | some ev =>
          cases ev with
          | moved new => exact absurd hev (hnot new)
          | _ => exact ih

/-- No swap lets takers overtake the old queue. In the history of every run, calls begin to be taken
from a new queue only after the old queue was seen empty as often in a row as the swap asks; at the
last of these looks everything that had come into the old queue had been taken out, while nothing had
been taken out of the new one; and elements are taken only out of the first queue and of queues from
which calls have begun to be taken, the last of which is where the switchboard now takes calls. -/
theorem Run.no_overtaking (h : Run log t) :
    (∀ later new earlier, log = later ++ .moved new :: earlier → HandedOver earlier new) ∧
      (∀ later party k e earlier, log = later ++ .removed party k e :: earlier →
        k = 0 ∨ .moved k ∈ earlier) ∧
      t.board.takeRef = lastMoved log :=
  ⟨fun later new earlier => h.handedOver later earlier new, h.takenInService,
    h.takeRef_eq_lastMoved⟩

/-- A blocked insertion into the old queue is served before a swap hands over. -/
theorem no_overtaking_of_blocked_insertion :
    HandedOver [.looked 0 1 true, .removed 4 0 "second", .inserted 1 0 "second",
      .removed 3 0 "first", .turned 0 1 1, .opened 1 0, .inserted 0 0 "first", .opened 0 0] 1 := by
  have hrun := run_narrowRun [.put "first", .put "second", .swap narrow, .take, .take]
    (by simp [Task.IsFirst]) [0, 0, 0, 1, 1, 2, 2, 2, 2, 2, 2, 2, 3, 3, 3, 1, 4, 4, 4, 2, 2, 2, 2]
  exact hrun.no_overtaking.1 [] 1 _ (by rfl)

end Traffic

end Allotment
