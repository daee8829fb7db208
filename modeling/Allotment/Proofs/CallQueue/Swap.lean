import Allotment.Proofs.CallQueue.Accounting

/-!
# The order that swaps keep

Swaps come one after another. While one is at work, the two references tell how far it has come, and
the history tells what it has seen: since it sent new calls to its new queue, the last looks in a row
that it counts all found the old queue empty, and at the last of them everything that had come into
the old queue had been taken out. `Orderly` gathers these facts; every step of every task keeps them.
-/

namespace Allotment

section History

variable {E : Type} {log : List (Event E)}

/-- Whether the last look at a queue, made by the swap to a new one, found it empty and everything
that had come into it taken out. -/
def Drained (log : List (Event E)) (old new : ℕ) : Prop :=
  ∃ after upTo, log = after ++ .looked old new true :: upTo ∧ (∀ e ∈ looks after, e.1 ≠ old) ∧
    Balanced old upTo

/-- Whether a swap sent new calls from an old queue to a new one, to be watched for a number of looks,
and the last looks since then found the old queue empty a number of times in a row. -/
def Watched (log : List (Event E)) (old new checks seen : ℕ) : Prop :=
  ∃ watch before, log = watch ++ .turned old new checks :: before ∧
    ∃ rest, looks watch = List.replicate seen (old, new, true) ++ rest

/-- A queue stays drained as long as nobody looks at it. -/
theorem Drained.cons {old new : ℕ} (h : Drained log old new) (ev : Event E)
    (hother : ∀ e ∈ looks [ev], e.1 ≠ old) : Drained (ev :: log) old new := by
  obtain ⟨after, upTo, rfl, hafter, hbalanced⟩ := h
  refine ⟨ev :: after, upTo, rfl, ?_, hbalanced⟩
  intro e he
  rw [← List.singleton_append, looks, List.filterMap_append, List.mem_append] at he
  exact he.elim (hother e) (hafter e)

/-- A queue looked at when nothing is in it is drained. -/
theorem Drained.look {old : ℕ} (h : Balanced old log) (new : ℕ) :
    Drained (.looked old new true :: log) old new :=
  ⟨[], log, rfl, by simp [looks], h⟩

/-- An event that is no look does not end a row of looks. -/
theorem Watched.cons {old new checks seen : ℕ} (h : Watched log old new checks seen) (ev : Event E)
    (hlook : looks [ev] = []) : Watched (ev :: log) old new checks seen := by
  obtain ⟨watch, before, rfl, rest, hrest⟩ := h
  refine ⟨ev :: watch, before, rfl, rest, ?_⟩
  rw [← hrest, ← List.singleton_append, looks, List.filterMap_append]
  simpa [looks] using hlook

/-- A look that finds the old queue empty makes the row longer by one. -/
theorem Watched.look {old new checks seen : ℕ} (h : Watched log old new checks seen) :
    Watched (.looked old new true :: log) old new checks (seen + 1) := by
  obtain ⟨watch, before, rfl, rest, hrest⟩ := h
  refine ⟨.looked old new true :: watch, before, rfl, rest, ?_⟩
  change (old, new, true) :: looks watch = _
  rw [hrest, List.replicate_succ, List.cons_append]

/-- A look that finds something in the old queue begins a new row. -/
theorem Watched.restart {old new checks seen : ℕ} (h : Watched log old new checks seen) :
    Watched (.looked old new false :: log) old new checks 0 := by
  obtain ⟨watch, before, rfl, rest, hrest⟩ := h
  exact ⟨.looked old new false :: watch, before, rfl, _, rfl⟩

/-- A queue stays in service. -/
theorem InService.mono {k : ℕ} (h : InService log k) (ev : Option (Event E)) :
    InService (ev.toList ++ log) k :=
  h.imp_right (List.mem_append_right ev.toList)

/-- An event outside a swap brings no queue into service. -/
theorem InService.of_not_isSwap {k : ℕ} {ev : Option (Event E)} (hev : ∀ e ∈ ev, ¬ e.IsSwap)
    (h : InService (ev.toList ++ log) k) : InService log k := by
  rcases h with hfirst | hmoved
  · exact .inl hfirst
  · rcases List.mem_append.mp hmoved with hnow | hbefore
    · exact absurd trivial (hev (.moved k) (by simpa using hnow))
    · exact .inr hbefore

/-- A queue stays drained until somebody looks at it. -/
theorem Drained.mono {old new : ℕ} (h : Drained log old new) (ev : Option (Event E))
    (hother : ∀ e ∈ looks ev.toList, e.1 ≠ old) : Drained (ev.toList ++ log) old new := by
  cases ev with
  | none => exact h
  | some e => exact h.cons e hother

end History

section Phases

variable {F E : Type} {log : List (Event E)} {m m' : Switchboard F E}

/-- Whether a queue was built and no call has been taken from it. -/
structure Unused (log : List (Event E)) (m : Switchboard F E) (new : ℕ) : Prop where
  pos : 0 < new
  lt : new < m.queues.length
  unmoved : .moved new ∉ log

/-- How things stand while a swap watches its old queue. -/
structure Watching (log : List (Event E)) (m : Switchboard F E) (old new checks seen : ℕ) : Prop where
  takeRef : m.takeRef = old
  putRef : m.putRef = new
  checks_pos : 0 < checks
  unused : Unused log m new
  watched : Watched log old new checks seen
  drained : 0 < seen → Drained log old new

/-- How things stand at each point of a swap. -/
def Phase (log : List (Event E)) (m : Switchboard F E) : Task F E → Prop
  | .swapLocked _ => m.shutdown = false → m.takeRef = m.putRef
  | .swapOpen _ => m.takeRef = m.putRef
  | .swapBuilt c new => m.takeRef = m.putRef ∧ 0 < c.drain.checks ∧ Unused log m new
  | .swapPut c old new => m.takeRef = m.putRef ∧ m.takeRef = old ∧ 0 < c.drain.checks ∧ Unused log m new
  | .swapKnobs c old new => Watching log m old new c.drain.checks 0
  | .draining c old new seen | .sleeping c old new seen => Watching log m old new c.drain.checks seen
  | .swapTake new => ∃ old checks seen, checks ≤ seen ∧ Watching log m old new checks seen
  | .swapCount => m.takeRef = m.putRef
  | _ => True

/-- Nothing is asked of a task outside a swap. -/
theorem phase_of_not_inSwap {task : Task F E} (h : ¬ task.InSwap) : Phase log m task := by
  cases task <;> first | exact trivial | exact absurd trivial h

/-- An event outside a swap leaves a queue unused. -/
theorem Unused.mono {new : ℕ} (h : Unused log m new) (hlength : m.queues.length ≤ m'.queues.length)
    (ev : Option (Event E)) (hev : ∀ e ∈ ev, ¬ e.IsSwap) : Unused (ev.toList ++ log) m' new := by
  refine ⟨h.pos, h.lt.trans_le hlength, ?_⟩
  intro hmoved
  rcases List.mem_append.mp hmoved with hnow | hbefore
  · exact hev (.moved new) (by simpa using hnow) trivial
  · exact h.unmoved hbefore

/-- An event outside a swap is no look. -/
theorem looks_singleton_of_not_isSwap {e : Event E} (h : ¬ e.IsSwap) : looks [e] = [] := by
  cases e <;> first | rfl | exact absurd trivial h

/-- An event outside a swap does not disturb the watching of an old queue. -/
theorem Watching.mono {old new checks seen : ℕ} (h : Watching log m old new checks seen)
    (htake : m'.takeRef = m.takeRef) (hput : m'.putRef = m.putRef)
    (hlength : m.queues.length ≤ m'.queues.length) (ev : Option (Event E))
    (hev : ∀ e ∈ ev, ¬ e.IsSwap) : Watching (ev.toList ++ log) m' old new checks seen := by
  refine ⟨htake.trans h.takeRef, hput.trans h.putRef, h.checks_pos,
    h.unused.mono hlength ev hev, ?_, ?_⟩
  · cases ev with
    | none => exact h.watched
    | some e => exact h.watched.cons e (looks_singleton_of_not_isSwap (hev e rfl))
  · intro hseen
    cases ev with
    | none => exact h.drained hseen
    | some e =>
      exact (h.drained hseen).cons e (by simp [looks_singleton_of_not_isSwap (hev e rfl)])

/-- A step of another task leaves a swap where it stands. -/
theorem Phase.mono {task : Task F E} (h : Phase log m task) (htake : m'.takeRef = m.takeRef)
    (hput : m'.putRef = m.putRef) (hopen : m'.shutdown = false → m.shutdown = false)
    (hlength : m.queues.length ≤ m'.queues.length) (ev : Option (Event E))
    (hev : ∀ e ∈ ev, ¬ e.IsSwap) : Phase (ev.toList ++ log) m' task := by
  have hsame : m.takeRef = m.putRef → m'.takeRef = m'.putRef := by
    intro heq
    rw [htake, hput, heq]
  cases task with
  | swapLocked c => exact fun hstill => hsame (h (hopen hstill))
  | swapOpen c => exact hsame h
  | swapBuilt c new => exact ⟨hsame h.1, h.2.1, h.2.2.mono hlength ev hev⟩
  | swapPut c old new =>
    exact ⟨hsame h.1, htake.trans h.2.1, h.2.2.1, h.2.2.2.mono hlength ev hev⟩
  | swapKnobs c old new => exact Watching.mono h htake hput hlength ev hev
  | draining c old new seen => exact Watching.mono h htake hput hlength ev hev
  | sleeping c old new seen => exact Watching.mono h htake hput hlength ev hev
  | swapTake new =>
    obtain ⟨old, checks, seen, hseen, hwatching⟩ := h
    exact ⟨old, checks, seen, hseen, hwatching.mono htake hput hlength ev hev⟩
  | swapCount => exact hsame h
  | _ => trivial

end Phases

section Swaps

variable {F E : Type} {log log' : List (Event E)} {m m' : Switchboard F E} {now : ℕ}
  {task task' : Task F E}

/-- Whether a queue is in use, or has been built by a task and will be, or is drained. -/
def Placed (log : List (Event E)) (m : Switchboard F E) (task : Task F E) (k : ℕ) : Prop :=
  k = m.takeRef ∨ k = m.putRef ∨ task.built? = some k ∨ ∃ new, Drained log k new

/-- What a step inside a swap leads to. -/
structure Inside (log log' : List (Event E)) (m m' : Switchboard F E) (task task' : Task F E) :
    Prop where
  length : m.queues.length ≤ m'.queues.length
  phase : Phase log' m' task'
  lock : task'.InSwap → m'.swapping = m.swapping
  ended : ¬ task'.InSwap → m'.shutdown = false → m'.takeRef = m'.putRef
  source : task'.source? = none
  serving : InService log m.takeRef → InService log' m'.takeRef
  known : ∀ k, InService log' k → InService log k ∨ k < m.queues.length
  placed : (∀ k < m.queues.length, Placed log m task k) →
    ∀ k < m'.queues.length, Placed log' m' task' k

/-- A swap that ends with nothing in its hands frees the lock, whatever it has counted. -/
theorem Inside.of_endSwap {o : Outcome E} (metrics : Metrics F) (hbuilt : task.built? = none)
    (hended : m.shutdown = false → m.takeRef = m.putRef) :
    Inside log log m ({ m with metrics := metrics }.endSwap o).1 task (m.endSwap o).2 where
  length := Nat.le_refl _
  phase := trivial
  lock h := absurd h not_false
  ended _ := hended
  source := rfl
  serving h := h
  known _ h := .inl h
  placed h k hk := by
    have hplaced := h k hk
    rw [Placed, hbuilt] at hplaced
    exact hplaced

/-- A step that only moves a swap on to its next phase. -/
theorem Inside.of_phase (hphase : Phase log m task') (hin : task'.InSwap)
    (hbuilt : task'.built? = task.built?) : Inside log log m m task task' where
  length := Nat.le_refl _
  phase := hphase
  lock _ := rfl
  ended h := absurd hin h
  source := by cases task' <;> first | rfl | exact absurd hin not_false
  serving h := h
  known _ h := .inl h
  placed h k hk := by simpa [Placed, hbuilt] using h k hk

/-- A look at the old queue makes the row of looks longer or begins a new one. -/
theorem Watching.look {old new checks seen : ℕ} (h : Watching log m old new checks seen)
    (haccounts : m.contentsAt old + departed old log = entered old log) :
    Watching (.looked old new (decide (m.sizeOf old = 0)) :: log) m old new checks
      (if m.sizeOf old = 0 then seen + 1 else 0) := by
  have hunused : Unused (.looked old new (decide (m.sizeOf old = 0)) :: log) m new :=
    ⟨h.unused.pos, h.unused.lt, by simpa using h.unused.unmoved⟩
  by_cases hempty : m.sizeOf old = 0
  · have hbalanced : Balanced old log := by
      rw [Switchboard.sizeOf_eq_zero_iff] at hempty
      rw [Balanced, ← haccounts, hempty, zero_add]
    simp only [hempty, decide_true, if_true] at hunused ⊢
    exact ⟨h.takeRef, h.putRef, h.checks_pos, hunused, h.watched.look, fun _ => .look hbalanced new⟩
  · simp only [hempty, decide_false, if_false] at hunused ⊢
    exact ⟨h.takeRef, h.putRef, h.checks_pos, hunused, h.watched.restart, fun hpos => absurd hpos (by omega)⟩

/-- A swap builds its new queue, in which nobody is interested yet. -/
theorem Inside.opened {c : CallQueueConfig F} (q : CallQueue F E) (hsame : m.takeRef = m.putRef)
    (hchecks : 0 < c.drain.checks) (hknown : ∀ k, InService log k → k < m.queues.length) :
    Inside log (.opened m.queues.length q.contents :: log) m { m with queues := m.queues ++ [q] }
      (.swapOpen c) (.swapBuilt c m.queues.length) where
  length := by simp
  phase := by
    refine ⟨hsame, hchecks, hknown 0 (.inl rfl), by simp, ?_⟩
    intro hmoved
    have hold := hknown m.queues.length (.inr (by simpa using hmoved))
    omega
  lock _ := rfl
  ended h := absurd trivial h
  source := rfl
  serving h := h.mono (some _)
  known k hk := .inl (by simpa [InService] using hk)
  placed hplaced k hk := by
    rcases Nat.lt_or_ge k m.queues.length with hlt | hge
    · rcases hplaced k hlt with htake | hput | hbuilt | ⟨new, hdrained⟩
      · exact .inl htake
      · exact .inr (.inl hput)
      · simp [Task.built?] at hbuilt
      · exact .inr (.inr (.inr ⟨new, hdrained.mono (some _) (by simp [looks])⟩))
    · have heq : m.queues.length = k := by
        simp at hk
        omega
      exact .inr (.inr (.inl (by simp [Task.built?, heq])))

/-- A swap sends new calls to its new queue and begins to watch the old one. -/
theorem Inside.turned {c : CallQueueConfig F} {old new : ℕ} (hsame : m.takeRef = m.putRef)
    (hold : m.takeRef = old) (hchecks : 0 < c.drain.checks) (hunused : Unused log m new) :
    Inside log (.turned old new c.drain.checks :: log) m { m with putRef := new }
      (.swapPut c old new) (.swapKnobs c old new) where
  length := Nat.le_refl _
  phase := by
    refine ⟨hold, rfl, hchecks, ?_, ⟨[], log, rfl, [], rfl⟩, by simp⟩
    exact ⟨hunused.pos, hunused.lt, by simpa using hunused.unmoved⟩
  lock _ := rfl
  ended h := absurd trivial h
  source := rfl
  serving h := h.mono (some _)
  known k hk := .inl (by simpa [InService] using hk)
  placed hplaced k hk := by
    rcases hplaced k hk with htake | hput | hbuilt | ⟨next, hdrained⟩
    · exact .inl htake
    · exact .inl (hput.trans hsame.symm)
    · exact .inr (.inl (by simpa [Task.built?] using hbuilt.symm))
    · exact .inr (.inr (.inr ⟨next, hdrained.mono (some _) (by simp [looks])⟩))

/-- A swap looks at its old queue, from which calls are still being taken. -/
theorem Inside.looked {c : CallQueueConfig F} {old new seen : ℕ}
    (h : Watching log m old new c.drain.checks seen)
    (haccounts : m.contentsAt old + departed old log = entered old log) :
    Inside log (.looked old new (decide (m.sizeOf old = 0)) :: log) m m (.sleeping c old new seen)
      (.draining c old new (if m.sizeOf old = 0 then seen + 1 else 0)) where
  length := Nat.le_refl _
  phase := h.look haccounts
  lock _ := rfl
  ended h := absurd trivial h
  source := rfl
  serving h := h.mono (some _)
  known k hk := .inl (by simpa [InService] using hk)
  placed hplaced k hk := by
    by_cases hold : k = m.takeRef
    · exact .inl hold
    · rcases hplaced k hk with htake | hput | hbuilt | ⟨next, hdrained⟩
      · exact .inl htake
      · exact .inr (.inl hput)
      · simp [Task.built?] at hbuilt
      · refine .inr (.inr (.inr ⟨next, hdrained.mono (some _) ?_⟩))
        simpa [looks, h.takeRef] using Ne.symm hold

/-- A swap lets calls be taken from its new queue, which leaves the old one drained. -/
theorem Inside.moved {old new checks seen : ℕ} (h : Watching log m old new checks seen)
    (hseen : 0 < seen) :
    Inside log (.moved new :: log) m { m with takeRef := new } (.swapTake new) .swapCount where
  length := Nat.le_refl _
  phase := h.putRef.symm
  lock _ := rfl
  ended h := absurd trivial h
  source := rfl
  serving _ := .inr (by simp)
  known k hk := by
    rcases hk with hfirst | hmoved
    · exact .inl (.inl hfirst)
    · rcases List.mem_cons.mp hmoved with hnow | hbefore
      · cases hnow
        exact .inr h.unused.lt
      · exact .inl (.inr hbefore)
  placed hplaced k hk := by
    rcases hplaced k hk with htake | hput | hbuilt | ⟨next, hdrained⟩
    · have hold : k = old := htake.trans h.takeRef
      subst hold
      exact .inr (.inr (.inr ⟨new, (h.drained hseen).mono (some _) (by simp [looks])⟩))
    · exact .inr (.inl hput)
    · simp [Task.built?] at hbuilt
    · exact .inr (.inr (.inr ⟨next, hdrained.mono (some _) (by simp [looks])⟩))

variable [Scalar F] [Ranked E]

omit [Ranked E] in
/-- A valid drain looks at least once. -/
theorem checks_pos_of_validate {d : DrainConfig} (h : d.validate = .ok ()) : 0 < d.checks := by
  unfold DrainConfig.validate at h
  split at h
  · contradiction
  · omega

/-- Every step inside a swap leads from its phase to the next one. -/
theorem inside_of_step? (h : m.step? now task = some (m', task')) (hin : task.InSwap) (place : ℕ)
    (hphase : Phase log m task) (hknown : ∀ k, InService log k → k < m.queues.length)
    (haccounts : ∀ k, m.contentsAt k + departed k log = entered k log) :
    Inside log ((m.event? now place task).toList ++ log) m m' task task' := by
  cases task with
  | swapLocked c =>
    simp only [Switchboard.step?] at h
    split at h
    · rename_i hshut
      cases h
      exact .of_endSwap m.metrics rfl fun hopen => absurd hshut (by simp [hopen])
    · rename_i hopen
      cases h
      exact .of_phase (hphase (by simpa using hopen)) trivial rfl
  | swapOpen c =>
    simp only [Switchboard.step?] at h
    split at h
    · rename_i hdrain
      cases h
      simp only [Switchboard.event?, hdrain]
      exact .of_endSwap m.metrics rfl fun _ => hphase
    · rename_i hdrain hbuild
      cases h
      simp only [Switchboard.event?, hdrain, hbuild]
      exact .of_endSwap m.metrics rfl fun _ => hphase
    · rename_i q hdrain hbuild
      cases h
      simp only [Switchboard.event?, hdrain, hbuild]
      exact .opened q hphase (checks_pos_of_validate hdrain) hknown
  | swapBuilt c new =>
    cases h
    exact .of_phase ⟨hphase.1, hphase.1, hphase.2⟩ trivial rfl
  | swapPut c old new =>
    cases h
    exact .turned hphase.1 hphase.2.1 hphase.2.2.1 hphase.2.2.2
  | swapKnobs c old new =>
    cases h
    obtain ⟨htake, hput, hchecks, hunused, hwatched, hdrained⟩ := hphase
    refine ⟨Nat.le_refl _, ⟨htake, hput, hchecks, ⟨hunused.pos, hunused.lt, hunused.unmoved⟩,
      hwatched, hdrained⟩, fun _ => rfl, fun h => absurd trivial h, rfl, id, fun _ => .inl, ?_⟩
    intro hplaced k hk
    exact hplaced k hk
  | draining c old new seen =>
    simp only [Switchboard.step?] at h
    split at h
    · rename_i henough
      cases h
      exact .of_phase ⟨old, _, seen, henough, hphase⟩ trivial rfl
    · split at h
      · rename_i hshut
        cases h
        exact .of_endSwap m.metrics rfl fun hopen => absurd hshut (by simp [hopen])
      · cases h
        exact .of_phase hphase trivial rfl
  | sleeping c old new seen =>
    cases h
    exact .looked hphase (haccounts old)
  | swapTake new =>
    cases h
    obtain ⟨old, checks, seen, henough, hwatching⟩ := hphase
    exact .moved hwatching (hwatching.checks_pos.trans_le henough)
  | swapCount =>
    cases h
    exact .of_endSwap _ rfl fun _ => hphase
  | _ => exact absurd hin not_false

end Swaps

end Allotment
