import Allotment.Proofs.CallQueue.Swap

/-!
# How swaps follow one another

`Orderly` says how a history and the traffic fit together: at most one swap is at work and stands at
the phase that the switchboard shows; calls are taken only from queues in service; and every queue
that is neither in use nor about to be was drained before it was left. Every step of every task keeps
this, so it holds at every moment of every run.
-/

namespace Allotment

section Tasks

variable {F E : Type} {m m' : Switchboard F E} {now : ℕ} {task task' : Task F E}

/-- A task that has built a queue is in a swap. -/
theorem Task.inSwap_of_built? {k : ℕ} (h : task.built? = some k) : task.InSwap := by
  cases task <;> first | exact trivial | simp [Task.built?] at h

variable [Scalar F] [Ranked E]

/-- Trying to insert is no event of a swap. -/
theorem Switchboard.not_isSwap_of_insertion? {place k : ℕ} {e : E} {ev : Event E}
    (h : m.insertion? now place k e = some ev) : ¬ ev.IsSwap := by
  unfold insertion? at h
  obtain ⟨q, -, hq⟩ := Option.bind_eq_some_iff.mp h
  split at hq <;> cases hq
  exact not_false

omit [Scalar F] [Ranked E] in
/-- Trying to take is no event of a swap. -/
theorem Switchboard.not_isSwap_of_removal? {place k : ℕ} {ev : Event E}
    (h : m.removal? place k = some ev) : ¬ ev.IsSwap := by
  obtain ⟨e, -, rfl⟩ := Option.map_eq_some_iff.mp h
  exact not_false

/-- An offer keeps the number of queues. -/
theorem Switchboard.length_offerTo (m : Switchboard F E) (now k : ℕ) (e : E) :
    (m.offerTo now k e).1.queues.length = m.queues.length := by
  unfold offerTo
  split <;> simp

omit [Scalar F] [Ranked E] in
/-- Taking keeps the number of queues. -/
theorem Switchboard.length_takeFrom (m : Switchboard F E) (k : ℕ) :
    (m.takeFrom k).1.queues.length = m.queues.length := by
  unfold takeFrom
  split <;> simp

/-- What a step that neither is in a swap nor begins one leaves as it was. -/
structure Outside (m : Switchboard F E) (now : ℕ) (task : Task F E) (m' : Switchboard F E)
    (task' : Task F E) : Prop where
  keeps : m'.Keeps m
  length : m'.queues.length = m.queues.length
  event : ∀ place, ∀ e ∈ m.event? now place task, ¬ e.IsSwap
  out : ¬ task'.InSwap
  source : ∀ k, task'.source? = some k → k = m.takeRef

/-- A step outside a swap leaves alone what swaps are about, unless it begins one. -/
theorem Switchboard.Effect.outside (h : m.Effect now task m' task') :
    Outside m now task m' task' ∨
      ∃ c, task = .swap c ∧ m.swapping = false ∧ m' = { m with swapping := true } ∧
        task' = .swapLocked c := by
  cases h with
  | quiet hkeeps hqueues hevent hout hsource =>
    exact .inl ⟨hkeeps, by rw [hqueues], by simp [hevent], hout, hsource⟩
  | insertion k e hkeeps hqueues hevent hout hsource =>
    refine .inl ⟨hkeeps, by rw [hqueues, length_offerTo], ?_, hout, by simp [hsource]⟩
    intro place ev hev
    rw [hevent] at hev
    exact not_isSwap_of_insertion? hev
  | removal k hkeeps hqueues hevent hfrom hout hsource =>
    refine .inl ⟨hkeeps, by rw [hqueues, length_takeFrom], ?_, hout, by simp [hsource]⟩
    intro place ev hev
    rw [hevent] at hev
    exact not_isSwap_of_removal? hev
  | lock c htask hfree hboard htask' => exact .inr ⟨c, htask, hfree, hboard, htask'⟩

end Tasks

/-- How the history fits the switchboard and the tasks. -/
structure Orderly {F E : Type} (log : List (Event E)) (t : Traffic F E) : Prop where
  alone : ∀ (i j : ℕ) (a b : Task F E), t.tasks[i]? = some a → t.tasks[j]? = some b → a.InSwap →
    b.InSwap → i = j
  locked : ∀ (i : ℕ) (a : Task F E), t.tasks[i]? = some a → a.InSwap → t.board.swapping = true
  phase : ∀ (i : ℕ) (a : Task F E), t.tasks[i]? = some a → Phase log t.board a
  settled : (∀ (i : ℕ) (a : Task F E), t.tasks[i]? = some a → ¬ a.InSwap) →
    t.board.shutdown = false → t.board.takeRef = t.board.putRef
  sources : ∀ (i : ℕ) (a : Task F E), t.tasks[i]? = some a → ∀ k ∈ a.source?, InService log k
  serving : InService log t.board.takeRef
  known : ∀ k, InService log k → k < t.board.queues.length
  retired : ∀ k < t.board.queues.length, k = t.board.takeRef ∨ k = t.board.putRef ∨
    (∃ (i : ℕ) (a : Task F E), t.tasks[i]? = some a ∧ a.built? = some k) ∨ ∃ new, Drained log k new

namespace Orderly

variable {F E : Type} {log : List (Event E)} {m m' : Switchboard F E} {tasks : List (Task F E)}
  {task task' : Task F E}

/-- The others stand where they stood. -/
theorem getElem?_set_other {place i : ℕ} {a : Task F E} (hne : i ≠ place)
    (h : tasks[i]? = some a) : (tasks.set place task')[i]? = some a := by
  rw [List.getElem?_set_ne (Ne.symm hne), h]

/-- A task that begins disturbs nothing. -/
theorem begin (h : Orderly log ⟨m, tasks⟩) (hfirst : task.IsFirst) :
    Orderly log ⟨m, tasks ++ [task]⟩ := by
  have hout : ¬ task.InSwap := by
    cases task <;> first | exact not_false | exact absurd hfirst not_false
  have hsource : task.source? = none := by
    cases task <;> first | rfl | exact absurd hfirst not_false
  have hcases : ∀ (i : ℕ) (a : Task F E), (tasks ++ [task])[i]? = some a →
      tasks[i]? = some a ∨ a = task :=
    fun i a ha => (getElem?_append_singleton_cases ha).imp_right And.right
  have hold : ∀ (i : ℕ) (a : Task F E), tasks[i]? = some a → (tasks ++ [task])[i]? = some a := by
    intro i a ha
    rw [List.getElem?_append_left (List.getElem?_eq_some_iff.mp ha).1, ha]
  refine ⟨?_, ?_, ?_, ?_, ?_, h.serving, h.known, ?_⟩
  · intro i j a b ha hb hain hbin
    rcases hcases i a ha with ha | rfl
    · rcases hcases j b hb with hb | rfl
      · exact h.alone i j a b ha hb hain hbin
      · exact absurd hbin hout
    · exact absurd hain hout
  · intro i a ha hain
    rcases hcases i a ha with ha | rfl
    · exact h.locked i a ha hain
    · exact absurd hain hout
  · intro i a ha
    rcases hcases i a ha with ha | rfl
    · exact h.phase i a ha
    · exact phase_of_not_inSwap hout
  · intro hnone hopen
    exact h.settled (fun i a ha => hnone i a (hold i a ha)) hopen
  · intro i a ha k hk
    rcases hcases i a ha with ha | rfl
    · exact h.sources i a ha k hk
    · simp [hsource] at hk
  · intro k hk
    rcases h.retired k hk with htake | hput | ⟨i, a, ha, hbuilt⟩ | hdrained
    · exact .inl htake
    · exact .inr (.inl hput)
    · exact .inr (.inr (.inl ⟨i, a, hold i a ha, hbuilt⟩))
    · exact .inr (.inr (.inr hdrained))

/-- Shutting down disturbs nothing. -/
theorem shutDown (h : Orderly log ⟨m, tasks⟩) : Orderly log ⟨m.shutDown, tasks⟩ where
  alone := h.alone
  locked := h.locked
  phase i a ha := by
    have htake : m.shutDown.takeRef = m.takeRef := rfl
    exact Phase.mono (h.phase i a ha) htake rfl (fun hopen => by cases hopen) (Nat.le_refl _) none
      (by simp)
  settled _ hopen := by cases hopen
  sources := h.sources
  serving := h.serving
  known := h.known
  retired := h.retired

section Advance

variable [Scalar F] [Ranked E] {now place : ℕ}

/-- A step outside a swap disturbs nothing. -/
theorem outside (h : Orderly log ⟨m, tasks⟩) (hplace : tasks[place]? = some task)
    (hin : ¬ task.InSwap) (hstep : Outside m now task m' task') :
    Orderly ((m.event? now place task).toList ++ log) ⟨m', tasks.set place task'⟩ := by
  obtain ⟨hkeeps, hlength, hevent, hout, hsource⟩ := hstep
  have hev := hevent place
  have hlooks : looks (m.event? now place task).toList = [] := by
    cases hcase : m.event? now place task with
    | none => rfl
    | some e => exact looks_singleton_of_not_isSwap (hev e hcase)
  refine ⟨?_, ?_, ?_, ?_, ?_, ?_, ?_, ?_⟩
  · intro i j a b ha hb hain hbin
    rcases getElem?_set_cases ha with ⟨-, rfl⟩ | ⟨-, ha⟩
    · exact absurd hain hout
    · rcases getElem?_set_cases hb with ⟨-, rfl⟩ | ⟨-, hb⟩
      · exact absurd hbin hout
      · exact h.alone i j a b ha hb hain hbin
  · intro i a ha hain
    rcases getElem?_set_cases ha with ⟨-, rfl⟩ | ⟨-, ha⟩
    · exact absurd hain hout
    · exact hkeeps.swapping.trans (h.locked i a ha hain)
  · intro i a ha
    rcases getElem?_set_cases ha with ⟨-, rfl⟩ | ⟨-, ha⟩
    · exact phase_of_not_inSwap hout
    · exact Phase.mono (h.phase i a ha) hkeeps.takeRef hkeeps.putRef
        (fun hopen => hkeeps.shutdown ▸ hopen) (Nat.le_of_eq hlength.symm) _ hev
  · intro hnone hopen
    have hsame := h.settled (fun i a ha hain => ?_) (hkeeps.shutdown ▸ hopen)
    · exact hkeeps.takeRef.trans (hsame.trans hkeeps.putRef.symm)
    · have hne : i ≠ place := by
        rintro rfl
        exact hin (Option.some.inj (ha.symm.trans hplace) ▸ hain)
      exact hnone i a (getElem?_set_other hne ha) hain
  · intro i a ha k hk
    rcases getElem?_set_cases ha with ⟨-, rfl⟩ | ⟨-, ha⟩
    · rw [hsource k hk]
      exact h.serving.mono _
    · exact (h.sources i a ha k hk).mono _
  · change InService _ m'.takeRef
    rw [hkeeps.takeRef]
    exact h.serving.mono _
  · intro k hk
    change k < m'.queues.length
    rw [hlength]
    exact h.known k (hk.of_not_isSwap hev)
  · intro k hk
    change k < m'.queues.length at hk
    rw [hlength] at hk
    rcases h.retired k hk with htake | hput | ⟨i, a, ha, hbuilt⟩ | ⟨new, hdrained⟩
    · exact .inl (htake.trans hkeeps.takeRef.symm)
    · exact .inr (.inl (hput.trans hkeeps.putRef.symm))
    · have hne : i ≠ place := by
        rintro rfl
        exact hin (Option.some.inj (ha.symm.trans hplace) ▸ Task.inSwap_of_built? hbuilt)
      exact .inr (.inr (.inl ⟨i, a, getElem?_set_other hne ha, hbuilt⟩))
    · exact .inr (.inr (.inr ⟨new, hdrained.mono _ (by simp [hlooks])⟩))

omit [Scalar F] [Ranked E] in
/-- A swap may begin when none is at work. -/
theorem lock {c : CallQueueConfig F} (h : Orderly log ⟨m, tasks⟩)
    (hplace : tasks[place]? = some (.swap c)) (hfree : m.swapping = false) :
    Orderly log ⟨{ m with swapping := true }, tasks.set place (.swapLocked c)⟩ := by
  have hnone : ∀ (i : ℕ) (a : Task F E), tasks[i]? = some a → ¬ a.InSwap := by
    intro i a ha hain
    have htaken : m.swapping = true := h.locked i a ha hain
    rw [hfree] at htaken
    contradiction
  refine ⟨?_, fun _ _ _ _ => rfl, ?_, ?_, ?_, h.serving, h.known, ?_⟩
  · intro i j a b ha hb hain hbin
    rcases getElem?_set_cases ha with ⟨rfl, -⟩ | ⟨-, ha⟩
    · rcases getElem?_set_cases hb with ⟨rfl, -⟩ | ⟨-, hb⟩
      · rfl
      · exact absurd hbin (hnone j b hb)
    · exact absurd hain (hnone i a ha)
  · intro i a ha
    rcases getElem?_set_cases ha with ⟨-, rfl⟩ | ⟨-, ha⟩
    · exact h.settled hnone
    · exact phase_of_not_inSwap (hnone i a ha)
  · exact fun _ => h.settled hnone
  · intro i a ha k hk
    rcases getElem?_set_cases ha with ⟨-, rfl⟩ | ⟨-, ha⟩
    · simp [Task.source?] at hk
    · exact h.sources i a ha k hk
  · intro k hk
    rcases h.retired k hk with htake | hput | ⟨i, a, ha, hbuilt⟩ | hdrained
    · exact .inl htake
    · exact .inr (.inl hput)
    · exact absurd (Task.inSwap_of_built? hbuilt) (hnone i a ha)
    · exact .inr (.inr (.inr hdrained))

omit [Scalar F] [Ranked E] in
/-- A step inside a swap leads on in good order. -/
theorem inside {log' : List (Event E)} {ev : Option (Event E)} (h : Orderly log ⟨m, tasks⟩)
    (hplace : tasks[place]? = some task) (hin : task.InSwap) (hlog : log' = ev.toList ++ log)
    (hstep : Inside log log' m m' task task') : Orderly log' ⟨m', tasks.set place task'⟩ := by
  have hothers : ∀ (i : ℕ) (a : Task F E), i ≠ place → tasks[i]? = some a → ¬ a.InSwap :=
    fun i a hne ha hain => hne (h.alone i place a task ha hplace hain hin)
  have hself : (tasks.set place task')[place]? = some task' :=
    List.getElem?_set_self (List.getElem?_eq_some_iff.mp hplace).1
  refine ⟨?_, ?_, ?_, ?_, ?_, hstep.serving h.serving, ?_, ?_⟩
  · intro i j a b ha hb hain hbin
    rcases getElem?_set_cases ha with ⟨rfl, -⟩ | ⟨hne, ha⟩
    · rcases getElem?_set_cases hb with ⟨rfl, -⟩ | ⟨hne, hb⟩
      · rfl
      · exact absurd hbin (hothers j b hne hb)
    · exact absurd hain (hothers i a hne ha)
  · intro i a ha hain
    rcases getElem?_set_cases ha with ⟨-, rfl⟩ | ⟨hne, ha⟩
    · exact (hstep.lock hain).trans (h.locked place task hplace hin)
    · exact absurd hain (hothers i a hne ha)
  · intro i a ha
    rcases getElem?_set_cases ha with ⟨-, rfl⟩ | ⟨hne, ha⟩
    · exact hstep.phase
    · exact phase_of_not_inSwap (hothers i a hne ha)
  · exact fun hnone => hstep.ended (hnone place task' hself)
  · intro i a ha k hk
    rcases getElem?_set_cases ha with ⟨-, rfl⟩ | ⟨-, ha⟩
    · simp [hstep.source] at hk
    · rw [hlog]
      exact (h.sources i a ha k hk).mono ev
  · intro k hk
    have hlength : m.queues.length ≤ m'.queues.length := hstep.length
    rcases hstep.known k hk with hold | hlt
    · exact (h.known k hold).trans_le hlength
    · exact hlt.trans_le hlength
  · have hplaced : ∀ k < m.queues.length, Placed log m task k := by
      intro k hk
      rcases h.retired k hk with htake | hput | ⟨i, a, ha, hbuilt⟩ | hdrained
      · exact .inl htake
      · exact .inr (.inl hput)
      · by_cases hne : i = place
        · subst hne
          obtain rfl := Option.some.inj (ha.symm.trans hplace)
          exact .inr (.inr (.inl hbuilt))
        · exact absurd (Task.inSwap_of_built? hbuilt) (hothers i a hne ha)
      · exact .inr (.inr (.inr hdrained))
    intro k hk
    rcases hstep.placed hplaced k hk with htake | hput | hbuilt | hdrained
    · exact .inl htake
    · exact .inr (.inl hput)
    · exact .inr (.inr (.inl ⟨place, task', hself, hbuilt⟩))
    · exact .inr (.inr (.inr hdrained))

/-- Every step keeps good order. -/
theorem step {t t' : Traffic F E} {ev : Option (Event E)} (h : Orderly log t)
    (haccounts : ∀ k, t.board.contentsAt k + departed k log = entered k log)
    (hstep : Traffic.Step t ev t') : Orderly (ev.toList ++ log) t' := by
  cases hstep with
  | begin m tasks task hfirst => exact h.begin hfirst
  | shutDown m tasks => exact h.shutDown
  | advance m m' tasks now place task task' hplace hstep =>
    by_cases hin : task.InSwap
    · have hinside := inside_of_step? hstep hin place (h.phase place task hplace) h.known haccounts
      exact h.inside hplace hin rfl hinside
    · rcases (Switchboard.effect_of_step? hstep hin).outside with houtside | ⟨c, rfl, hfree, rfl, rfl⟩
      · exact h.outside hplace hin houtside
      · exact h.lock hplace hfree

end Advance

end Orderly

/-- Good order holds at every moment of every run. -/
theorem Traffic.Run.orderly {F E : Type} [Scalar F] [Ranked E] {log : List (Event E)}
    {t : Traffic F E} (h : Run log t) : Orderly log t := by
  induction h with
  | start registry now c m hmade =>
    obtain ⟨q, hqueues, hput, htake, -, -⟩ := Switchboard.of_ofConfig hmade
    refine ⟨by simp, by simp, by simp, fun _ _ => htake.trans hput.symm, by simp, .inl htake, ?_, ?_⟩
    · intro k hk
      rcases hk with rfl | hmoved
      · simp [hqueues]
      · simp at hmoved
    · intro k hk
      simp only [hqueues, List.length_singleton, Nat.lt_one_iff] at hk
      exact .inl (hk.trans htake.symm)
  | step log t t' ev hrun hstep ih => exact ih.step hrun.accounts hstep

end Allotment
