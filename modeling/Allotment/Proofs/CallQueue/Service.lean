import Allotment.Proofs.CallQueue.Answers
import Allotment.Proofs.Metrics

/-!
# What a swap leaves behind

A swap may end at several points. If it is refused before its new queue is built, nothing has changed. If
the switchboard is shut down while the old queue is drained, new calls go to the new queue already and
calls are still taken from the old one. If it ends well, both references name the new queue. In between
only the swap itself changes the references and the settings, because it keeps other swaps waiting.
-/

namespace Allotment

/-- What a swap is to change: where new calls go and where calls are taken from, how those who make calls
are treated and how long they wait, and how many swaps have been counted. -/
structure Service where
  putRef : ℕ
  takeRef : ℕ
  clientBackoff : Bool
  pollMs : ℕ
  swapCount : UInt64

namespace Service

/-- New calls go to another queue. -/
def sendTo (s : Service) (new : ℕ) : Service := { s with putRef := new }

/-- Calls are taken from another queue. -/
def takeFrom (s : Service) (new : ℕ) : Service := { s with takeRef := new }

/-- Calls are treated as a configuration says. -/
def tune {F : Type} (s : Service) (c : CallQueueConfig F) : Service :=
  { s with clientBackoff := c.clientBackoff, pollMs := c.pollIntervalMs }

/-- One more swap is counted. -/
def count (s : Service) : Service := { s with swapCount := Amount.plus s.swapCount 1 }

end Service

namespace Switchboard

variable {F E : Type}

/-- The service of a switchboard. -/
def service (m : Switchboard F E) : Service where
  putRef := m.putRef
  takeRef := m.takeRef
  clientBackoff := m.clientBackoff
  pollMs := m.pollMs
  swapCount := (m.metrics.counter? m.scope "swaps").getD 0

/-- Counting an overflow does not concern the service. -/
theorem service_refuse (m : Switchboard F E) (counted : Bool) (e : E) :
    (m.refuse counted e).1.service = m.service := by
  unfold refuse
  split
  · simp [service, Metrics.counter?_increment]
  · rfl

/-- Taking an element does not concern the service. -/
theorem service_takeFrom (m : Switchboard F E) (k : ℕ) : (m.takeFrom k).1.service = m.service := by
  unfold takeFrom
  split <;> rfl

variable [Scalar F] [Ranked E]

/-- Offering an element does not concern the service. -/
theorem service_offerTo (m : Switchboard F E) (now k : ℕ) (e : E) :
    (m.offerTo now k e).1.service = m.service := by
  unfold offerTo
  split <;> rfl

variable {m m' : Switchboard F E} {now : ℕ} {task task' : Task F E}

/-- A step outside a swap does not concern the service. -/
theorem service_of_step? (h : m.step? now task = some (m', task')) (hout : ¬ task.InSwap) :
    m'.service = m.service := by
  cases task with
  | inserting k e =>
    rw [← m.service_offerTo now k e]
    simp only [step?] at h
    split at h <;> rename_i hanswer <;> cases h <;> rw [hanswer]
  | offering counted k e =>
    rw [← m.service_offerTo now k e]
    simp only [step?] at h
    split at h <;> rename_i hanswer <;> rw [hanswer]
    · cases h
      rfl
    · rename_i refused e'
      rw [← refused.service_refuse counted e', Option.some.inj h]
  | taking k =>
    rw [← m.service_takeFrom k]
    simp only [step?] at h
    split at h <;> rename_i hanswer <;> cases h <;> rw [hanswer]
  | polling k deadline remaining =>
    rw [← m.service_takeFrom k]
    simp only [step?] at h
    split at h <;> rename_i hanswer <;> rw [hanswer]
    · cases h
      rfl
    · split at h <;> cases h <;> rfl
  | offer counted e =>
    simp only [step?] at h
    split at h
    · rw [← m.service_refuse counted e, Option.some.inj h]
    · cases h
      rfl
  | insert | addOpen | take | poll | swap =>
    simp only [step?] at h
    split at h <;> cases h <;> rfl
  | finished o => cases h
  | put | offerOpen | add | takeOpen | pollOpen =>
    cases h
    rfl
  | _ => exact absurd trivial hout

/-- No step of a swap touches a queue that is there. -/
theorem queues_prefix_of_step? (h : m.step? now task = some (m', task')) (hin : task.InSwap) :
    m.queues <+: m'.queues := by
  cases swapEffect_of_step? h hin 0 with
  | quiet hqueues | moved _ hqueues => rw [hqueues]
  | opened q hqueues =>
    rw [hqueues]
    exact List.prefix_append _ _

/-- The last step of a swap touches no queue and builds none. -/
theorem queues_eq_of_last_step {o : Outcome E} (h : m.step? now task = some (m', .finished o))
    (hin : task.InSwap) : m'.queues = m.queues := by
  cases task with
  | swapLocked | swapOpen =>
    simp only [step?] at h
    split at h <;> cases h <;> rfl
  | draining =>
    simp only [step?] at h
    split at h
    · cases h
    · split at h <;> cases h
      rfl
  | swapCount =>
    cases h
    rfl
  | swapBuilt | swapPut | swapKnobs | sleeping | swapTake => cases h
  | _ => exact hin.elim

end Switchboard

/-! ## How far a swap has come -/

section Progress

variable {F E : Type} [Scalar F] {c : CallQueueConfig F} {m₀ m m' : Switchboard F E}
  {since : List (Event E)} {new : ℕ}

/-- Whether a queue has been built from a valid configuration and put behind all others. -/
structure Built (c : CallQueueConfig F) (m₀ : Switchboard F E) (since : List (Event E)) (new : ℕ) :
    Prop where
  place : new = m₀.queues.length
  valid : c.drain.validate = .ok ()
  made : ∃ now q, m₀.registry.build now c = .ok q ∧ .opened new q.contents ∈ since

/-- What a swap has done to the service of a switchboard at each point. -/
def Progress (c : CallQueueConfig F) (m₀ : Switchboard F E) (since : List (Event E))
    (m : Switchboard F E) : Task F E → Prop
  | .swapLocked c' | .swapOpen c' =>
    c' = c ∧ m.service = m₀.service ∧ m.queues.length = m₀.queues.length
  | .swapBuilt c' new => c' = c ∧ m.service = m₀.service ∧ Built c m₀ since new
  | .swapPut c' _ new => c' = c ∧ m.service = m₀.service ∧ Built c m₀ since new
  | .swapKnobs c' _ new => c' = c ∧ m.service = m₀.service.sendTo new ∧ Built c m₀ since new
  | .draining c' _ new _ | .sleeping c' _ new _ =>
    c' = c ∧ m.service = (m₀.service.sendTo new).tune c ∧ Built c m₀ since new
  | .swapTake new => m.service = (m₀.service.sendTo new).tune c ∧ Built c m₀ since new
  | .swapCount => ∃ new, m.service = ((m₀.service.sendTo new).tune c).takeFrom new ∧ Built c m₀ since new
  | _ => False

omit [Scalar F] in
/-- What has been built stays built. -/
theorem Built.mono (h : Built c m₀ since new) (later : List (Event E)) :
    Built c m₀ (later ++ since) new := by
  obtain ⟨now, q, hbuild, hopened⟩ := h.made
  exact ⟨h.place, h.valid, now, q, hbuild, List.mem_append_right _ hopened⟩

omit [Scalar F] in
/-- A swap keeps its progress while others leave the service and the number of queues alone. -/
theorem Progress.mono {task : Task F E} (h : Progress c m₀ since m task)
    (hservice : m'.service = m.service) (hlength : m'.queues.length = m.queues.length)
    (later : List (Event E)) : Progress c m₀ (later ++ since) m' task := by
  cases task with
  | swapLocked | swapOpen =>
    obtain ⟨hc, hsame, hqueues⟩ := h
    exact ⟨hc, hservice.trans hsame, hlength.trans hqueues⟩
  | swapBuilt | swapPut | swapKnobs | draining | sleeping =>
    obtain ⟨hc, hsame, hbuilt⟩ := h
    exact ⟨hc, hservice.trans hsame, hbuilt.mono later⟩
  | swapTake new => exact ⟨hservice.trans h.1, h.2.mono later⟩
  | swapCount =>
    obtain ⟨new, hsame, hbuilt⟩ := h
    exact ⟨new, hservice.trans hsame, hbuilt.mono later⟩
  | _ => exact h.elim

variable [Ranked E] {now : ℕ} {task task' : Task F E}

/-- A swap makes progress with each of its own steps but the last. -/
theorem Progress.step (h : Progress c m₀ since m task) (hregistry : m.registry = m₀.registry)
    (hstep : m.step? now task = some (m', task')) (hin : task'.InSwap) (place : ℕ) :
    Progress c m₀ ((m.event? now place task).toList ++ since) m' task' := by
  cases task with
  | swapLocked c' =>
    simp only [Switchboard.step?] at hstep
    split at hstep <;> cases hstep
    · exact hin.elim
    · exact h
  | swapOpen c' =>
    obtain ⟨rfl, hservice, hlength⟩ := h
    simp only [Switchboard.step?] at hstep
    split at hstep
    · cases hstep
      exact hin.elim
    · cases hstep
      exact hin.elim
    · rename_i q hdrain hbuild
      cases hstep
      rw [hregistry] at hbuild
      refine ⟨rfl, hservice, hlength, hdrain, now, q, hbuild, ?_⟩
      simp [Switchboard.event?, hdrain, hregistry, hbuild]
  | swapBuilt c' new =>
    cases hstep
    exact h
  | swapPut c' old new =>
    cases hstep
    obtain ⟨rfl, hservice, hbuilt⟩ := h
    exact ⟨rfl, congrArg (Service.sendTo · new) hservice, hbuilt.mono _⟩
  | swapKnobs c' old new =>
    cases hstep
    obtain ⟨rfl, hservice, hbuilt⟩ := h
    exact ⟨rfl, congrArg (Service.tune · c') hservice, hbuilt⟩
  | draining c' old new seen =>
    simp only [Switchboard.step?] at hstep
    split at hstep
    · cases hstep
      exact h.2
    · split at hstep <;> cases hstep
      · exact hin.elim
      · exact h
  | sleeping c' old new seen =>
    cases hstep
    obtain ⟨hc, hservice, hbuilt⟩ := h
    exact ⟨hc, hservice, hbuilt.mono _⟩
  | swapTake new =>
    cases hstep
    obtain ⟨hservice, hbuilt⟩ := h
    exact ⟨new, congrArg (Service.takeFrom · new) hservice, hbuilt.mono _⟩
  | swapCount =>
    cases hstep
    exact hin.elim
  | _ => exact h.elim

/-- How a swap ends that took the lock at one switchboard, by the last step that it takes. -/
inductive SwapEnd (c : CallQueueConfig F) (m₀ : Switchboard F E) (since : List (Event E))
    (m' : Switchboard F E) : Task F E → Outcome E → Prop where
  /-- The switchboard was shut down already, and nothing has changed. -/
  | shutBefore (hshut : m'.shutdown = true) (hservice : m'.service = m₀.service)
      (hqueues : m'.queues.length = m₀.queues.length) :
      SwapEnd c m₀ since m' (.swapLocked c) (.failed .shutdown)
  /-- The configuration is not valid or no queue can be built from it, and nothing has changed. -/
  | refused (e : Error) (hcause : c.drain.validate = .error e ∨ ∃ now, m₀.registry.build now c = .error e)
      (hservice : m'.service = m₀.service) (hqueues : m'.queues.length = m₀.queues.length) :
      SwapEnd c m₀ since m' (.swapOpen c) (.failed e)
  /-- The switchboard was shut down during the drain, and calls are still taken from the old queue. -/
  | interrupted (old new seen : ℕ) (hshut : m'.shutdown = true) (hold : m'.takeRef = old)
      (hbuilt : Built c m₀ since new) (hservice : m'.service = (m₀.service.sendTo new).tune c) :
      SwapEnd c m₀ since m' (.draining c old new seen) (.failed .shutdown)
  /-- The swap has been made and counted. -/
  | completed (new : ℕ) (hbuilt : Built c m₀ since new)
      (hservice : m'.service = (((m₀.service.sendTo new).tune c).takeFrom new).count) :
      SwapEnd c m₀ since m' .swapCount .done

/-- A swap ends as far as it has come. -/
theorem Progress.ends {log : List (Event E)} (h : Progress c m₀ since m task)
    (hphase : Phase log m task) (hregistry : m.registry = m₀.registry) {o : Outcome E}
    (hstep : m.step? now task = some (m', .finished o)) :
    SwapEnd c m₀ since m' task o := by
  cases task with
  | swapLocked c' =>
    obtain ⟨rfl, hservice, hlength⟩ := h
    simp only [Switchboard.step?] at hstep
    split at hstep
    · rename_i hshut
      cases hstep
      exact .shutBefore hshut hservice hlength
    · cases hstep
  | swapOpen c' =>
    obtain ⟨rfl, hservice, hlength⟩ := h
    simp only [Switchboard.step?, hregistry] at hstep
    split at hstep
    · rename_i hdrain
      cases hstep
      exact .refused _ (.inl hdrain) hservice hlength
    · rename_i hdrain hbuild
      cases hstep
      exact .refused _ (.inr ⟨now, hbuild⟩) hservice hlength
    · cases hstep
  | draining c' old new seen =>
    obtain ⟨rfl, hservice, hbuilt⟩ := h
    simp only [Switchboard.step?] at hstep
    split at hstep
    · cases hstep
    · split at hstep
      · rename_i hshut
        cases hstep
        exact .interrupted old new seen hshut hphase.takeRef hbuilt hservice
      · cases hstep
  | swapCount =>
    obtain ⟨new, hservice, hbuilt⟩ := h
    cases hstep
    refine .completed new hbuilt ?_
    rw [← hservice]
    simp [Switchboard.service, Service.count, Metrics.counter?_increment]
  | swapBuilt | swapPut | swapKnobs | sleeping | swapTake => cases hstep
  | _ => exact h.elim

end Progress

/-! ## Swaps in a run -/

namespace Traffic

variable {F E : Type} [Scalar F] [Ranked E]

/-- The histories and the states from the moment when the swap at a place takes the lock until its last
step is due. -/
inductive Swapping (place : ℕ) (c : CallQueueConfig F) (t₀ : Traffic F E) :
    List (Event E) → Traffic F E → Prop where
  | lock (now : ℕ) (m : Switchboard F E) (task : Task F E) (hplace : t₀.tasks[place]? = some (.swap c))
      (hstep : t₀.board.step? now (.swap c) = some (m, task)) :
      Swapping place c t₀ [] ⟨m, t₀.tasks.set place task⟩
  | step (since : List (Event E)) (t t' : Traffic F E) (ev : Option (Event E))
      (h : Swapping place c t₀ since t) (hstep : Step t ev t')
      (hin : ∀ task, t'.tasks[place]? = some task → task.InSwap) :
      Swapping place c t₀ (ev.toList ++ since) t'

variable {place : ℕ} {c : CallQueueConfig F} {log since : List (Event E)} {t₀ t : Traffic F E}

/-- What happens while a swap is at work is part of the run. -/
theorem Swapping.run (hs : Swapping place c t₀ since t) (h : Run log t₀) : Run (since ++ log) t := by
  induction hs with
  | lock now m task hplace hstep =>
    exact .step log t₀ _ none h (.advance t₀.board m t₀.tasks now place _ task hplace hstep)
  | step since t t' ev hs hstep hin ih =>
    rw [List.append_assoc]
    exact .step _ t t' ev ih hstep

/-- A swap goes on with a step of its own. -/
theorem Swapping.goOn (hs : Swapping place c t₀ since t) (now : ℕ) {m : Switchboard F E} {task task' : Task F E}
    (hplace : t.tasks[place]? = some task) (hstep : t.board.step? now task = some (m, task'))
    (hin : task'.InSwap) :
    Swapping place c t₀ ((t.board.event? now place task).toList ++ since)
      ⟨m, t.tasks.set place task'⟩ := by
  refine .step since t _ _ hs (.advance t.board m t.tasks now place task task' hplace hstep) ?_
  intro other hother
  obtain ⟨-, rfl⟩ | ⟨hne, -⟩ := getElem?_set_cases hother
  · exact hin
  · exact absurd rfl hne

/-- From the moment when it takes the lock a swap makes progress, and no other task disturbs it. -/
theorem Swapping.progress (hs : Swapping place c t₀ since t) (h : Run log t₀) :
    t.board.registry = t₀.board.registry ∧ ∃ task, t.tasks[place]? = some task ∧ task.InSwap ∧
      Progress c t₀.board since t.board task := by
  induction hs with
  | lock now m task hplace hstep =>
    refine ⟨Switchboard.registry_step? hstep, .swapLocked c, ?_⟩
    have hlt := (List.getElem?_eq_some_iff.mp hplace).1
    simp only [Switchboard.step?] at hstep
    split at hstep
    · cases hstep
    · cases hstep
      exact ⟨List.getElem?_set_self hlt, trivial, rfl, rfl, rfl⟩
  | step since t t' ev hs hstep hin ih =>
    obtain ⟨hregistry, task, hplace, htask, hprogress⟩ := ih
    have horderly := (hs.run h).orderly
    cases hstep with
    | begin m tasks other hfirst =>
      have hlt := (List.getElem?_eq_some_iff.mp hplace).1
      refine ⟨hregistry, task, ?_, htask, hprogress⟩
      exact (List.getElem?_append_left hlt).trans hplace
    | shutDown m tasks => exact ⟨hregistry, task, hplace, htask, hprogress.mono rfl rfl []⟩
    | advance m m' tasks now other task₁ task' hother hadvance =>
      have hregistry' := (Switchboard.registry_step? hadvance).trans hregistry
      by_cases hsame : other = place
      · subst hsame
        obtain rfl : task₁ = task := Option.some.inj (hother.symm.trans hplace)
        have hself : (tasks.set other task')[other]? = some task' :=
          List.getElem?_set_self (List.getElem?_eq_some_iff.mp hother).1
        have hgoes := hin task' hself
        exact ⟨hregistry', task', hself, hgoes, hprogress.step hregistry hadvance hgoes other⟩
      · have hout : ¬ task₁.InSwap :=
          fun hinside => hsame (horderly.alone other place task₁ task hother hplace hinside htask)
        -- The lock is taken, so no other swap begins.
        obtain houtside | ⟨c', rfl, hfree, -, -⟩ := (Switchboard.effect_of_step? hadvance hout).outside
        · refine ⟨hregistry', task, ?_, htask, ?_⟩
          · exact (List.getElem?_set_ne hsame).trans hplace
          · exact hprogress.mono (Switchboard.service_of_step? hadvance hout) houtside.length _
        · have hlocked := horderly.locked place task hplace htask
          rw [hfree] at hlocked
          contradiction

/-- A swap at work has put nothing into queues and taken nothing out of them. -/
theorem Swapping.handless (hs : Swapping place c t₀ since t) (h : Run log t₀) :
    insertedBy place since = [] ∧ removedBy place since = [] := by
  obtain ⟨-, task, hplace, htask, -⟩ := hs.progress h
  obtain ⟨begun, hrecorded⟩ := (hs.run h).exists_recorded
  have haccounted := hrecorded.accounted
  have hlt : place < begun.length := by
    rw [haccounted.length]
    exact (List.getElem?_eq_some_iff.mp hplace).1
  have hledger := haccounted.ledger place _ task (List.getElem?_eq_getElem hlt) hplace
  have hnone : insertedBy place (since ++ log) = [] ∧ removedBy place (since ++ log) = [] := by
    revert hledger
    generalize insertedBy place (since ++ log) = ins
    generalize removedBy place (since ++ log) = outs
    intro hledger
    cases hledger <;> first | exact ⟨rfl, rfl⟩ | exact htask.elim
  rw [insertedBy_append, removedBy_append, List.append_eq_nil_iff, List.append_eq_nil_iff] at hnone
  exact ⟨hnone.1.1, hnone.2.1⟩

/-- Over the time of a swap the contents of every queue change by what has come in and gone out. -/
theorem Swapping.contentsAt (hs : Swapping place c t₀ since t) (h : Run log t₀) (k : ℕ) :
    t.board.contentsAt k + departed k since = t₀.board.contentsAt k + entered k since := by
  have hbefore := h.accounts k
  have hafter := (hs.run h).accounts k
  rw [entered_append, departed_append, ← hbefore, ← add_assoc, ← add_assoc] at hafter
  rw [add_right_cancel hafter, add_comm]

/-- In every state of every run in which no swap is at work, the switchboard is shut down or both
references name one queue. No step of a swap touches a queue that is there. When a swap has taken its last
step, it has been refused and the service and the number of queues are what they were when it took the
lock, or it has been interrupted during the drain or completed, each with its own new service. In the
meantime it has put nothing into queues and taken nothing out of them, and what they hold has changed by
what others have put in and taken out. -/
theorem Run.swap_ends_cleanly (h : Run log t₀) :
    ((∀ task ∈ t₀.tasks, ¬ task.InSwap) →
      t₀.board.shutdown = true ∨ t₀.board.putRef = t₀.board.takeRef) ∧
    (∀ (m m' : Switchboard F E) now task task', m.step? now task = some (m', task') → task.InSwap →
      m.queues <+: m'.queues) ∧
    ∀ place c since t task now m' o, Swapping place c t₀ since t → t.tasks[place]? = some task →
      t.board.step? now task = some (m', .finished o) →
      SwapEnd c t₀.board since m' task o ∧ insertedBy place since = [] ∧ removedBy place since = [] ∧
        ∀ k, m'.contentsAt k + departed k since = t₀.board.contentsAt k + entered k since := by
  refine ⟨?_, fun m m' now task task' hstep hin => Switchboard.queues_prefix_of_step? hstep hin, ?_⟩
  · intro hnone
    cases hshut : t₀.board.shutdown with
    | true => exact .inl rfl
    | false =>
      have hsettled := h.orderly.settled
        (fun i a ha => hnone a (List.mem_of_getElem? ha)) hshut
      exact .inr hsettled.symm
  · intro place c since t task now m' o hs hplace hstep
    obtain ⟨hregistry, task', hplace', hin, hprogress⟩ := hs.progress h
    obtain rfl : task = task' := Option.some.inj (hplace.symm.trans hplace')
    have hphase := (hs.run h).orderly.phase place task hplace
    have hends := hprogress.ends hphase hregistry hstep
    obtain ⟨hins, houts⟩ := hs.handless h
    refine ⟨hends, hins, houts, fun k => ?_⟩
    rw [Switchboard.contentsAt_congr (Switchboard.queues_eq_of_last_step hstep hin)]
    exact hs.contentsAt h k

/-- A switchboard with an element in its queue, and a swap that is to begin. -/
def aboutToSwap : List (Event String) × Traffic Float String :=
  narrowRun [.offer false "call", .swap narrow] [0, 0, 0]

/-- The swap sends new calls to its new queue and waits for the old one to be empty. When the switchboard is
shut down then, calls are still taken from the old queue. -/
theorem swap_ends_cleanly_of_aboutToSwap :
    Run aboutToSwap.1 aboutToSwap.2 ∧ ∃ since t m', Swapping 1 narrow aboutToSwap.2 since t ∧
      t.tasks[1]? = some (.draining narrow 0 1 0) ∧
      t.board.step? 0 (.draining narrow 0 1 0) = some (m', .finished (.failed .shutdown)) ∧
      m'.service.putRef = 1 ∧ m'.service.takeRef = 0 ∧ removedBy 1 since = [] := by
  have hrun : Run aboutToSwap.1 aboutToSwap.2 := by
    refine run_narrowRun _ ?_ _
    simp [Task.IsFirst]
  have hlocked : Swapping 1 narrow aboutToSwap.2 _ _ := .lock 0 _ _ rfl rfl
  have hopen := hlocked.goOn 0 rfl rfl trivial
  have hbuilt := hopen.goOn 0 rfl rfl trivial
  have hput := hbuilt.goOn 0 rfl rfl trivial
  have hknobs := hput.goOn 0 rfl rfl trivial
  have hdraining := hknobs.goOn 0 rfl rfl trivial
  have hshut := Swapping.step _ _ _ none hdraining (.shutDown _ _) fun task htask => by
    obtain rfl := Option.some.inj htask
    trivial
  obtain ⟨-, -, hends⟩ := hrun.swap_ends_cleanly
  obtain ⟨hend, -, houts, -⟩ := hends 1 narrow _ _ (.draining narrow 0 1 0) 0 _ _ hshut rfl rfl
  refine ⟨hrun, _, _, _, hshut, rfl, rfl, ?_, ?_, houts⟩
  · cases hend with
    | interrupted old new seen hshut hold hbuilt hservice => rw [hservice]; rfl
  · cases hend with
    | interrupted old new seen hshut hold hbuilt hservice => rw [hservice]; rfl

end Traffic

end Allotment
