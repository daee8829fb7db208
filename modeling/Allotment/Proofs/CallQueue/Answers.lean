import Allotment.Proofs.CallQueue.Ledger
import Allotment.Proofs.Table

/-!
# What the answers of a switchboard say

A run is recorded together with the tasks as they began, so that what a task has come to can be held
against what it was asked for. In every state of every run what was put in is what was handed out and
what the queues hold, even while elements wait in queues that are not in use any more. Answers are true:
an insertion that ends well has put in its element once, and any other answer means that it has not.

A queue may come into being with elements in it if its constructor makes it so; those that are
registered here build empty queues.
-/

namespace Allotment

variable {F E : Type} [Scalar F] [Ranked E]

/-! ## Queues that come into being empty -/

/-- Whether every queue that a registry builds is empty at first. -/
def Registry.BuildsEmpty (r : Registry F E) : Prop :=
  ∀ now c q, r.build now c = .ok q → q.contents = 0

omit [Scalar F] [Ranked E] in
/-- Queues in order of arrival are empty at first. -/
theorem Registry.buildsEmpty_withFifo : (withFifo : Registry F E).BuildsEmpty := by
  intro now c q h
  unfold build withFifo registerSized Table.adjust at h
  rw [Table.get?_insert] at h
  by_cases hkind : fifoKind = c.kind
  · rw [if_pos hkind] at h
    cases h
    rfl
  · rw [if_neg hkind] at h
    cases h

/-- So are the queues of all registered kinds. -/
theorem Registry.buildsEmpty_withDefaults : (withDefaults : Registry F E).BuildsEmpty := by
  intro now c q h
  by_cases hkind : FairQueue.kind = c.kind
  · unfold build withDefaults registerFull Table.adjust at h
    rw [Table.get?_insert, if_pos hkind] at h
    cases hfair : FairQueue.ofConfig (E := E) c.capacity c.scope c.fair now with
    | error e => simp [hfair, Except.map] at h
    | ok fair =>
      simp only [hfair, Except.map, Except.ok.injEq] at h
      subst h
      cases hranking : DecayRanking.ofConfig c.fair now with
      | error e => simp [FairQueue.ofConfig, hranking, bind, Except.bind] at hfair
      | ok ranking =>
        simp only [FairQueue.ofConfig, hranking, bind, Except.bind] at hfair
        exact Multiset.card_eq_zero.mp (fair.card_contents.trans (FairQueue.of_new hfair).1)
  · refine buildsEmpty_withFifo now c q ?_
    unfold build withDefaults registerFull Table.adjust at h
    rw [Table.get?_insert, if_neg hkind] at h
    exact h

/-- No step changes the registry. -/
theorem Switchboard.registry_step? {m m' : Switchboard F E} {now : ℕ} {task task' : Task F E}
    (h : m.step? now task = some (m', task')) : m'.registry = m.registry := by
  have hoffer : ∀ k e, (m.offerTo now k e).1.registry = m.registry := by
    intro k e
    unfold offerTo
    split <;> rfl
  have htake : ∀ k, (m.takeFrom k).1.registry = m.registry := by
    intro k
    unfold takeFrom
    split <;> rfl
  have hrefuse : ∀ (m : Switchboard F E) counted e, (m.refuse counted e).1.registry = m.registry := by
    intro m counted e
    unfold refuse
    split <;> rfl
  cases task with
  | inserting k e =>
    rw [← hoffer k e]
    simp only [step?] at h
    split at h <;> rename_i hanswer <;> cases h <;> rw [hanswer]
  | offering counted k e =>
    rw [← hoffer k e]
    simp only [step?] at h
    split at h <;> rename_i hanswer <;> rw [hanswer]
    · cases h
      rfl
    · rename_i refused e'
      rw [← hrefuse refused counted e', Option.some.inj h]
  | taking k =>
    rw [← htake k]
    simp only [step?] at h
    split at h <;> rename_i hanswer <;> cases h <;> rw [hanswer]
  | polling k deadline remaining =>
    rw [← htake k]
    simp only [step?] at h
    split at h <;> rename_i hanswer <;> rw [hanswer]
    · cases h
      rfl
    · split at h <;> cases h <;> rfl
  | offer counted e =>
    simp only [step?] at h
    split at h
    · rw [← hrefuse m counted e, Option.some.inj h]
    · cases h
      rfl
  | draining c old new seen =>
    simp only [step?] at h
    split at h
    · cases h
      rfl
    · split at h <;> cases h <;> rfl
  | insert | addOpen | take | poll | swap | swapLocked | swapOpen =>
    simp only [step?] at h
    split at h <;> cases h <;> rfl
  | finished o => cases h
  | _ =>
    cases h
    rfl

omit [Scalar F] [Ranked E] in
/-- A switchboard begins with what its registry has built. -/
theorem Switchboard.contentsAt_ofConfig {registry : Registry F E} {now : ℕ} {c : CallQueueConfig F}
    {m : Switchboard F E} (h : ofConfig registry now c = .ok m) (hempty : m.registry.BuildsEmpty) :
    m.contentsAt 0 = 0 := by
  unfold ofConfig at h
  cases hdrain : c.drain.validate with
  | error e => simp [hdrain, bind, Except.bind] at h
  | ok u =>
    cases hbuild : registry.build now c with
    | error e => simp [hdrain, hbuild, bind, Except.bind] at h
    | ok q =>
      simp only [hdrain, hbuild, bind, Except.bind, pure, Except.pure, Except.ok.injEq] at h
      subst h
      exact hempty now c q hbuild

/-- A step brings nothing in that nobody put in. -/
theorem Switchboard.furnished_event? {m : Switchboard F E} (hempty : m.registry.BuildsEmpty)
    (now place : ℕ) (task : Task F E) : furnished (m.event? now place task).toList = 0 := by
  have hinsertion : ∀ k e, furnished (m.insertion? now place k e).toList = 0 := by
    intro k e
    unfold insertion?
    cases m.queues[k]? with
    | none => rfl
    | some q =>
      simp only [Option.bind_some]
      split <;> rfl
  have hremoval : ∀ k, furnished (m.removal? place k).toList = 0 := by
    intro k
    unfold removal?
    cases (m.takeFrom k).2 <;> rfl
  cases task with
  | inserting k e | offering counted k e => exact hinsertion k e
  | taking k | polling k deadline remaining => exact hremoval k
  | swapOpen c =>
    simp only [event?]
    split
    · rename_i q hdrain hbuild
      simp [furnished, hempty now c q hbuild]
    · rfl
  | _ => rfl

namespace Traffic

/-! ## Recorded runs -/

/-- The histories and the states of the runs, with the tasks as they began. -/
inductive Recorded : List (Event E) → List (Task F E) → Traffic F E → Prop where
  | start (registry : Registry F E) (now : ℕ) (c : CallQueueConfig F) (m : Switchboard F E)
      (hmade : Switchboard.ofConfig registry now c = .ok m) :
      Recorded [.opened 0 (m.contentsAt 0)] [] ⟨m, []⟩
  | step (log : List (Event E)) (begun : List (Task F E)) (t t' : Traffic F E)
      (ev : Option (Event E)) (hrun : Recorded log begun t) (hstep : Step t ev t') :
      Recorded (ev.toList ++ log) (begun ++ t'.tasks.drop t.tasks.length) t'

variable {log : List (Event E)} {begun : List (Task F E)} {t t' : Traffic F E}

/-- A recorded run is a run. -/
theorem Recorded.run (h : Recorded log begun t) : Run log t := by
  induction h with
  | start registry now c m hmade => exact .start registry now c m hmade
  | step log begun t t' ev hrun hstep ih => exact .step log t t' ev ih hstep

/-- Every run can be recorded. -/
theorem Run.exists_recorded (h : Run log t) : ∃ begun, Recorded log begun t := by
  induction h with
  | start registry now c m hmade => exact ⟨[], .start registry now c m hmade⟩
  | step log t t' ev hrun hstep ih =>
    obtain ⟨begun, hrecorded⟩ := ih
    exact ⟨_, .step log begun t t' ev hrecorded hstep⟩

omit [Scalar F] in
/-- What is so of a history and the tasks at the end of a recorded run. -/
structure Accounted (log : List (Event E)) (begun tasks : List (Task F E)) : Prop where
  length : begun.length = tasks.length
  ledger : ∀ (place : ℕ) (first task : Task F E), begun[place]? = some first →
    tasks[place]? = some task → Ledger first task (insertedBy place log) (removedBy place log)
  beyond : ∀ place, tasks.length ≤ place → insertedBy place log = [] ∧ removedBy place log = []
  handed : (tasks.map fun task => (task.handed : Multiset E)).sum = departures log

omit [Scalar F] in
/-- A task that begins has a ledger of its own. -/
theorem Accounted.begin {tasks : List (Task F E)} (h : Accounted log begun tasks) {task : Task F E}
    (hfirst : task.IsFirst) : Accounted log (begun ++ [task]) (tasks ++ [task]) := by
  refine ⟨by simp [h.length], ?_, ?_, ?_⟩
  · intro place first current hbegun hcurrent
    rcases getElem?_append_singleton_cases hcurrent with hold | ⟨rfl, rfl⟩
    · have hlt := (List.getElem?_eq_some_iff.mp hold).1
      rw [List.getElem?_append_left (h.length ▸ hlt)] at hbegun
      exact h.ledger place first current hbegun hold
    · rw [← h.length, List.getElem?_concat_length] at hbegun
      obtain rfl : current = first := Option.some.inj hbegun
      obtain ⟨hins, houts⟩ := h.beyond tasks.length (Nat.le_refl _)
      rw [hins, houts]
      exact .of_isFirst hfirst
  · intro place hplace
    exact h.beyond place (by simp at hplace; omega)
  · have hnone : task.handed = [] := (Ledger.of_isFirst hfirst).handed_eq
    simp [h.handed, hnone]

/-- A task that goes on adds to its own ledger only. -/
theorem Accounted.advance {tasks : List (Task F E)} (h : Accounted log begun tasks)
    {m m' : Switchboard F E} {now place : ℕ} {task task' : Task F E}
    (hplace : tasks[place]? = some task) (hstep : m.step? now task = some (m', task')) :
    Accounted ((m.event? now place task).toList ++ log) begun (tasks.set place task') := by
  have hisBy := m.isBy_event? now place task
  have hlt := (List.getElem?_eq_some_iff.mp hplace).1
  have hfirst := List.getElem?_eq_getElem (h.length.symm ▸ hlt : place < begun.length)
  have hbefore := h.ledger place _ task hfirst hplace
  have hafter := hbefore.step hstep place
  refine ⟨by simpa using h.length, ?_, ?_, ?_⟩
  · intro other first current hbegun hcurrent
    rw [insertedBy_append, removedBy_append]
    rcases getElem?_set_cases hcurrent with ⟨rfl, rfl⟩ | ⟨hother, hcurrent⟩
    · rw [← Option.some.inj (hfirst.symm.trans hbegun)]
      exact hafter
    · obtain ⟨hins, houts⟩ := insertedBy_of_isBy hisBy hother.symm
      rw [hins, houts]
      exact h.ledger other first current hbegun hcurrent
  · intro other hbeyond
    rw [List.length_set] at hbeyond
    obtain ⟨hins, houts⟩ := insertedBy_of_isBy hisBy (by omega : place ≠ other)
    rw [insertedBy_append, removedBy_append, hins, houts]
    exact h.beyond other hbeyond
  · -- What the task hands out now is what it took out just now, and it took out nothing before.
    have hset := sum_map_set (fun task : Task F E => (task.handed : Multiset E)) tasks place task task'
      hplace
    rw [hbefore.handed_eq, hafter.handed_eq, h.handed, ← Multiset.coe_add,
      ← departures_of_isBy hisBy, ← add_assoc] at hset
    have hsum := add_right_cancel hset
    rw [hsum, departures, departures, departures, List.map_append, List.sum_append, add_comm]

omit [Scalar F] [Ranked E] in
/-- No task begins where one goes on. -/
theorem drop_length_set (tasks : List (Task F E)) (place : ℕ) (task : Task F E) :
    (tasks.set place task).drop tasks.length = [] :=
  List.drop_eq_nil_of_le (by rw [List.length_set])

/-- Every recorded run is accounted for. -/
theorem Recorded.accounted (h : Recorded log begun t) : Accounted log begun t.tasks := by
  induction h with
  | start registry now c m hmade =>
    exact ⟨rfl, by simp, fun _ _ => ⟨rfl, rfl⟩, rfl⟩
  | step log begun t t' ev hrun hstep ih =>
    cases hstep with
    | begin m tasks task hfirst => simpa using ih.begin hfirst
    | advance m m' tasks now place task task' hplace hadvance =>
      rw [drop_length_set, List.append_nil]
      exact ih.advance hplace hadvance
    | shutDown m tasks => simpa using ih

/-- As long as queues are empty at first, no element is there that was not put in. -/
theorem Recorded.furnished_eq_zero (h : Recorded log begun t)
    (hempty : t.board.registry.BuildsEmpty) : furnished log = 0 := by
  induction h with
  | start registry now c m hmade =>
    simp [furnished, Switchboard.contentsAt_ofConfig hmade hempty]
  | step log begun t t' ev hrun hstep ih =>
    have hmore : ∀ later : List (Event E), furnished (later ++ log) = furnished later + furnished log := by
      intro later
      simp [furnished]
    cases hstep with
    | begin | shutDown => exact ih hempty
    | advance m m' tasks now place task task' hplace hadvance =>
      rw [Switchboard.registry_step? hadvance] at hempty
      rw [hmore, Switchboard.furnished_event? hempty, ih hempty, add_zero]

/-- At every moment of every run, what was put in, and what queues held when they came into being, is
what was handed out and what all queues ever built hold. An insertion that ends well has put in its
element once, and one that is refused, fails or has not ended has put in nothing; no other task has put
in anything. A task has taken out exactly what it hands out. -/
theorem Recorded.answers_true (h : Recorded log begun t) :
    insertions log + furnished log = (t.tasks.map fun task => (task.handed : Multiset E)).sum +
      ∑ k ∈ Finset.range t.board.queues.length, t.board.contentsAt k ∧
    (t.board.registry.BuildsEmpty → furnished log = 0) ∧
    begun.length = t.tasks.length ∧
    (∀ (place : ℕ) (first task : Task F E), begun[place]? = some first → t.tasks[place]? = some task →
      (∀ e, first.carried? = some e →
        (task = .finished .done ∧ ∃ e', SameButLevel e e' ∧ insertedBy place log = [e']) ∨
        ((task.carried?.isSome ∨ task = .finished (.failed .shutdown) ∨
          task = .finished (.failed .queueOverflow) ∨
          ∃ e', SameButLevel e e' ∧ task = .finished (.refused e')) ∧ insertedBy place log = [])) ∧
      (first.carried? = none → insertedBy place log = []) ∧ removedBy place log = task.handed) ∧
    ∀ place, t.tasks.length ≤ place → insertedBy place log = [] ∧ removedBy place log = [] := by
  have haccounted := h.accounted
  refine ⟨?_, h.furnished_eq_zero, haccounted.length, ?_, haccounted.beyond⟩
  · rw [← arrivals_eq_insertions_add, haccounted.handed]
    exact h.run.arrivals_eq
  · intro place first task hfirst htask
    have hledger := haccounted.ledger place first task hfirst htask
    exact ⟨fun e he => hledger.inserts he, hledger.inserts_nothing, hledger.handed_eq.symm⟩

/-- A recorded run goes on with the tasks that can go on. -/
theorem Recorded.goOn {s : List (Event E) × Traffic F E} (h : Recorded s.1 begun s.2) (now : ℕ)
    (places : List ℕ) :
    Recorded (places.foldl (advance now) s).1 begun (places.foldl (advance now) s).2 := by
  refine List.foldlRecOn (motive := fun s => Recorded s.1 begun s.2) places (advance now) h ?_
  intro s hs place _
  unfold advance
  split
  · exact hs
  · rename_i task hplace
    split
    · exact hs
    · rename_i m task' hstep
      have hnext := Recorded.step s.1 begun s.2 _ _ hs
        (.advance s.2.board m s.2.tasks now place task task' hplace hstep)
      rw [drop_length_set, List.append_nil] at hnext
      exact hnext

/-- Two insertions where there is space for one element. -/
def crowded : List (Event String) × Traffic Float String :=
  narrowRun [.put "first", .offer false "second"] [0, 0, 0, 1, 1, 1]

/-- The first insertion ends well and the second one is refused. -/
theorem answers_true_of_crowded :
    Recorded crowded.1 [.put "first", .offer false "second"] crowded.2 ∧
      crowded.2.board.registry.BuildsEmpty ∧ insertedBy 0 crowded.1 = ["first"] ∧
      insertedBy 1 crowded.1 = [] := by
  have hstart : Recorded [.opened 0 (narrowBoard.contentsAt 0)] [] ⟨narrowBoard, []⟩ :=
    .start .withFifo 0 narrow narrowBoard rfl
  have hfirst := Recorded.step _ _ _ _ _ hstart (.begin narrowBoard [] (.put "first") trivial)
  have hsecond := Recorded.step _ _ _ _ _ hfirst
    (.begin narrowBoard [.put "first"] (.offer false "second") trivial)
  have hrun : Recorded crowded.1 [.put "first", .offer false "second"] crowded.2 :=
    Recorded.goOn (s := ([.opened 0 0], ⟨narrowBoard, [.put "first", .offer false "second"]⟩)) hsecond 0
      [0, 0, 0, 1, 1, 1]
  obtain ⟨-, -, -, hplaces, -⟩ := hrun.answers_true
  refine ⟨hrun, Registry.buildsEmpty_withFifo, ?_, ?_⟩
  · obtain ⟨-, e', hsame, hinserted⟩ | ⟨hother, -⟩ :=
      (hplaces 0 (.put "first") (.finished .done) rfl rfl).1 "first" rfl
    · obtain rfl : e' = "first" := hsame String id fun _ _ => rfl
      exact hinserted
    · simp [Task.carried?] at hother
  · obtain ⟨hdone, -⟩ | ⟨-, hinserted⟩ :=
      (hplaces 1 (.offer false "second") (.finished (.refused "second")) rfl rfl).1 "second" rfl
    · simp at hdone
    · exact hinserted

end Traffic

end Allotment
