import Allotment.Proofs.CallQueue.Run

/-!
# What one step comes to

A step of a task outside a swap leaves both references and both locks alone. It changes no queue, or
tries to insert an element into one queue, or tries to take an element out of one; the only other
step is the one that begins a swap. A step inside a swap builds a queue, or makes it the one from
which calls are taken, or changes neither the queues nor where calls are taken from.
-/

namespace Allotment

namespace Switchboard

variable {F E : Type}

/-- Whether a switchboard has the references and the locks of another. -/
structure Keeps (m' m : Switchboard F E) : Prop where
  putRef : m'.putRef = m.putRef
  takeRef : m'.takeRef = m.takeRef
  swapping : m'.swapping = m.swapping
  shutdown : m'.shutdown = m.shutdown

/-- A switchboard keeps its own references and locks. -/
theorem Keeps.refl (m : Switchboard F E) : m.Keeps m := ⟨rfl, rfl, rfl, rfl⟩

/-- What is kept twice is kept. -/
theorem Keeps.trans {m'' m' m : Switchboard F E} (h' : m''.Keeps m') (h : m'.Keeps m) : m''.Keeps m :=
  ⟨h'.putRef.trans h.putRef, h'.takeRef.trans h.takeRef, h'.swapping.trans h.swapping,
    h'.shutdown.trans h.shutdown⟩

variable [Scalar F] [Ranked E]

omit [Scalar F] [Ranked E] in
/-- The switchboard of a configuration has one queue, and both references name it. -/
theorem of_ofConfig {registry : Registry F E} {now : ℕ} {c : CallQueueConfig F}
    {m : Switchboard F E} (h : ofConfig registry now c = .ok m) :
    ∃ q, m.queues = [q] ∧ m.putRef = 0 ∧ m.takeRef = 0 ∧ m.swapping = false ∧
      m.shutdown = false := by
  unfold ofConfig at h
  cases hdrain : c.drain.validate with
  | error e => simp [hdrain, bind, Except.bind] at h
  | ok u =>
    cases hbuild : registry.build now c with
    | error e => simp [hdrain, hbuild, bind, Except.bind] at h
    | ok q =>
      simp only [hdrain, hbuild, bind, Except.bind, pure, Except.pure, Except.ok.injEq] at h
      subst h
      exact ⟨q, rfl, rfl, rfl, rfl, rfl⟩

/-- What a step of a task that is not in a swap comes to. -/
inductive Effect (m : Switchboard F E) (now : ℕ) (task : Task F E) (m' : Switchboard F E)
    (task' : Task F E) : Prop where
  | quiet (hkeeps : m'.Keeps m) (hqueues : m'.queues = m.queues)
      (hevent : ∀ place, m.event? now place task = none) (hout : ¬ task'.InSwap)
      (hsource : ∀ k, task'.source? = some k → k = m.takeRef)
  | insertion (k : ℕ) (e : E) (hkeeps : m'.Keeps m)
      (hqueues : m'.queues = (m.offerTo now k e).1.queues)
      (hevent : ∀ place, m.event? now place task = m.insertion? now place k e)
      (hout : ¬ task'.InSwap) (hsource : task'.source? = none)
  | removal (k : ℕ) (hkeeps : m'.Keeps m) (hqueues : m'.queues = (m.takeFrom k).1.queues)
      (hevent : ∀ place, m.event? now place task = m.removal? place k)
      (hfrom : task.source? = some k) (hout : ¬ task'.InSwap) (hsource : task'.source? = none)
  | lock (c : CallQueueConfig F) (htask : task = .swap c) (hfree : m.swapping = false)
      (hboard : m' = { m with swapping := true }) (htask' : task' = .swapLocked c)

/-- Offering an element changes nothing but queues. -/
theorem keeps_offerTo (m : Switchboard F E) (now k : ℕ) (e : E) : (m.offerTo now k e).1.Keeps m := by
  unfold offerTo
  split <;> exact ⟨rfl, rfl, rfl, rfl⟩

omit [Scalar F] [Ranked E] in
/-- Taking an element changes nothing but queues. -/
theorem keeps_takeFrom (m : Switchboard F E) (k : ℕ) : (m.takeFrom k).1.Keeps m := by
  unfold takeFrom
  split <;> exact ⟨rfl, rfl, rfl, rfl⟩

omit [Scalar F] [Ranked E] in
/-- Refusing an element changes nothing but metrics. -/
theorem keeps_refuse (m : Switchboard F E) (counted : Bool) (e : E) :
    (m.refuse counted e).1.Keeps m ∧ (m.refuse counted e).1.queues = m.queues ∧
      (m.refuse counted e).2.IsFinished := by
  unfold refuse
  split
  · exact ⟨⟨rfl, rfl, rfl, rfl⟩, rfl, _, rfl⟩
  · exact ⟨⟨rfl, rfl, rfl, rfl⟩, rfl, _, rfl⟩

/-- A step that leaves the switchboard alone is quiet. -/
theorem Effect.still {m : Switchboard F E} {now : ℕ} {task task' : Task F E}
    (hevent : ∀ place, m.event? now place task = none) (hout : ¬ task'.InSwap)
    (hsource : ∀ k, task'.source? = some k → k = m.takeRef) : m.Effect now task m task' :=
  .quiet (.refl m) rfl hevent hout hsource

/-- Every step outside a swap is a quiet one, an attempt to insert or to take, or begins a swap. -/
theorem effect_of_step? {m m' : Switchboard F E} {now : ℕ} {task task' : Task F E}
    (h : m.step? now task = some (m', task')) (hout : ¬ task.InSwap) :
    m.Effect now task m' task' := by
  cases task with
  | put e =>
    cases h
    exact .still (fun _ => rfl) not_false (by simp [Task.source?])
  | insert k e =>
    simp only [step?] at h
    split at h <;> cases h <;> exact .still (fun _ => rfl) not_false (by simp [Task.source?])
  | inserting k e =>
    have hkeeps := m.keeps_offerTo now k e
    simp only [step?] at h
    split at h <;> rename_i hoffer <;> cases h <;> rw [hoffer] at hkeeps <;>
      exact .insertion k e hkeeps (by rw [hoffer]) (fun _ => rfl) not_false rfl
  | offer counted e =>
    simp only [step?] at h
    split at h
    · have hrefuse := m.keeps_refuse counted e
      rw [Option.some.inj h] at hrefuse
      obtain ⟨hkeeps, hqueues, o, rfl⟩ := hrefuse
      exact .quiet hkeeps hqueues (fun _ => rfl) not_false (by simp [Task.source?])
    · cases h
      exact .still (fun _ => rfl) not_false (by simp [Task.source?])
  | offerOpen counted e =>
    cases h
    exact .still (fun _ => rfl) not_false (by simp [Task.source?])
  | offering counted k e =>
    have hkeeps := m.keeps_offerTo now k e
    simp only [step?] at h
    split at h <;> rename_i hoffer <;> rw [hoffer] at hkeeps
    · cases h
      exact .insertion k e hkeeps (by rw [hoffer]) (fun _ => rfl) not_false rfl
    · rename_i refused e'
      have hrefuse := keeps_refuse refused counted e'
      rw [Option.some.inj h] at hrefuse
      obtain ⟨hkeeps', hqueues, o, rfl⟩ := hrefuse
      exact .insertion k e (hkeeps'.trans hkeeps) (by rw [hqueues, hoffer]) (fun _ => rfl) not_false rfl
  | add e =>
    cases h
    split <;> exact .still (fun _ => rfl) not_false (by simp [Task.source?])
  | addOpen e =>
    simp only [step?] at h
    split at h <;> cases h <;> exact .still (fun _ => rfl) not_false (by simp [Task.source?])
  | take =>
    simp only [step?] at h
    split at h <;> cases h <;> exact .still (fun _ => rfl) not_false (by simp [Task.source?])
  | takeOpen =>
    cases h
    exact .still (fun _ => rfl) not_false (by simp [Task.source?])
  | taking k =>
    have hkeeps := m.keeps_takeFrom k
    simp only [step?] at h
    split at h <;> rename_i htake <;> cases h <;> rw [htake] at hkeeps <;>
      exact .removal k hkeeps (by rw [htake]) (fun _ => rfl) rfl not_false rfl
  | poll deadline =>
    simp only [step?] at h
    split at h <;> cases h <;> exact .still (fun _ => rfl) not_false (by simp [Task.source?])
  | pollOpen deadline =>
    cases h
    exact .still (fun _ => rfl) not_false (by simp [Task.source?])
  | polling k deadline remaining =>
    have hkeeps := m.keeps_takeFrom k
    simp only [step?] at h
    split at h <;> rename_i htake <;> rw [htake] at hkeeps
    · cases h
      exact .removal k hkeeps (by rw [htake]) (fun _ => rfl) rfl not_false rfl
    · split at h <;> cases h <;>
        exact .removal k hkeeps (by rw [htake]) (fun _ => rfl) rfl not_false rfl
  | swap c =>
    simp only [step?] at h
    split at h
    · contradiction
    · rename_i hfree
      cases h
      exact .lock c rfl (by simpa using hfree) rfl rfl
  | finished o => simp [step?] at h
  | _ => exact absurd trivial hout

omit [Scalar F] [Ranked E] in
/-- What a step of a swap comes to, for the queues and for where calls are taken from. -/
inductive SwapEffect (m m' : Switchboard F E) (ev : Option (Event E)) : Prop where
  | quiet (hqueues : m'.queues = m.queues) (htake : m'.takeRef = m.takeRef)
      (hev : ∀ e ∈ ev, e.IsWatch)
  | opened (q : CallQueue F E) (hqueues : m'.queues = m.queues ++ [q])
      (htake : m'.takeRef = m.takeRef) (hev : ev = some (.opened m.queues.length q.contents))
  | moved (new : ℕ) (hqueues : m'.queues = m.queues) (htake : m'.takeRef = new)
      (hev : ev = some (.moved new))

/-- Every step inside a swap builds a queue, hands over to one, or does neither. -/
theorem swapEffect_of_step? {m m' : Switchboard F E} {now : ℕ} {task task' : Task F E}
    (h : m.step? now task = some (m', task')) (hin : task.InSwap) (place : ℕ) :
    m.SwapEffect m' (m.event? now place task) := by
  cases task with
  | swapLocked c =>
    simp only [step?] at h
    split at h <;> cases h <;> exact .quiet rfl rfl (by simp [event?])
  | swapOpen c =>
    simp only [step?] at h
    split at h
    · rename_i hdrain
      cases h
      exact .quiet rfl rfl (by simp [event?, hdrain])
    · rename_i hdrain hbuild
      cases h
      exact .quiet rfl rfl (by simp [event?, hdrain, hbuild])
    · rename_i q hdrain hbuild
      cases h
      exact .opened q rfl rfl (by simp [event?, hdrain, hbuild])
  | draining c old new seen =>
    simp only [step?] at h
    split at h
    · cases h
      exact .quiet rfl rfl (by simp [event?])
    · split at h <;> cases h <;> exact .quiet rfl rfl (by simp [event?])
  | swapTake new =>
    cases h
    exact .moved new rfl rfl rfl
  | swapBuilt _ _ | swapPut _ _ _ | swapKnobs _ _ _ | sleeping _ _ _ _ | swapCount =>
    cases h
    exact .quiet rfl rfl (by simp [event?, Event.IsWatch])
  | _ => exact absurd hin not_false

end Switchboard

end Allotment
