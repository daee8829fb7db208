import Allotment.Proofs.Queue.Parking
import Allotment.Proofs.Scheduler.Evolution

/-!
# Parking is fair

Whatever a scheduler is asked to do, its leaves park fairly: an application waits only for want of a place,
without containers and in the order of submission, and moves up in its turn. More applications than the
limit allows run in a leaf only after a reload has lowered the limit, until enough of them are gone.
-/

namespace Allotment.Scheduler

open QueueTree (Advances)

variable {F : Type} [Scalar F] {s : Scheduler F}

/-! ## Operations that leave places as they are -/

/-- Whether an operation neither admits nor removes applications nor concerns which queues there are. -/
def Operation.LeavesPlaces : Operation F → Prop
  | .submit _ _ _ _ | .removeApp _ | .reload _ | .locate _ _ _ => False
  | _ => True

omit [Scalar F] in
/-- When the application of a serial number changes while it waits, nobody is disturbed. -/
theorem undisturbed_modifyApp {serial : ℕ} {f : Attempt F → Attempt F}
    (hf : ∀ a ∈ s.tree.root.attempts, a.serial = serial → a.Waits (f a)) :
    s.tree.root.Undisturbed (s.modifyApp serial f).tree.root := by
  apply Queue.undisturbed_mapAttempts
  intro a ha
  split
  · rename_i hserial
    exact hf a ha hserial
  · exact .refl a

/-- Taking a node away disturbs nobody. -/
theorem undisturbed_removeNode (s : Scheduler F) (id : String) :
    s.tree.root.Undisturbed (s.removeNode id).1.tree.root := by
  unfold removeNode
  split
  · exact .refl _
  · have htaken : s.tree.root.Undisturbed (s.tree.root.mapAttempts fun a =>
        if s.apps.values.contains a.serial then a.releaseNode id else a) := by
      apply Queue.undisturbed_mapAttempts
      intro a _
      split
      · exact a.waits_releaseNode id
      · exact .refl a
    exact htaken.trans (Queue.undisturbed_giveSteady _ _)

/-- A container that is given back disturbs nobody. -/
theorem Reachable.undisturbed_release (h : s.Reachable) (id : String) (container : ℕ) :
    s.tree.root.Undisturbed (s.release id container).1.tree.root := by
  unfold release
  split
  · exact .refl _
  · rename_i a happ
    split
    · exact .refl _
    · rename_i b c hrelease
      apply undisturbed_modifyApp
      intro x hx hserial
      -- The application that is put in the place of another is what becomes of that one.
      obtain ⟨-, y, hy, rfl⟩ := exists_seat happ
      have hmem : y.attempt ∈ s.tree.root.attempts := Queue.mem_attempts_iff.mpr ⟨y, hy, rfl⟩
      obtain rfl := List.inj_on_of_nodup_map h.apart.attempts hx hmem hserial
      have hwaits := y.attempt.waits_release container
      rw [hrelease] at hwaits
      exact hwaits

/-- Filling a node once disturbs nobody. -/
theorem undisturbed_assignOnce (h : s.tree.Reachable) (queue : String) (node : Node) :
    s.tree.root.Undisturbed (s.assignOnce queue node).1.tree.root := by
  change s.tree.root.Undisturbed (s.offer queue node).scheduler.tree.root
  unfold offer
  split
  · exact .refl _
  · rename_i q hfind
    exact h.wellNamed.undisturbed_found hfind (q.undisturbed_assign _ _)

/-- A heartbeat disturbs nobody. -/
theorem undisturbed_heartbeat (h : s.tree.Reachable) (node : String) :
    s.tree.root.Undisturbed (s.heartbeat node).1.tree.root := by
  refine (fill_induction (P := fun s' => s'.tree.Reachable ∧
    s.tree.root.Undisturbed s'.tree.root) ?_ ⟨h, .refl _⟩ _ 0 0).2
  rintro s' n ⟨hreached, hkept⟩ -
  exact ⟨tree_assignOnce hreached QueueName.root n,
    hkept.trans (undisturbed_assignOnce hreached QueueName.root n)⟩

/-- Asking for a container disturbs nobody. -/
theorem undisturbed_preempt (s : Scheduler F) : s.tree.root.Undisturbed s.preempt.1.tree.root := by
  have hasked := s.tree.root.undisturbed_preempt s.cluster s.tree.root.info.policy.isOver
  unfold preempt
  cases hcase : s.tree.root.preempt s.cluster s.tree.root.info.policy.isOver with
  | mk root victim =>
    rw [hcase] at hasked
    cases victim <;> exact hasked

/-- A new policy for a queue disturbs nobody. -/
theorem undisturbed_setPolicy (h : s.tree.Reachable) (queue : String) (policy : Policy) :
    s.tree.root.Undisturbed (s.setPolicy queue policy).1.tree.root := by
  unfold setPolicy
  split
  · exact .refl _
  · rename_i q hfind
    split
    · rename_i changed hset
      unfold Queue.setPolicy at hset
      split at hset
      · obtain rfl := Except.ok.inj hset
        apply h.wellNamed.undisturbed_found hfind
        apply Queue.undisturbed_withInfo <;> exact fun _ => rfl
      · contradiction
    · exact .refl _

/-- What leaves places as they are disturbs nobody. -/
theorem Reachable.undisturbed_apply (h : s.Reachable) {op : Operation F} (hop : op.LeavesPlaces) :
    s.tree.root.Undisturbed (s.apply op).tree.root := by
  cases op with
  | submit | removeApp | reload | locate => exact hop.elim
  | addNode id total => exact Queue.undisturbed_giveSteady _ _
  | removeNode id => exact s.undisturbed_removeNode id
  | request id r =>
    rw [apply, request]
    split
    · exact .refl _
    · exact undisturbed_modifyApp fun a _ _ => a.waits_ask r
  | release id container => exact h.undisturbed_release id container
  | heartbeat node => exact undisturbed_heartbeat h.tree node
  | assign queue node =>
    exact assign_induction (P := fun s' => s.tree.root.Undisturbed s'.tree.root)
      (fun n _ => undisturbed_assignOnce h.tree queue n) (.refl _)
  | update => exact (Queue.undisturbed_updateDemand _).trans (Queue.undisturbed_giveFair _ _)
  | start | stop => exact .refl _
  | preempt => exact s.undisturbed_preempt
  | setPolicy queue policy => exact undisturbed_setPolicy h.tree queue policy
  | updateDemand queue =>
    exact Queue.undisturbed_modify queue _ fun q _ _ => q.undisturbed_updateDemand
  | setFairShare queue share =>
    apply Queue.undisturbed_modify
    intro q _ _
    apply Queue.undisturbed_withInfo <;> exact fun _ => rfl
  | recompute queue =>
    rw [apply, recompute]
    split
    · exact .refl _
    · rename_i q hfind
      exact h.tree.wellNamed.undisturbed_found hfind
        ((q.undisturbed_giveFair _).trans (Queue.undisturbed_giveSteady _ _))
  | preemptIn queue =>
    rw [apply, preemptIn]
    split
    · exact .refl _
    · rename_i q hfind
      exact h.tree.wellNamed.undisturbed_found hfind (q.undisturbed_preempt _ _)

/-! ## Operations that change places -/

section Places

variable {r : Prop} (h : s.Reachable) (hfair : s.tree.ParksFairly)

include h hfair

/-- A submission puts an application at the end of its leaf. -/
theorem Reachable.advances_submit (id queue user : String) (priority : ℕ) :
    Advances r s.tree (s.submit id queue user priority).1.tree := by
  have hwell := (h.tree.step _ (.locate queue true .leaf)).wellNamed
  have hextends := h.tree.wellNamed.extends_locate queue true .leaf
  obtain ⟨hedits, hseats, -⟩ := h.tree.wellNamed.located queue true .leaf
  rw [QueueTree.apply] at hwell
  unfold submit
  generalize s.tree.locate queue true .leaf = located at hwell hextends hedits hseats
  obtain ⟨tree, outcome⟩ := located
  have hfair' := hextends.parksFairly hfair
  have hsame : Advances r s.tree tree := hextends.advances hfair'.advances
  cases outcome with
  | error e => exact hsame
  | ok leaf =>
    dsimp only
    split
    · -- The serial number is the next one, so it is larger than those of the others.
      have hlast : ∀ b ∈ tree.root.attempts, b.serial < tree.nextSerial := by
        obtain ⟨reused, hrun⟩ := h.exists_run
        intro b hb
        obtain ⟨x, hx, rfl⟩ := Queue.mem_attempts_iff.mp hb
        have hmember := Queue.mem_members_iff.mpr ⟨x, hseats.mem_iff.mp hx, rfl⟩
        exact (hrun.listed.serial_lt _ hmember).trans_le hedits.nextSerial_le
      exact hextends.advances (hwell.advances_addAttempt hfair' leaf rfl hlast)
    · exact hsame

/-- A removal takes an application out of its leaf, without its containers. -/
theorem Reachable.advances_removeApp (id : String) :
    Advances r s.tree (s.removeApp id).1.tree := by
  unfold removeApp
  split
  · exact hfair.advances
  · rename_i a happ
    have hfreed : s.tree.root.Undisturbed
        (s.modifyApp a.serial fun b => b.releaseAll.1).tree.root :=
      undisturbed_modifyApp fun b _ _ => b.waits_releaseAll
    obtain ⟨hwell, hkinds⟩ := h.tree.wellNamed.of_similar (Queue.similar_mapAttempts
      (fun b => if b.serial = a.serial then b.releaseAll.1 else b) s.tree.root) s.tree.nextSerial
    have hsame : Advances r s.tree _ := hfair.advances.keep h.tree.wellNamed hwell hfreed
    have hfair' := hsame.parksFairly
    exact (hwell.advances_removeAttempt hfair' a.queue id).kept h.tree.wellNamed hwell hfreed hkinds

/-- A reload moves applications up where it leaves them a place. -/
theorem Reachable.advances_reload (c : SchedulerConfig F) :
    Advances True s.tree (s.reload c).1.tree := by
  have hadvances := h.tree.wellNamed.advances_reload hfair c.queues
  have hwell := (h.tree.step _ (.reload c.queues)).wellNamed
  have hwell' := (h.step _ (.reload c)).tree.wellNamed
  rw [QueueTree.apply] at hwell
  rw [apply] at hwell'
  unfold reload at hwell' ⊢
  generalize s.tree.reload c.queues = reloaded at hadvances hwell hwell'
  obtain ⟨tree, outcome⟩ := reloaded
  cases outcome with
  | error e => exact hadvances
  | ok => exact hadvances.keep hwell hwell' (Queue.undisturbed_giveSteady _ _)

/-- Whatever a scheduler is asked to do, applications move up by turns, and only a reload sets limits
anew. -/
theorem Reachable.advances_apply (op : Operation F) :
    Advances (∃ c, op = .reload c) s.tree (s.apply op).tree := by
  have hkept : op.LeavesPlaces → Advances (∃ c, op = .reload c) s.tree (s.apply op).tree :=
    fun hop => hfair.advances.keep h.tree.wellNamed (h.step s op).tree.wellNamed (h.undisturbed_apply hop)
  cases op with
  | submit id queue user priority =>
    rw [apply]
    exact h.advances_submit hfair id queue user priority
  | removeApp id =>
    rw [apply]
    exact h.advances_removeApp hfair id
  | reload c =>
    rw [apply]
    exact (h.advances_reload hfair c).mono fun _ => ⟨c, rfl⟩
  | locate name create kind =>
    simp only [apply]
    have hextends := h.tree.wellNamed.extends_locate name create kind
    exact hextends.advances (hextends.parksFairly hfair).advances
  | _ => exact hkept trivial

end Places

/-! ## All operations -/

/-- In a scheduler that comes about all queues park fairly. -/
theorem Reachable.parksFairly (h : s.Reachable) : s.tree.ParksFairly := by
  induction h with
  | start c s hmade =>
    have htree := (of_ofConfig hmade).1
    intro n b hb
    obtain ⟨hmem, -⟩ := (QueueTree.sound_ofConfig htree).wellNamed.bare?_eq_some_iff.mp hb
    obtain ⟨hrunnable, hparked⟩ := Queue.empty_of_seats (QueueTree.seats_ofConfig htree) hmem
    exact .of_empty hrunnable hparked
  | step s op h ih => exact (h.advances_apply ih op).parksFairly

/-- In a scheduler that comes about every leaf parks fairly: no application runs and is parked, none is
parked while there is a place free, and the parked ones stand in the order of submission and hold nothing.
Whatever is done next, a parked application that then runs was submitted before all that are still parked.
If a leaf then runs more applications than its limit allows, no fewer ran in it before, and it ran too many
already, or a reload has lowered the limit. -/
theorem Reachable.parking_fair (h : s.Reachable) :
    (∀ q ∈ s.tree.root.all, q.ParksFairly) ∧
    ∀ op, ∀ q' ∈ (s.apply op).tree.root.all,
      (∀ q ∈ s.tree.root.all, q.name = q'.name → ∀ a ∈ q.parked, ∀ b ∈ q'.runnable,
        b.serial = a.serial → ∀ c ∈ q'.parked, a.serial < c.serial) ∧
      (q'.info.settings.limit < q'.runnable.length → ∃ q ∈ s.tree.root.all, q.name = q'.name ∧
        q'.runnable.length ≤ q.runnable.length ∧
        (q.info.settings.limit < q.runnable.length ∨
          ∃ c, op = .reload c ∧ q'.info.settings.limit < q.info.settings.limit)) := by
  have hwell := h.tree.wellNamed
  refine ⟨fun q hq => ?_, fun op q' hq' => ?_⟩
  · have hbare := QueueTree.bare?_of_find? (hwell.root.find?_eq_some_iff.mpr ⟨hq, rfl⟩)
    exact (h.parksFairly q.name q.bare hbare).of_bare
  have hadvances := h.advances_apply h.parksFairly op
  obtain ⟨hnew, hwithin⟩ | ⟨q, hfind, hmoves, hlimit⟩ :=
    hadvances.of_mem hwell (h.step s op).tree.wellNamed hq'
  · exact ⟨fun q hq hname => absurd hname (hnew q hq), fun hover => absurd hwithin (Nat.not_le_of_lt hover)⟩
  · obtain ⟨hq, hname⟩ := hwell.root.find?_eq_some_iff.mp hfind
    refine ⟨fun r hr hsame => ?_, fun hover => ⟨q, hq, hname, hmoves.within hover, ?_⟩⟩
    · have hfound := hwell.root.find?_eq_some_iff.mpr ⟨hr, hsame⟩
      obtain rfl := Option.some.inj (hfind.symm.trans hfound)
      exact hmoves.eldest
    · have hfew := hmoves.within hover
      by_cases hbefore : q.info.settings.limit < q.runnable.length
      · exact .inl hbefore
      · obtain hkept | ⟨c, rfl⟩ := hlimit
        · omega
        · exact .inr ⟨c, rfl, by omega⟩

/-- A scheduler with one leaf, in which one application may run. -/
def narrowLeaf : Scheduler Float :=
  oneLeaf.withRoot (oneLeaf.tree.root.modify "root.a" (Queue.withInfo fun info =>
    { info with settings := { info.settings with limit := 1 } }))

/-- The narrow leaf is that of a configuration. -/
theorem ofConfig_narrowLeaf : ofConfig
    { queues := .node { QueueOptions.named "root" with forceParent := true }
        [.node { QueueOptions.named "a" with maxRunningApps := some 1 } []]
      assignMultiple := false
      maxAssign := none
      updateIntervalMs := 500 } = .ok narrowLeaf := rfl

/-- The narrow leaf with three applications. -/
def threeSubmitted : Scheduler Float :=
  ((narrowLeaf.apply (.submit "first" "a" "user" 0)).apply (.submit "second" "a" "user" 0)).apply
    (.submit "third" "a" "user" 0)

/-- Two of three applications are parked, and the earlier of them moves up when the first has gone. -/
theorem parking_fair_of_threeSubmitted :
    threeSubmitted.Reachable ∧
      (threeSubmitted.tree.find? "root.a").map
          (fun q => (q.runnable.map Attempt.id, q.parked.map Attempt.id)) =
        some (["first"], ["second", "third"]) ∧
      (∀ q ∈ threeSubmitted.tree.root.all, q.ParksFairly) ∧
      ((threeSubmitted.apply (.removeApp "first")).tree.find? "root.a").map
          (fun q => (q.runnable.map Attempt.id, q.parked.map Attempt.id)) =
        some (["second"], ["third"]) := by
  have hreached : threeSubmitted.Reachable :=
    (((Reachable.start _ narrowLeaf ofConfig_narrowLeaf).step _ (.submit "first" "a" "user" 0)).step _
      (.submit "second" "a" "user" 0)).step _ (.submit "third" "a" "user" 0)
  exact ⟨hreached, by decide +kernel, hreached.parking_fair.1, by decide +kernel⟩

end Allotment.Scheduler
