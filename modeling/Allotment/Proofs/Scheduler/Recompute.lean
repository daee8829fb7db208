import Allotment.Proofs.Metrics
import Allotment.Proofs.Queue.Recompute
import Allotment.Proofs.Scheduler.Membership

/-!
# A scheduler brings shares up to date

Whatever state a scheduler is in, an update that follows another one changes nothing, and neither does
computing shares from the root once more, gauges included. What is written on the way are demands, fair
shares and gauges by an update, and shares of one outlook and gauges otherwise.
-/

namespace Allotment

variable {F : Type} [Scalar F]

namespace Queue

/-- The readings by which the shares of a queue are published. -/
def readings (info : QueueInfo F) : List (Metrics.Reading F) :=
  [⟨info.name, "fair_share_mb", gaugeOf info.fairShare.memory⟩,
    ⟨info.name, "fair_share_vcores", gaugeOf info.fairShare.vcores⟩,
    ⟨info.name, "steady_fair_share_mb", gaugeOf info.steadyShare.memory⟩,
    ⟨info.name, "steady_fair_share_vcores", gaugeOf info.steadyShare.vcores⟩]

/-- The readings by which the shares of all queues below a queue are published. -/
def readingsBelow (q : Queue F) : List (Metrics.Reading F) :=
  q.descendants.flatMap fun r => readings r.info

theorem publish_eq (m : Metrics F) (info : QueueInfo F) : publish m info = m.setAll (readings info) :=
  rfl

theorem publishBelow_eq (q : Queue F) (m : Metrics F) :
    q.publishBelow m = m.setAll q.readingsBelow := by
  unfold publishBelow readingsBelow Metrics.setAll
  rw [List.foldl_flatMap]
  rfl

/-- Which gauges are set depends on the names of queues alone. -/
theorem keys_readingsBelow {q r : Queue F} (h : q.descendants.map name = r.descendants.map name) :
    q.readingsBelow.map Metrics.Reading.key = r.readingsBelow.map Metrics.Reading.key := by
  have hkeys : ∀ q : Queue F, q.readingsBelow.map Metrics.Reading.key =
      (q.descendants.map name).flatMap fun n => [(n, "fair_share_mb"), (n, "fair_share_vcores"),
        (n, "steady_fair_share_mb"), (n, "steady_fair_share_vcores")] := by
    intro q
    rw [readingsBelow, List.map_flatMap, List.flatMap_map]
    rfl
  rw [hkeys, hkeys, h]

end Queue

namespace Scheduler

/-- The shares of one outlook computed anew below the root, and published. -/
def recomputeRoot (s : Scheduler F) (o : Outlook) : Scheduler F :=
  let root := s.tree.root.recompute o
  { s.withRoot root with metrics := root.publishBelow s.metrics }

/-- Shares computed anew below the root, the outlooks one after another. -/
def recomputeAll (s : Scheduler F) (outlooks : List Outlook) : Scheduler F :=
  outlooks.foldl recomputeRoot s

/-- The scheduler without its metrics, and with some parts of its queues taken away. -/
def without (strip : Queue F → Queue F) (s : Scheduler F) : Scheduler F :=
  { s.withRoot (strip s.tree.root) with metrics := Table.empty }

/-- The readings by which an update publishes shares and the cluster. -/
def updateReadings (s : Scheduler F) (root : Queue F) : List (Metrics.Reading F) :=
  root.readingsBelow ++ Queue.readings root.info ++
    [⟨"cluster", "memory_mb", Scalar.ofUInt64 s.cluster.memory⟩,
      ⟨"cluster", "vcores", Scalar.ofUInt64 s.cluster.vcores⟩,
      ⟨"cluster", "apps", Scalar.ofUInt64 s.apps.entries.length.toUInt64⟩]

/-- An update gives the root the cluster's resource and sets gauges. -/
theorem update_eq (s : Scheduler F) :
    s.update = { s.withRoot (s.tree.root.updateDemand.giveFair s.cluster) with
      metrics := s.metrics.setAll
        (s.updateReadings (s.tree.root.updateDemand.giveFair s.cluster)) } := by
  simp only [update, updateReadings, Queue.publishBelow_eq, Queue.publish_eq, Metrics.setAll_append]
  rfl

/-- An update that follows another one changes nothing. -/
theorem update_update (s : Scheduler F) : s.update.update = s.update := by
  have hroot : (s.tree.root.updateDemand.giveFair s.cluster).updateDemand.giveFair s.cluster =
      s.tree.root.updateDemand.giveFair s.cluster := by
    rw [Queue.updateDemand_giveFair s.tree.root.updateDemand_updateDemand, Queue.giveFair_giveFair]
  rw [update_eq s.update, update_eq s]
  simp only [withRoot, hroot, updateReadings, Metrics.setAll_setAll]

theorem recomputeRoot_eq (s : Scheduler F) (o : Outlook) :
    s.recomputeRoot o = { s.withRoot (s.tree.root.recompute o) with
      metrics := s.metrics.setAll (s.tree.root.recompute o).readingsBelow } := by
  rw [recomputeRoot, Queue.publishBelow_eq]

/-- Shares that are computed once more are not changed, whatever shares were computed in between. -/
theorem recomputeRoot_settled {s : Scheduler F} {o : Outlook} (h : s.recomputeRoot o = s)
    (o' : Outlook) : (s.recomputeRoot o').recomputeRoot o = s.recomputeRoot o' := by
  have hroot : s.tree.root.recompute o = s.tree.root := congrArg (fun s => s.tree.root) h
  have hafter : (s.tree.root.recompute o').recompute o = s.tree.root.recompute o' := by
    rw [Queue.recompute_comm, hroot]
  rw [recomputeRoot_eq (s.recomputeRoot o'), recomputeRoot_eq s]
  simp only [withRoot, hafter, Metrics.setAll_setAll]

/-- Shares computed anew are not changed by computing them once more. -/
theorem recomputeRoot_recomputeRoot (s : Scheduler F) (o : Outlook) :
    (s.recomputeRoot o).recomputeRoot o = s.recomputeRoot o := by
  rw [recomputeRoot_eq (s.recomputeRoot o), recomputeRoot_eq s]
  simp only [withRoot, Queue.recompute_recompute, Metrics.setAll_setAll]

/-- Once the shares of an outlook have been computed, computing them again changes nothing, whatever
shares are computed in between. -/
theorem recomputeRoot_recomputeAll {s : Scheduler F} {o : Outlook} {outlooks : List Outlook}
    (h : o ∈ outlooks) : (s.recomputeAll outlooks).recomputeRoot o = s.recomputeAll outlooks := by
  induction outlooks using List.reverseRecOn with
  | nil => simp at h
  | append_singleton before last ih =>
    have hlast : s.recomputeAll (before ++ [last]) = (s.recomputeAll before).recomputeRoot last :=
      List.foldl_append
    rw [hlast]
    by_cases ho : o = last
    · rw [ho, recomputeRoot_recomputeRoot]
    · exact recomputeRoot_settled (ih (by simpa [ho] using h)) last

/-- Computing shares again, any number of times and in any order, changes nothing. -/
theorem recomputeAll_recomputeAll (s : Scheduler F) {first more : List Outlook}
    (h : more ⊆ first) : (s.recomputeAll first).recomputeAll more = s.recomputeAll first := by
  induction more with
  | nil => rfl
  | cons o rest ih =>
    rw [List.cons_subset] at h
    change ((s.recomputeAll first).recomputeRoot o).recomputeAll rest = _
    rw [recomputeRoot_recomputeAll h.1, ih h.2]

/-- Shares of both kinds, fair ones first, are what is computed anew below the root. -/
theorem Reachable.recompute_root {s : Scheduler F} (h : s.Reachable) :
    s.recompute QueueName.root = s.recomputeAll [.moment, .steady] := by
  have hwell := h.tree.wellNamed
  have hfind : s.tree.find? QueueName.root = some s.tree.root :=
    hwell.root.find?_eq_some_iff.mpr ⟨Queue.mem_all_self _, hwell.root_name⟩
  have hkeys : s.tree.root.recomputeFair.recomputeSteady.readingsBelow.map Metrics.Reading.key =
      s.tree.root.recomputeFair.readingsBelow.map Metrics.Reading.key :=
    Queue.keys_readingsBelow (Queue.map_name_descendants_giveSteady _ _)
  simp only [recompute, hfind, hwell.modify_root, recomputeAll, List.foldl_cons, List.foldl_nil,
    recomputeRoot_eq, withRoot, Queue.recompute, Queue.publishBelow_eq]
  rw [Metrics.setAll_setAll_of_subset]
  rw [hkeys]
  exact List.Subset.refl _

/-- In whatever state a scheduler is, an update that follows another one changes nothing, and once shares
have been computed below the root, computing them again changes nothing, any number of times and in any
order of fair and steady shares. Apart from gauges an update writes demands and fair shares only, and
computing fair or steady shares writes those only. -/
theorem Reachable.recomputation_idempotent {s : Scheduler F} (h : s.Reachable) :
    s.update.update = s.update ∧
    s.recompute QueueName.root = s.recomputeAll [.moment, .steady] ∧
    (∀ first more : List Outlook, more ⊆ first →
      (s.recomputeAll first).recomputeAll more = s.recomputeAll first) ∧
    s.update.without (fun q => q.withoutFair.withoutDemand) =
      s.without (fun q => q.withoutFair.withoutDemand) ∧
    (s.recomputeRoot .moment).without Queue.withoutFair = s.without Queue.withoutFair ∧
    (s.recomputeRoot .steady).without Queue.withoutSteady = s.without Queue.withoutSteady ∧
    ∀ scope name, s.update.metrics.counter? scope name = s.metrics.counter? scope name ∧
      ∀ o, (s.recomputeRoot o).metrics.counter? scope name = s.metrics.counter? scope name := by
  refine ⟨s.update_update, h.recompute_root, fun _ _ => s.recomputeAll_recomputeAll, ?_, ?_, ?_,
    fun scope name => ⟨?_, fun o => ?_⟩⟩
  · have hkept : (s.tree.root.updateDemand.giveFair s.cluster).withoutFair.withoutDemand =
        s.tree.root.withoutFair.withoutDemand := by
      rw [Queue.withoutFair_giveFair, ← Queue.updateDemand_withoutFair,
        Queue.withoutDemand_updateDemand]
    rw [update_eq]
    simp only [without, withRoot, hkept]
  · have hkept : s.tree.root.recomputeFair.withoutFair = s.tree.root.withoutFair :=
      Queue.withoutFair_giveFair _ _
    rw [recomputeRoot_eq]
    simp only [without, withRoot, Queue.recompute, hkept]
  · have hkept : s.tree.root.recomputeSteady.withoutSteady = s.tree.root.withoutSteady :=
      Queue.withoutSteady_giveSteady _ _
    rw [recomputeRoot_eq]
    simp only [without, withRoot, Queue.recompute, hkept]
  · rw [update_eq, Metrics.counter?_setAll]
  · rw [recomputeRoot_eq, Metrics.counter?_setAll]

/-- A scheduler with a node and an application that asks for a container. -/
def oneAsked : Scheduler Float :=
  ((oneLeaf.apply (.addNode "node" ⟨4, 4⟩)).apply (.submit "app" "a" "user" 0)).apply
    (.request "app" ⟨1, ⟨1, 1⟩, 1⟩)

/-- The first update gives the root a fair share and the second changes nothing. -/
theorem recomputation_idempotent_of_oneAsked :
    oneAsked.Reachable ∧ oneAsked.tree.root.info.fairShare = ⟨0, 0⟩ ∧
      oneAsked.update.tree.root.info.fairShare = ⟨4, 4⟩ ∧
      oneAsked.update.update = oneAsked.update ∧
      (oneAsked.recomputeAll [.moment, .steady]).recomputeAll [.steady, .moment, .steady] =
        oneAsked.recomputeAll [.moment, .steady] := by
  have hreached : oneAsked.Reachable :=
    (((Reachable.start _ oneLeaf ofConfig_oneLeaf).step _ (.addNode "node" ⟨4, 4⟩)).step _
      (.submit "app" "a" "user" 0)).step _ (.request "app" ⟨1, ⟨1, 1⟩, 1⟩)
  obtain ⟨hupdate, -, hmore, -⟩ := hreached.recomputation_idempotent
  exact ⟨hreached, by decide +kernel, by decide +kernel, hupdate, hmore _ _ (by simp)⟩

end Scheduler

end Allotment
