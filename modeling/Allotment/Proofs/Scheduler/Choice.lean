import Allotment.Proofs.Queue.Choice
import Allotment.Proofs.Scheduler.Evolution

/-!
# A scheduler gives containers to the choice

Whatever a scheduler was asked to do before, requests are filed under their priority numbers and siblings
bear different serial numbers. So, as long as nothing is asked for nothing, offering a node to the root
gives a container to exactly the request that the policies put first among those that are eligible.
-/

namespace Allotment

variable {F : Type} [Scalar F]

/-! ## Requests stay filed -/

namespace Attempt

variable {next : ℕ} {a b : Attempt F}

omit [Scalar F] in
/-- Only the requests of an application matter. -/
theorem Filed.congr (h : a.Filed) (hrequests : b.requests = a.requests) : b.Filed := by
  rw [Filed, hrequests]
  exact h

/-- A request that replaces that of its priority is filed if it asks for something. -/
theorem Filed.ask (h : a.Filed) (r : Request) : (a.ask r).Filed := by
  have herased : ∀ e ∈ (a.requests.erase r.priority).entries, e.2.priority = e.1 ∧ 0 < e.2.count :=
    fun e he => h e (List.mem_filter.mp he).1
  intro e he
  unfold Attempt.ask at he
  dsimp only at he
  split at he
  · exact herased e he
  · rename_i hcount
    obtain rfl | he := Table.mem_insertEntry he
    · exact ⟨rfl, Nat.pos_of_ne_zero hcount⟩
    · exact herased e he

omit [Scalar F] in
/-- Taking one container off a filed request leaves requests filed. -/
theorem Filed.takeOne (h : a.Filed) {r : Request} (hpos : 0 < r.count) : (a.takeOne r).Filed := by
  intro e he
  unfold Attempt.takeOne at he
  split at he
  · exact h e (List.mem_filter.mp he).1
  · rename_i hcount
    obtain rfl | he := Table.mem_insertEntry he
    · refine ⟨rfl, ?_⟩
      change 0 < r.count - 1
      omega
    · exact h e he

omit [Scalar F] in
/-- Serving a node leaves requests filed. -/
theorem Filed.assign (h : a.Filed) (p : Placement F) : (a.assign p).subject.Filed := by
  unfold Attempt.assign
  split
  · exact h
  · rename_i r heligible
    split
    · exact h
    · have hpos := h.count_pos (h.firstFit heligible).mem
      exact (h.takeOne hpos).congr rfl

/-- Every step leaves requests filed. -/
theorem Step.filed (h : a.Filed) (hstep : Step next a b) : b.Filed := by
  cases hstep with
  | outlook demand fairShare => exact h.congr rfl
  | ask r => exact h.ask r
  | serve p hnext => exact h.assign p
  | release i hids =>
    apply h.congr
    unfold Attempt.release
    split <;> rfl
  | releaseAll => exact h.congr rfl

/-- Steps leave requests filed. -/
theorem Evolves.filed (h : a.Filed) (hevolves : Evolves next a b) : b.Filed := by
  induction hevolves with
  | refl => exact h
  | tail _ hlast ih => exact hlast.filed ih

end Attempt

namespace Scheduler

variable {s s' : Scheduler F}

omit [Scalar F] in
/-- Asking for a container leaves requests filed. -/
theorem Picks.filed {c : Option Container} (hpicks : Picks s s' c)
    (h : ∀ a ∈ s.tree.root.attempts, a.Filed) : ∀ b ∈ s'.tree.root.attempts, b.Filed := by
  intro b hb
  cases hpicks with
  | nothing hperm => exact h b (hperm.mem_iff.mp hb)
  | victim a c ha hc hperm =>
    obtain ⟨a', ha', rfl⟩ := List.mem_map.mp (hperm.mem_iff.mp hb)
    split
    · exact (h a' ha').congr rfl
    · exact h a' ha'

variable [Scalar.Comparable F]

/-- In a scheduler that comes about all requests are filed. -/
theorem Reachable.filed (h : s.Reachable) : ∀ a ∈ s.tree.root.attempts, a.Filed := by
  induction h with
  | start c s hmade =>
    simp [attempts_of_ofConfig hmade]
  | step s op h ih =>
    have hstem : ¬ op.AsksBack → _ := h.stem_apply
    cases op with
    | preempt => exact h.picks_preempt.filed ih
    | preemptIn queue => exact (h.picks_preemptIn queue).filed ih
    | _ =>
      intro b hb
      obtain ⟨id, user, leaf, priority, serial, rfl⟩ | ⟨a, ha, hab⟩ := hstem id b hb
      · simp [Attempt.Filed, Attempt.new, Table.empty]
      · exact hab.filed (ih a ha)

/-! ## The choice -/

omit [Scalar.Comparable F] in
/-- The runnable applications of a leaf bear different serial numbers. -/
theorem Reachable.nodup_runnable (h : s.Reachable) {q : Queue F} (hq : q ∈ s.tree.root.all) :
    (q.runnable.map Attempt.serial).Nodup := by
  have hserials := h.apart.attempts
  rw [Queue.attempts, List.map_flatMap] at hserials
  have hown := (List.nodup_flatMap.mp hserials).1 q hq
  cases q with
  | leaf info runnable parked =>
    rw [Queue.ownAttempts, List.map_append] at hown
    exact hown.of_append_left
  | parent info children => exact List.nodup_nil

/-- The tree of a scheduler that comes about is in order as long as nothing is asked for nothing. -/
theorem Reachable.orderly (h : s.Reachable)
    (hnonzero : ∀ a ∈ s.tree.root.attempts, ∀ r ∈ a.requests.values, r.capability ≠ 0) :
    s.tree.root.Orderly :=
  ⟨h.apart.children, fun _ hr => h.nodup_runnable hr, h.filed, hnonzero⟩

/-- Offering a node, registered or not, to the root of a scheduler that comes about, in which nothing is
asked for nothing, places something exactly if some request is eligible. Then one container is placed on the
node: for the request that is reached by going to the first child with an eligible request below it, then to
the first application with a request that fits, and taking of these the one of the lowest priority number.
The registry keeps track of the node if it is registered, and is otherwise what it was. -/
theorem Reachable.assign_chooses (h : s.Reachable)
    (hnonzero : ∀ a ∈ s.tree.root.attempts, ∀ r ∈ a.requests.values, r.capability ≠ 0)
    (node : Node) :
    ((s.offer QueueName.root node).resource ≠ 0 ↔
      ∃ l a r, Queue.Eligible node.available s.tree.root l a r) ∧
    ((∃ l a r, Queue.Eligible node.available s.tree.root l a r) →
      ∃ l a r, Queue.Chooses s.cluster node.available s.tree.root l a r ∧
        (∀ l' a' r', Queue.Chooses s.cluster node.available s.tree.root l' a' r' →
          l' = l ∧ a' = a ∧ r' = r) ∧
        (s.offer QueueName.root node).resource = r.capability ∧
        (s.offer QueueName.root node).scheduler.tree.root.holdings.Perm
          (s.tree.root.holdings ++ [(a.member l.name, a.container r node.id s.nextContainer)]) ∧
        (s.offer QueueName.root node).scheduler.nextContainer = s.nextContainer + 1 ∧
        (s.offer QueueName.root node).scheduler.nodes = s.nodes ∧
        (s.offer QueueName.root node).node = { node with allocated := node.allocated + r.capability } ∧
        (s.assignOnce QueueName.root node).1.nodes =
          s.keepNode node { node with allocated := node.allocated + r.capability }) := by
  have hwell := h.tree.wellNamed
  have hroot : s.tree.find? QueueName.root = some s.tree.root :=
    hwell.root.find?_eq_some_iff.mpr ⟨Queue.mem_all_self _, hwell.root_name⟩
  simp only [assignOnce, offer, hroot, hwell.modify_root]
  obtain ⟨hnone, hzero, -⟩ | ⟨l, a, r, hchooses, hsome, hcreates⟩ :=
    (h.orderly hnonzero).assign_cases s.cluster ⟨node, s.nextContainer, s.metrics⟩
  · exact ⟨⟨fun hplaced => absurd hzero hplaced, fun heligible => absurd heligible hnone⟩,
      fun heligible => absurd heligible hnone⟩
  · refine ⟨⟨fun _ => ⟨l, a, r, hchooses.eligible⟩, fun _ => ?_⟩, fun _ => ?_⟩
    · rw [hcreates.resource]
      exact hsome
    · refine ⟨l, a, r, hchooses, fun _ _ _ hother => hchooses.unique hother, hcreates.resource,
        hcreates.holdings, hcreates.placement.next, trivial, hcreates.placement.node, ?_⟩
      rw [hcreates.placement.node]

/-- A scheduler in which an application asks first for more than there is. -/
def twoAsked : Scheduler Float :=
  (((oneLeaf.apply (.addNode "node" ⟨4, 4⟩)).apply (.submit "app" "a" "user" 0)).apply
    (.request "app" ⟨1, ⟨8, 8⟩, 1⟩)).apply (.request "app" ⟨2, ⟨1, 1⟩, 1⟩)

/-- The second request gets the container. -/
theorem assign_chooses_of_twoAsked :
    twoAsked.Reachable ∧
      (∀ a ∈ twoAsked.tree.root.attempts, ∀ r ∈ a.requests.values, r.capability ≠ 0) ∧
      ∃ l a r, Queue.Chooses twoAsked.cluster ⟨4, 4⟩ twoAsked.tree.root l a r ∧
        (twoAsked.offer QueueName.root (Node.new "node" ⟨4, 4⟩)).resource = r.capability ∧
        r.capability = ⟨1, 1⟩ := by
  have hreached : twoAsked.Reachable :=
    ((((Reachable.start _ oneLeaf ofConfig_oneLeaf).step _ (.addNode "node" ⟨4, 4⟩)).step _
      (.submit "app" "a" "user" 0)).step _ (.request "app" ⟨1, ⟨8, 8⟩, 1⟩)).step _
        (.request "app" ⟨2, ⟨1, 1⟩, 1⟩)
  have hnonzero : ∀ a ∈ twoAsked.tree.root.attempts, ∀ r ∈ a.requests.values, r.capability ≠ 0 := by
    decide +kernel
  have hplaced : (twoAsked.offer QueueName.root (Node.new "node" ⟨4, 4⟩)).resource = ⟨1, 1⟩ := by
    decide +kernel
  obtain ⟨hiff, hchosen⟩ := hreached.assign_chooses hnonzero (Node.new "node" ⟨4, 4⟩)
  have heligible := hiff.mp (by rw [hplaced]; decide)
  obtain ⟨l, a, r, hchooses, -, hcapability, -⟩ := hchosen heligible
  exact ⟨hreached, hnonzero, l, a, r, hchooses, hcapability, hcapability.symm.trans hplaced⟩

end Scheduler

end Allotment
