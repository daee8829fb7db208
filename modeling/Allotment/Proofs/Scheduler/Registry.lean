import Allotment.Proofs.Scheduler.Numbers

/-!
# The registry of nodes

Whatever a scheduler is asked to do, every node is registered under its own id, and no indexed application
holds a container on a node that is not registered. An application that the index has lost may: when a
node is taken away, its containers are taken from the indexed applications only.
-/

namespace Allotment.Scheduler

variable {F : Type} [Scalar F] {s s' : Scheduler F} {nodes : Table String Node}

/-- Whether every node is registered under its own id. -/
def Named (nodes : Table String Node) : Prop := ∀ id node, nodes.get? id = some node → node.id = id

namespace Named

/-- A node may be registered under its own id. -/
theorem insert (h : Named nodes) {id : String} {node : Node} (hnode : node.id = id) :
    Named (nodes.insert id node) := by
  intro id' node' hfound
  rw [Table.get?_insert] at hfound
  split at hfound
  · rename_i hid
    rw [← Option.some.inj hfound, hnode, hid]
  · exact h id' node' hfound

/-- A node may be taken away. -/
theorem erase (h : Named nodes) (id : String) : Named (nodes.erase id) := by
  intro id' node' hfound
  rw [Table.get?_erase] at hfound
  split at hfound
  · contradiction
  · exact h id' node' hfound

/-- A node from which a container is taken keeps its id. -/
theorem free (h : Named nodes) (c : Container) : Named (freeContainer nodes c) := by
  intro id node hfound
  unfold freeContainer at hfound
  rw [Table.get?_modify] at hfound
  split at hfound
  · obtain ⟨before, hbefore, rfl⟩ := Option.map_eq_some_iff.mp hfound
    exact h id before hbefore
  · exact h id node hfound

end Named

/-- Taking a container from its node leaves the nodes that are registered. -/
theorem contains_freeContainer (nodes : Table String Node) (c : Container) (n : String) :
    (freeContainer nodes c).contains n = nodes.contains n := by
  unfold freeContainer
  rw [Table.contains, Table.contains, Table.get?_modify]
  split
  · rw [Option.isSome_map]
  · rfl

/-- Whether every node is registered under its own id, and every container of an indexed application is on
a registered node. -/
structure Registered (s : Scheduler F) : Prop where
  named : Named s.nodes
  housed : ∀ y ∈ s.tree.root.holdings, y.1.serial ∈ s.apps.values →
    s.nodes.contains y.2.node = true

namespace Registered

omit [Scalar F] in
/-- Fewer containers of the same indexed applications may be held on the same nodes. -/
theorem of_subset (h : Registered s) (hnamed : Named s'.nodes)
    (hholdings : s'.tree.root.holdings ⊆ s.tree.root.holdings)
    (happs : ∀ serial ∈ s'.apps.values, serial ∈ s.apps.values)
    (hnodes : ∀ n, s'.nodes.contains n = s.nodes.contains n) : Registered s' := by
  refine ⟨hnamed, fun y hy hindexed => ?_⟩
  rw [hnodes]
  exact h.housed y (hholdings hy) (happs _ hindexed)

omit [Scalar F] in
/-- What leaves the books as they are leaves nodes registered. -/
theorem of_still (h : Registered s) (hstill : Still s s') : Registered s' := by
  apply h.of_subset
  · rw [hstill.nodes]
    exact h.named
  · exact (hstill.posts.flatMap_right Post.holdings).subset
  · rw [hstill.apps]
    exact fun serial hserial => hserial
  · exact fun n => by rw [hstill.nodes]

omit [Scalar F] in
/-- An application is admitted without containers, and bears a serial number that no other bears. -/
theorem of_admits {reused : List String} {id : String} (h : Registered s) (hlisted : Listed s reused)
    (ha : Admits s s' id) : Registered s' := by
  obtain ⟨leaf, hposts⟩ := ha.posts
  have hholdings : s'.tree.root.holdings ⊆ s.tree.root.holdings :=
    (hposts.flatMap_right Post.holdings).subset
  refine ⟨?_, fun y hy hindexed => ?_⟩
  · rw [ha.nodes]
    exact h.named
  · have hheld := hholdings hy
    rw [ha.nodes]
    apply h.housed y hheld
    rw [Table.mem_values_iff] at hindexed ⊢
    obtain ⟨id', hid'⟩ := hindexed
    rw [ha.apps, Table.get?_insert] at hid'
    split at hid'
    · have hlt := hlisted.serial_lt y.1 (by
        obtain ⟨x, hx, c, -, rfl⟩ := Queue.mem_holdings_iff.mp hheld
        exact Queue.mem_members_iff.mpr ⟨x, hx, rfl⟩)
      have hnext := ha.nextSerial
      have hserial := Option.some.inj hid'
      omega
    · exact ⟨id', hid'⟩

omit [Scalar F] in
/-- An application that is discharged gives containers back. -/
theorem of_discharges {id : String} {a : Attempt F} (h : Registered s) (hd : Discharges s s' id a) :
    Registered s' := by
  obtain ⟨x, -, -, -, hholdings⟩ := hd.posts
  have hnodes : ∀ cs : List Container, ∀ nodes : Table String Node, Named nodes →
      Named (cs.foldl freeContainer nodes) ∧
        ∀ n, (cs.foldl freeContainer nodes).contains n = nodes.contains n := by
    intro cs
    induction cs with
    | nil => exact fun nodes hnamed => ⟨hnamed, fun _ => rfl⟩
    | cons c rest ih =>
      intro nodes hnamed
      obtain ⟨hkept, hsame⟩ := ih _ (hnamed.free c)
      exact ⟨hkept, fun n => (hsame n).trans (contains_freeContainer nodes c n)⟩
  obtain ⟨hnamed, hsame⟩ := hnodes a.live s.nodes h.named
  rw [← hd.nodes] at hnamed hsame
  apply h.of_subset hnamed
  · intro y hy
    exact (List.mem_filter.mp (hholdings.mem_iff.mpr (List.mem_append_right _ hy))).1
  · intro serial hserial
    rw [Table.mem_values_iff] at hserial ⊢
    obtain ⟨id', hid'⟩ := hserial
    rw [hd.apps, Table.get?_erase] at hid'
    split at hid'
    · contradiction
    · exact ⟨id', hid'⟩
  · exact hsame

omit [Scalar F] in
/-- A container is given back. -/
theorem of_releases {y : Member × Container} (h : Registered s)
    (hnumbered : Numbered s.nextContainer s.tree.root.holdings) (hr : Releases s s' y) :
    Registered s' := by
  apply h.of_subset
  · rw [hr.nodes]
    exact h.named.free y.2
  · rw [hr.holdings hnumbered.nodup]
    exact List.filter_subset_self _
  · rw [hr.apps]
    exact fun serial hserial => hserial
  · exact fun n => by rw [hr.nodes, contains_freeContainer]

omit [Scalar F] in
/-- A node is taken away from the indexed applications. -/
theorem of_withdraws {node : String} (h : Registered s)
    (hnumbered : Numbered s.nextContainer s.tree.root.holdings) (hw : Withdraws s s' node) :
    Registered s' := by
  refine ⟨?_, fun y hy hindexed => ?_⟩
  · rw [hw.nodes]
    exact h.named.erase node
  · obtain ⟨hheld, hkept⟩ := List.mem_filter.mp ((hw.holdings hnumbered.nodup).mem_iff.mp hy)
    rw [hw.apps] at hindexed
    have helse : node ≠ y.2.node := by
      rintro rfl
      simp [hindexed] at hkept
    rw [hw.nodes, Table.contains, Table.get?_erase, if_neg helse]
    exact h.housed y hheld hindexed

omit [Scalar F] in
/-- A registered node that is filled is registered with what was placed on it. -/
theorem of_fills {node : Node} (h : Registered s) (hnode : s.nodes.get? node.id = some node)
    (hf : Fills s s' node) : Registered s' := by
  obtain ⟨p', given, hplaces, hholdings, hnodes, -⟩ := hf.placed
  rw [keepNode_of_registered hnode] at hnodes
  refine ⟨?_, fun y hy hindexed => ?_⟩
  · rw [hnodes]
    exact h.named.insert hplaces.node_id
  · rw [hnodes, Table.contains, Table.get?_insert]
    split
    · rfl
    · rename_i helse
      rw [hf.apps] at hindexed
      obtain hy | hy := List.mem_append.mp (hholdings.mem_iff.mp hy)
      · exact h.housed y hy hindexed
      · exact absurd (hplaces.on_node y hy).symm helse

/-- Offering a registered node to a queue keeps nodes registered. -/
theorem assignOnce (h : Registered s) (hs : s.tree.Reachable) (queue : String) {id : String}
    {node : Node} (hnode : s.nodes.get? id = some node) : Registered (s.assignOnce queue node).1 := by
  obtain hsame | hfills := assignOnce_cases hs queue node
  · rw [hsame]
    exact h
  · apply h.of_fills _ hfills
    rw [h.named id node hnode]
    exact hnode

/-- Every operation keeps nodes registered. -/
theorem apply {reused : List String} (h : Registered s) (hs : s.tree.Reachable)
    (hlisted : Listed s reused) (hnumbered : Numbered s.nextContainer s.tree.root.holdings)
    (op : Operation F) : Registered (s.apply op) := by
  cases op with
  | addNode id total =>
    let added : Scheduler F := { s with nodes := s.nodes.insert id (Node.new id total) }
    have hposts := (quietly_refreshCluster (s := added) hs).posts hs
    refine ⟨h.named.insert rfl, fun y hy hindexed => ?_⟩
    change (s.nodes.insert id (Node.new id total)).contains y.2.node = true
    rw [Table.contains, Table.get?_insert]
    split
    · rfl
    · exact h.housed y ((hposts.flatMap_right Post.holdings).subset hy) hindexed
  | removeNode id =>
    rw [Scheduler.apply]
    obtain hsame | hwithdraws := removeNode_cases hs id
    · rw [hsame]
      exact h
    · exact h.of_withdraws hnumbered hwithdraws
  | submit id queue user priority =>
    rw [Scheduler.apply]
    obtain ⟨e, -, hstill⟩ | ⟨a, -, hadmits⟩ := submit_cases hs id queue user priority
    · exact h.of_still hstill
    · exact h.of_admits hlisted hadmits
  | removeApp id =>
    rw [Scheduler.apply]
    obtain ⟨-, hsame⟩ | ⟨a, -, -, hdischarges⟩ :=
      removeApp_cases hs id fun a ha => hlisted.exists_member ha
    · rw [hsame]
      exact h
    · exact h.of_discharges hdischarges
  | request id r => exact h.of_still (still_request s id r)
  | release id container =>
    rw [Scheduler.apply]
    obtain hsame | ⟨y, hreleases⟩ := release_cases hlisted.serials id container
    · rw [hsame]
      exact h
    · exact h.of_releases hnumbered hreleases
  | heartbeat node =>
    refine (fill_induction (P := fun s' => s'.tree.Reachable ∧ Registered s') ?_ ⟨hs, h⟩ _ 0 0).2
    intro s n h' hnode
    exact ⟨tree_assignOnce h'.1 QueueName.root n, h'.2.assignOnce h'.1 QueueName.root hnode⟩
  | assign queue node => exact assign_induction (fun n hnode => h.assignOnce hs queue hnode) h
  | update | start | stop | preempt | reload | locate | setPolicy | updateDemand | setFairShare
  | recompute | preemptIn =>
    refine h.of_still (still_apply hs ?_)
    trivial

end Registered

/-- Every node of a scheduler that comes about is registered under its own id, with the containers that
indexed applications hold on it. -/
theorem Reachable.registered (h : s.Reachable) : Registered s := by
  induction h with
  | start c s hmade =>
    obtain ⟨-, -, hnodes, -⟩ := of_ofConfig hmade
    refine ⟨?_, ?_⟩
    · simp [Named, hnodes, Table.get?, Table.empty]
    · simp [holdings_of_ofConfig hmade]
  | step s op h ih =>
    obtain ⟨reused, hrun⟩ := h.exists_run
    exact ih.apply h.tree hrun.listed h.numbered op

end Allotment.Scheduler
