import Allotment.Proofs.Scheduler.Capacity
import Allotment.Proofs.Scheduler.Registry

/-!
# Registering a node

Registering a node puts a new one in place of whatever node had its id, and nothing is allocated of the new
one. What is left of it is therefore right exactly if the indexed applications hold nothing on the id in
any dimension of which the node offers something, as when no node had the id before. From then on heartbeats
allocate no more of the node than it offers, beside what was on it already.
-/

namespace Allotment.Scheduler

open scoped List

variable {F : Type} [Scalar F] {s s' : Scheduler F} {reused : List String}

/-! ## The containers of the index on a node -/

/-- The amount of a dimension that the containers of the indexed applications on a node have together. -/
def loadOn (s : Scheduler F) (n : String) (d : Dimension) : ℕ :=
  ((s.containers.filter fun c => c.node = n).map fun c => (c.resource.get d).toNat).sum

omit [Scalar F] in
/-- What the containers of the index on a node have is what is held on it under indexed serial numbers. -/
theorem Listed.loadOn_eq (h : Listed s reused) (n : String) (d : Dimension) :
    s.loadOn n d = load d (onNode n s.indexedHoldings) := by
  rw [loadOn, ((h.containers_perm_filter.filter _).map _).sum_nat, load, onNode, List.filter_map,
    List.map_map]
  rfl

/-! ## Heartbeats -/

/-- The scheduler after nodes have reported in one after another. -/
def heartbeats (s : Scheduler F) (ids : List String) : Scheduler F :=
  ids.foldl (fun s id => (s.heartbeat id).1) s

/-- Whether a registered node offers some total, of which no more is allocated than it offers, and holds
nothing beside what is allocated and some amounts that were on it before. -/
structure Bears (s : Scheduler F) (id : String) (total : Resource) (before : Dimension → ℕ) : Prop where
  reachable : s.Reachable
  node : ∃ node, s.nodes.get? id = some node ∧ node.total = total ∧ node.allocated ≤ node.total ∧
    ∀ d, load d (onNode id s.indexedHoldings) ≤ before d + (node.allocated.get d).toNat

variable {id : String} {total : Resource} {before : Dimension → ℕ}

/-- Filling a node puts on it no more than what is allocated, and nothing on any other. -/
theorem Bears.of_fills {node : Node} (h : Bears s id total before) (hs' : s'.Reachable)
    (hnode : s.nodes.get? node.id = some node) (hf : Fills s s' node) : Bears s' id total before := by
  obtain ⟨p', given, hplaces, hholdings, hnodes, -⟩ := hf.placed
  rw [keepNode_of_registered hnode] at hnodes
  obtain ⟨found, hfound, htotal, hfits, hload⟩ := h.node
  have hindexed : s'.indexedHoldings ~
      s.indexedHoldings ++ given.filter fun y => s.apps.values.contains y.1.serial := by
    rw [indexedHoldings, indexedHoldings, hf.apps, ← List.filter_append]
    exact hholdings.filter _
  have hafter : ∀ d, load d (onNode id s'.indexedHoldings) ≤
      load d (onNode id s.indexedHoldings) + load d (onNode id given) := by
    intro d
    rw [onNode, load_perm d (hindexed.filter _), List.filter_append, load_append]
    apply Nat.add_le_add_left
    exact load_le_of_sublist d (List.filter_sublist.filter _)
  refine ⟨hs', ?_⟩
  by_cases hid : node.id = id
  · obtain rfl := hid
    obtain rfl := Option.some.inj (hnode.symm.trans hfound)
    obtain ⟨hfits', hallocated⟩ := hplaces.allocated hfits
    refine ⟨p'.node, by rw [hnodes, Table.get?_insert, if_pos rfl], hplaces.total.trans htotal, hfits',
      fun d => ?_⟩
    have hgiven : onNode node.id given = given := by
      rw [onNode, List.filter_eq_self]
      exact fun x hx => decide_eq_true (hplaces.on_node x hx)
    have hstep := hafter d
    have hold := hload d
    have hmore : (p'.node.allocated.get d).toNat = (node.allocated.get d).toNat + load d given :=
      hallocated d
    rw [hgiven] at hstep
    omega
  · refine ⟨found, by rw [hnodes, Table.get?_insert, if_neg hid, hfound], htotal, hfits, fun d => ?_⟩
    have hgiven : onNode id given = [] := by
      rw [onNode, List.filter_eq_nil_iff]
      intro x hx hon
      exact hid ((hplaces.on_node x hx).symm.trans (of_decide_eq_true hon))
    have hstep := hafter d
    rw [hgiven, load_nil, Nat.add_zero] at hstep
    exact hstep.trans (hload d)

/-- Heartbeats keep what a node bears. -/
theorem Bears.heartbeats (h : Bears s id total before) (ids : List String) :
    Bears (s.heartbeats ids) id total before := by
  induction ids generalizing s with
  | nil => exact h
  | cons n rest ih =>
    apply ih
    refine fill_induction (P := fun s => Bears s id total before) ?_ h _ 0 0
    intro s node hbears hnode
    have hnamed := hbears.reachable.registered.named n node hnode
    obtain hsame | hfills := assignOnce_cases hbears.reachable.tree QueueName.root node
    · rw [hsame]
      exact hbears
    · apply hbears.of_fills (hbears.reachable.of_assignOnce QueueName.root hnode) _ hfills
      rw [hnamed]
      exact hnode

/-! ## Registration -/

omit [Scalar F] in
/-- What is left of a new node is the whole. -/
theorem toNat_available_new (id : String) (total : Resource) (d : Dimension) :
    ((Node.new id total).available.get d).toNat = (total.get d).toNat := by
  rw [Node.available, Resource.toNat_get_sub]
  change (total.get d).toNat - ((0 : Resource).get d).toNat = _
  rw [Resource.toNat_get_zero, Nat.sub_zero]

/-- Registering a node leaves every application with what it holds. -/
theorem Reachable.indexedHoldings_addNode (h : s.Reachable) (id : String) (total : Resource) :
    (s.addNode id total).indexedHoldings ~ s.indexedHoldings := by
  let added : Scheduler F := { s with nodes := s.nodes.insert id (Node.new id total) }
  have hposts := (quietly_refreshCluster (s := added) h.tree).posts h.tree
  exact (hposts.flatMap_right Post.holdings).filter _

/-- Nothing of the index is on an id that no node has. -/
theorem Reachable.loadOn_unregistered (h : s.Reachable) {id : String} (hnone : s.nodes.get? id = none)
    (d : Dimension) : s.loadOn id d = 0 := by
  obtain ⟨reused, hrun⟩ := h.exists_run
  have hempty : onNode id s.indexedHoldings = [] := by
    rw [onNode, List.filter_eq_nil_iff]
    intro y hy hon
    obtain ⟨hheld, hindexed⟩ := List.mem_filter.mp hy
    have hhoused := h.registered.housed y hheld (List.contains_iff_mem.mp hindexed)
    rw [of_decide_eq_true hon, Table.contains, hnone] at hhoused
    contradiction
  rw [hrun.listed.loadOn_eq, hempty, load_nil]

/-- Registering a node leaves the containers of the index on every node. -/
theorem Reachable.loadOn_addNode (h : s.Reachable) (id : String) (total : Resource) (n : String)
    (d : Dimension) : (s.addNode id total).loadOn n d = s.loadOn n d := by
  obtain ⟨reused, hrun⟩ := h.exists_run
  obtain ⟨reused', hrun'⟩ := (h.step _ (.addNode id total)).exists_run
  have hload := hrun'.listed.loadOn_eq n d
  rw [apply] at hload
  rw [hload, hrun.listed.loadOn_eq]
  exact load_perm d ((h.indexedHoldings_addNode id total).filter _)

/-- A node that is registered bears what is on its id, and nothing is allocated of it. -/
theorem Reachable.bears_addNode (h : s.Reachable) (id : String) (total : Resource) :
    Bears (s.addNode id total) id total fun d => s.loadOn id d := by
  have hadded : (s.addNode id total).Reachable := h.step _ (.addNode id total)
  refine ⟨hadded, Node.new id total, ?_, rfl, ?_, fun d => ?_⟩
  · change (s.nodes.insert id (Node.new id total)).get? id = some (Node.new id total)
    rw [Table.get?_insert, if_pos rfl]
  · rw [Resource.le_iff_toNat]
    exact fun d => Resource.toNat_get_zero_le total d
  · obtain ⟨reused, hrun⟩ := hadded.exists_run
    rw [← hrun.listed.loadOn_eq, h.loadOn_addNode]
    exact Nat.le_add_right _ _

/-- The containers of the index on a node have no more than what was there before and the node offers. -/
theorem Bears.loadOn_le (h : Bears s id total before) (d : Dimension) :
    s.loadOn id d ≤ before d + (total.get d).toNat := by
  obtain ⟨hreached, node, -, rfl, hfits, hload⟩ := h
  obtain ⟨reused, hrun⟩ := hreached.exists_run
  rw [hrun.listed.loadOn_eq]
  exact (hload d).trans (Nat.add_le_add_left (Resource.le_iff_toNat.mp hfits d) _)

/-- Whatever a scheduler was asked to do before, registering a node puts a new one under its id of which
all is left, and the cluster has what all registered nodes offer, as far as amounts go; the containers of
the index stay. What is left of the node is what the containers on it leave of it exactly if in no dimension
both the node offers something and they have something, which is so whenever no node had the id. However
nodes report in from then on, the containers on the node never have more than what they had before and what
the node offers. -/
theorem Reachable.addNode_accounts (h : s.Reachable) (id : String) (total : Resource) :
    (s.addNode id total).nodes = s.nodes.insert id (Node.new id total) ∧
    (∀ d, ((s.addNode id total).cluster.get d).toNat =
      min ((s.addNode id total).nodes.values.map fun n => (n.total.get d).toNat).sum
        Amount.limit.toNat) ∧
    (∀ n d, (s.addNode id total).loadOn n d = s.loadOn n d) ∧
    ((∀ d, ((Node.new id total).available.get d).toNat = (total.get d).toNat - s.loadOn id d) ↔
      ∀ d, (total.get d).toNat = 0 ∨ s.loadOn id d = 0) ∧
    (s.nodes.get? id = none → ∀ d, s.loadOn id d = 0) ∧
    ∀ ids d, ((s.addNode id total).heartbeats ids).loadOn id d ≤ s.loadOn id d + (total.get d).toNat := by
  refine ⟨rfl, fun d => ?_, h.loadOn_addNode id total, ?_, fun hnone d => h.loadOn_unregistered hnone d,
    fun ids d => ((h.bears_addNode id total).heartbeats ids).loadOn_le d⟩
  · change ((Resource.sum ((s.nodes.insert id (Node.new id total)).values.map Node.total)).get d).toNat = _
    rw [Resource.toNat_get_sum, List.map_map]
    rfl
  · refine forall_congr' fun d => ?_
    rw [toNat_available_new]
    omega

/-- A scheduler whose only node is full, with a container for which the application has asked twice. -/
def fullNode : Scheduler Float :=
  (((oneLeaf.apply (.addNode "node" ⟨4, 4⟩)).apply (.submit "app" "a" "user" 0)).apply
    (.request "app" ⟨1, ⟨4, 4⟩, 2⟩)).apply (.heartbeat "node")

/-- The full node comes about from a configuration. -/
theorem reachable_fullNode : fullNode.Reachable :=
  ((((Reachable.start _ oneLeaf ofConfig_oneLeaf).step _ (.addNode "node" ⟨4, 4⟩)).step _
    (.submit "app" "a" "user" 0)).step _ (.request "app" ⟨1, ⟨4, 4⟩, 2⟩)).step _ (.heartbeat "node")

/-- A second node is registered beside the full one, and is filled to no more than it offers. -/
theorem addNode_accounts_of_fullNode :
    fullNode.Reachable ∧ fullNode.nodes.get? "other" = none ∧
      (∀ d, ((Node.new "other" ⟨5, 5⟩).available.get d).toNat =
        ((⟨5, 5⟩ : Resource).get d).toNat - fullNode.loadOn "other" d) ∧
      ((fullNode.addNode "other" ⟨5, 5⟩).heartbeats ["other", "node", "other"]).loadOn "other" .memory = 4 ∧
      ((fullNode.addNode "other" ⟨5, 5⟩).heartbeats ["other", "node", "other"]).loadOn "other" .memory ≤
        fullNode.loadOn "other" .memory + 5 := by
  have hnone : fullNode.nodes.get? "other" = none := by decide +kernel
  obtain ⟨-, -, -, hright, hfresh, hbound⟩ := reachable_fullNode.addNode_accounts "other" ⟨5, 5⟩
  exact ⟨reachable_fullNode, hnone, hright.mpr fun d => .inr (hfresh hnone d), by decide +kernel,
    hbound ["other", "node", "other"] .memory⟩

/-- When the full node is registered once more all of it is left although the container is still on it, and
after the next heartbeat the containers on it have twice what it offers. -/
theorem forgotten_of_fullNode :
    fullNode.Reachable ∧
      fullNode.nodes.get? "node" = some ⟨"node", ⟨4, 4⟩, ⟨4, 4⟩⟩ ∧
      fullNode.loadOn "node" .memory = 4 ∧
      ((fullNode.addNode "node" ⟨4, 4⟩).nodes.get? "node").map Node.available = some ⟨4, 4⟩ ∧
      (fullNode.addNode "node" ⟨4, 4⟩).loadOn "node" .memory = 4 ∧
      ((fullNode.addNode "node" ⟨4, 4⟩).heartbeats ["node"]).loadOn "node" .memory = 8 := by
  refine ⟨reachable_fullNode, ?_, ?_, ?_, ?_, ?_⟩ <;> decide +kernel

end Allotment.Scheduler
