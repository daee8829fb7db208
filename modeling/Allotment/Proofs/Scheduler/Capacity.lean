import Allotment.Proofs.Scheduler.Numbers

/-!
# Capacity is conserved

As long as no id is given to a node or an application while another has it, every node accounts for
exactly the containers that the indexed applications hold on it. Every operation keeps this, by what
it does to the books: a container that is placed or given back is put on or taken off its node, a
node is taken away with what is on it, and no application is forgotten with containers in its hands.
-/

namespace Allotment.Scheduler

open scoped List

variable {F : Type} [Scalar F] {s s' : Scheduler F} {reused : List String}

/-- Whether an operation gives out no id that is in use. -/
def Orderly (s : Scheduler F) : Operation F → Prop
  | .addNode id _ => s.nodes.get? id = none
  | .submit id _ _ _ => s.apps.get? id = none
  | _ => True

/-- Whether a scheduler comes about from a configuration by orderly operations. -/
inductive OrderlyRun : Scheduler F → Prop where
  | start (c : SchedulerConfig F) (s : Scheduler F) (hmade : ofConfig c = .ok s) : OrderlyRun s
  | step (s : Scheduler F) (op : Operation F) (h : OrderlyRun s) (horderly : s.Orderly op) :
    OrderlyRun (s.apply op)

/-- An orderly operation submits no id once more. -/
theorem reuses_eq_nil {op : Operation F} (h : s.Orderly op) : s.reuses op = [] := by
  cases op with
  | submit id queue user priority =>
    have hfresh : s.apps.get? id = none := h
    rw [reuses, resubmitted, Table.contains, hfresh, Option.isSome_none, Bool.false_and]
    rfl
  | _ => rfl

/-- In an orderly run no id is reused. -/
theorem OrderlyRun.run (h : OrderlyRun s) : Run s [] := by
  induction h with
  | start c s hmade => exact .start c s hmade
  | step s op h horderly ih =>
    have hrun := ih.step s [] op
    rw [reuses_eq_nil horderly] at hrun
    exact hrun

/-- Whether the books of a scheduler are in order: index and members go together, nodes and held
containers balance, and the containers are numbered. -/
structure InOrder (s : Scheduler F) : Prop where
  listed : Listed s []
  accounts : Accounts s.nodes s.tree.root.holdings
  numbered : Numbered s.nextContainer s.tree.root.holdings

omit [Scalar F] in
/-- Whoever holds a container is a member. -/
theorem mem_members_of_holding {y : Member × Container} (hy : y ∈ s.tree.root.holdings) :
    y.1 ∈ s.tree.root.members := by
  obtain ⟨x, hx, c, -, rfl⟩ := Queue.mem_holdings_iff.mp hy
  exact Queue.mem_members_iff.mpr ⟨x, hx, rfl⟩

omit [Scalar F] in
/-- Without reuse, whoever is a member is indexed. -/
theorem Listed.get?_of_member (h : Listed s []) {m : Member} (hm : m ∈ s.tree.root.members) :
    s.apps.get? m.id = some m.serial :=
  h.get?_of_mem hm List.not_mem_nil

namespace InOrder

omit [Scalar F] in
/-- Balance and numbers stay when nodes, containers and the next number do. -/
theorem of_holdings (h : InOrder s) (hlisted : Listed s' [])
    (hholdings : s'.tree.root.holdings ~ s.tree.root.holdings) (hnodes : s'.nodes = s.nodes)
    (hnext : s'.nextContainer = s.nextContainer) : InOrder s' := by
  refine ⟨hlisted, ?_, ?_⟩
  · rw [hnodes]
    exact h.accounts.of_perm hholdings
  · rw [hnext]
    exact h.numbered.of_subperm hholdings.subperm

omit [Scalar F] in
/-- What leaves the books as they are leaves them in order. -/
theorem of_still (h : InOrder s) (hlisted : Listed s' []) (hstill : Still s s') : InOrder s' :=
  h.of_holdings hlisted (hstill.posts.flatMap_right _) hstill.nodes hstill.nextContainer

omit [Scalar F] in
/-- An application is admitted without containers. -/
theorem of_admits {id : String} (h : InOrder s) (hlisted : Listed s' []) (ha : Admits s s' id) :
    InOrder s' := by
  obtain ⟨leaf, hposts⟩ := ha.posts
  exact h.of_holdings hlisted (hposts.flatMap_right Post.holdings) ha.nodes ha.nextContainer

omit [Scalar F] in
/-- An application that is discharged gives back all that it holds, and nothing else is lost. -/
theorem of_discharges {id : String} {a : Attempt F} (h : InOrder s) (hlisted : Listed s' [])
    (happ : s.app? id = some a) (hd : Discharges s s' id a) : InOrder s' := by
  obtain ⟨x, hx, rfl, hleaf, hsame⟩ := h.listed.exists_seat happ
  obtain ⟨y, -, hid, hmembers, hholdings⟩ := hd.posts
  -- The application that has left the leaf is the one whose containers were given back.
  have hserial : y.member.serial = x.attempt.serial := by
    have hindexed := h.listed.get?_of_member (hmembers.mem_iff.mpr List.mem_cons_self)
    rw [hid, (Scheduler.exists_seat happ).1] at hindexed
    exact (Option.some.inj hindexed).symm
  have hempty : y.holdings = [] := by
    rw [List.eq_nil_iff_forall_not_mem]
    intro z hz
    have hkept := hholdings.mem_iff.mpr (List.mem_append_left _ hz)
    obtain ⟨c, -, rfl⟩ := List.mem_map.mp hz
    exact of_decide_eq_true (List.mem_filter.mp hkept).2 hserial
  rw [hempty, List.nil_append] at hholdings
  have hgiven := Queue.holdings_filter_serial h.listed.serials hx
  have hsplit : (x.attempt.live.map fun c => (x.attempt.member x.leaf, c)) ++
      s'.tree.root.holdings ~ s.tree.root.holdings := by
    rw [← hgiven]
    refine (hholdings.symm.append_left _).trans ?_
    simp only [ne_eq, decide_not]
    exact List.filter_append_perm _ _
  refine ⟨hlisted, ?_, ?_⟩
  · have hfreed := (h.accounts.of_perm hsplit).frees
    rw [List.map_map, Function.comp_def, List.map_id'] at hfreed
    rw [hd.nodes]
    exact hfreed
  · exact numbered_of_discharges h.numbered hd

omit [Scalar F] in
/-- A container that is given back leaves its node. -/
theorem of_releases {y : Member × Container} (h : InOrder s) (hlisted : Listed s' [])
    (hr : Releases s s' y) : InOrder s' := by
  have hholdings := hr.holdings h.numbered.nodup
  have hsplit : y :: s'.tree.root.holdings ~ s.tree.root.holdings := by
    rw [hholdings]
    exact cons_filter_key_perm h.numbered.nodup hr.held
  refine ⟨hlisted, ?_, ?_⟩
  · rw [hr.nodes]
    exact (h.accounts.of_perm hsplit).free
  · exact numbered_of_releases h.numbered hr

omit [Scalar F] in
/-- A node is taken away from all that hold containers on it. -/
theorem of_withdraws {node : String} (h : InOrder s) (hlisted : Listed s' [])
    (hw : Withdraws s s' node) : InOrder s' := by
  have hholdings := hw.holdings h.numbered.nodup
  have hindexed : ∀ y ∈ s.tree.root.holdings, s.apps.values.contains y.1.serial = true := by
    intro y hy
    rw [List.contains_iff_mem, Table.mem_values_iff]
    exact ⟨y.1.id, h.listed.get?_of_member (mem_members_of_holding hy)⟩
  rw [List.filter_congr (q := fun y => decide (y.2.node ≠ node)) (by
    intro y hy
    rw [hindexed y hy, Bool.true_and, decide_not])] at hholdings
  refine ⟨hlisted, ?_, ?_⟩
  · rw [hw.nodes]
    exact (h.accounts.erase node).of_perm hholdings
  · exact numbered_of_withdraws h.numbered hw

omit [Scalar F] in
/-- A registered node that is filled accounts for what was placed on it. -/
theorem of_fills {node : Node} (h : InOrder s) (hlisted : Listed s' [])
    (hnode : s.nodes.get? node.id = some node) (hf : Fills s s' node) : InOrder s' := by
  refine ⟨hlisted, ?_, (numbered_of_fills h.numbered hf).1⟩
  obtain ⟨p', given, hplaces, hholdings, hnodes, -⟩ := hf.placed
  rw [hnodes, keepNode_of_registered hnode]
  exact (h.accounts.place hnode hplaces).of_perm hholdings

/-- Offering a registered node keeps the books in order. -/
theorem assignOnce (h : InOrder s) (hs : s.tree.Reachable) (queue : String) {id : String} {node : Node}
    (hnode : s.nodes.get? id = some node) : InOrder (s.assignOnce queue node).1 := by
  have hlisted := h.listed.assignOnce hs queue node
  obtain hsame | hfills := assignOnce_cases hs queue node
  · rw [hsame]
    exact h
  · apply h.of_fills hlisted _ hfills
    rw [(h.accounts.carries id node hnode).1]
    exact hnode

/-- A heartbeat keeps the books in order. -/
theorem heartbeat (h : InOrder s) (hs : s.tree.Reachable) (node : String) :
    InOrder (s.heartbeat node).1 := by
  refine (fill_induction (P := fun s => s.tree.Reachable ∧ InOrder s) ?_ ⟨hs, h⟩ _ 0 0).2
  intro s n h hnode
  exact ⟨tree_assignOnce h.1 QueueName.root n, h.2.assignOnce h.1 QueueName.root hnode⟩

/-- Every orderly operation keeps the books in order. -/
theorem apply (h : InOrder s) (hs : s.tree.Reachable) {op : Operation F}
    (horderly : s.Orderly op) : InOrder (s.apply op) := by
  have hlisted := h.listed.apply hs op
  rw [reuses_eq_nil horderly, List.append_nil] at hlisted
  cases op with
  | addNode id total =>
    let added : Scheduler F := { s with nodes := s.nodes.insert id (Node.new id total) }
    have hholdings := ((quietly_refreshCluster (s := added) hs).posts hs).flatMap_right Post.holdings
    exact ⟨hlisted, (h.accounts.insert_new horderly total).of_perm hholdings,
      h.numbered.of_subperm hholdings.subperm⟩
  | removeNode id =>
    obtain hsame | hwithdraws := removeNode_cases hs id
    · rw [Scheduler.apply, hsame]
      exact h
    · exact h.of_withdraws hlisted hwithdraws
  | submit id queue user priority =>
    rw [Scheduler.apply] at hlisted ⊢
    obtain ⟨e, -, hstill⟩ | ⟨a, -, hadmits⟩ := submit_cases hs id queue user priority
    · exact h.of_still hlisted hstill
    · exact h.of_admits hlisted hadmits
  | removeApp id =>
    obtain ⟨-, hsame⟩ | ⟨a, happ, -, hdischarges⟩ :=
      removeApp_cases hs id fun a ha => h.listed.exists_member ha
    · rw [Scheduler.apply, hsame]
      exact h
    · exact h.of_discharges hlisted happ hdischarges
  | request id r => exact h.of_still hlisted (still_request s id r)
  | release id container =>
    obtain hsame | ⟨y, hreleases⟩ := release_cases h.listed.serials id container
    · rw [Scheduler.apply, hsame]
      exact h
    · exact h.of_releases hlisted hreleases
  | heartbeat node => exact h.heartbeat hs node
  | assign queue node => exact assign_induction (fun n hnode => h.assignOnce hs queue hnode) h
  | update | start | stop | preempt | reload | locate | setPolicy | updateDemand | setFairShare
  | recompute | preemptIn =>
    refine h.of_still hlisted (still_apply hs ?_)
    trivial

end InOrder

/-- In an orderly run the books are in order. -/
theorem OrderlyRun.inOrder (h : OrderlyRun s) : InOrder s := by
  induction h with
  | start c s hmade =>
    obtain ⟨-, -, hnodes, -⟩ := of_ofConfig hmade
    have hholdings := holdings_of_ofConfig hmade
    refine ⟨(Run.start c s hmade).listed, ?_, (Reachable.start c s hmade).numbered⟩
    rw [hnodes, hholdings]
    exact ⟨by simp [Table.get?, Table.empty], by simp⟩
  | step s op h horderly ih => exact ih.apply h.run.reachable.tree horderly

/-! ## The containers of the index -/

/-- The indexed applications. -/
def indexed (s : Scheduler F) : List (Attempt F) := s.apps.keys.filterMap s.app?

/-- The containers that the indexed applications hold. -/
def containers (s : Scheduler F) : List Container := s.indexed.flatMap Attempt.live

/-- The containers that indexed applications hold, with the applications. -/
def indexedHoldings (s : Scheduler F) : List (Member × Container) :=
  s.tree.root.holdings.filter fun y => s.apps.values.contains y.1.serial

namespace Listed

omit [Scalar F] in
/-- The serial number of an application tells it apart. -/
theorem app?_of_get? (h : Listed s reused) {id : String} {x : Seat F}
    (hx : x ∈ s.tree.root.seats) (hindex : s.apps.get? id = some x.attempt.serial) :
    s.app? id = some x.attempt := by
  have hmem : x.attempt ∈ s.tree.root.attempts := Queue.mem_attempts_iff.mpr ⟨x, hx, rfl⟩
  have hsome : (s.tree.root.attempts.find? fun a => a.serial = x.attempt.serial).isSome = true :=
    List.find?_isSome.mpr ⟨x.attempt, hmem, decide_eq_true rfl⟩
  obtain ⟨a, ha⟩ := Option.isSome_iff_exists.mp hsome
  have hserial : a.serial = x.attempt.serial := by simpa using List.find?_some ha
  obtain ⟨y, hy, rfl⟩ := Queue.mem_attempts_iff.mp (List.mem_of_find?_eq_some ha)
  rw [Queue.seat_injective h.serials hy hx hserial] at ha
  rw [app?, hindex, Option.bind_some, ha]

omit [Scalar F] in
/-- The indexed applications are those that are held under an indexed serial number. -/
theorem indexed_perm_filter (h : Listed s reused) :
    s.indexed ~ s.tree.root.attempts.filter fun a => s.apps.values.contains a.serial := by
  have hindexed : s.indexed.Nodup := by
    apply s.apps.nodup_keys.filterMap
    intro id id' a ha ha'
    obtain ⟨-, -, -, -, hid⟩ := h.exists_seat ha
    obtain ⟨-, -, -, -, hid'⟩ := h.exists_seat ha'
    rw [← hid, ← hid']
  rw [List.perm_ext_iff_of_nodup hindexed (h.nodup_attempts.of_map.filter _)]
  intro a
  rw [indexed, List.mem_filterMap, List.mem_filter, List.contains_iff_mem, Table.mem_values_iff]
  constructor
  · rintro ⟨id, -, happ⟩
    obtain ⟨hindex, x, hx, rfl⟩ := Scheduler.exists_seat happ
    exact ⟨Queue.mem_attempts_iff.mpr ⟨x, hx, rfl⟩, id, hindex⟩
  · rintro ⟨ha, id, hindex⟩
    obtain ⟨x, hx, rfl⟩ := Queue.mem_attempts_iff.mp ha
    exact ⟨id, List.mem_map_of_mem (Table.get?_eq_some_iff.mp hindex), h.app?_of_get? hx hindex⟩

omit [Scalar F] in
/-- The containers of the index are those that are held under an indexed serial number. -/
theorem containers_perm_filter (h : Listed s reused) :
    s.containers ~ s.indexedHoldings.map (·.2) := by
  have hholdings : s.indexedHoldings.map (·.2) =
      (s.tree.root.attempts.filter fun a => s.apps.values.contains a.serial).flatMap
        Attempt.live := by
    rw [indexedHoldings, Queue.holdings, Queue.posts, List.flatMap_map, ← Queue.map_attempt_seats]
    induction s.tree.root.seats with
    | nil => rfl
    | cons x rest ih =>
      have hone : ((x.attempt.post x.leaf).holdings.filter fun y =>
          s.apps.values.contains y.1.serial).map (·.2) =
          if s.apps.values.contains x.attempt.serial then x.attempt.live else [] := by
        rw [Post.holdings, List.filter_map, List.map_map]
        change ((x.attempt.live.filter fun _ => s.apps.values.contains x.attempt.serial).map _) = _
        split
        · rename_i hindexed
          rw [List.filter_eq_self.mpr fun _ _ => hindexed]
          exact List.map_id' _
        · rename_i hloose
          rw [List.filter_eq_nil_iff.mpr fun _ _ => hloose]
          rfl
      rw [List.flatMap_cons, List.filter_append, List.map_append, ih, hone, List.map_cons,
        List.filter_cons]
      split <;> rfl
  rw [hholdings]
  exact h.indexed_perm_filter.flatMap_right _

omit [Scalar F] in
/-- Without reuse, whoever is a member is indexed by the serial number. -/
theorem contains_of_member (h : Listed s []) {m : Member} (hm : m ∈ s.tree.root.members) :
    s.apps.values.contains m.serial = true :=
  List.contains_iff_mem.mpr (Table.mem_values_iff.mpr ⟨m.id, h.get?_of_member hm⟩)

omit [Scalar F] in
/-- Without reuse, the indexed applications are those that are held. -/
theorem indexed_perm (h : Listed s []) : s.indexed ~ s.tree.root.attempts := by
  have hall : ∀ a ∈ s.tree.root.attempts, s.apps.values.contains a.serial = true := by
    intro a ha
    obtain ⟨x, hx, rfl⟩ := Queue.mem_attempts_iff.mp ha
    exact h.contains_of_member (Queue.mem_members_iff.mpr ⟨x, hx, rfl⟩)
  have hperm := h.indexed_perm_filter
  rwa [List.filter_eq_self.mpr hall] at hperm

omit [Scalar F] in
/-- Without reuse, the containers of the index are those that are held. -/
theorem containers_perm (h : Listed s []) : s.containers ~ s.tree.root.holdings.map (·.2) := by
  have hperm := h.containers_perm_filter
  rwa [indexedHoldings, List.filter_eq_self.mpr fun y hy =>
    h.contains_of_member (mem_members_of_holding hy)] at hperm

end Listed

/-- Along every run in which no id is given out while it is in use, of every registered node exactly as
much is allocated as the containers of the indexed applications on it have, and never more than the
node offers. Every container is on a registered node and names its application and the queue of that,
no two containers bear the same number, and none is held outside the index. -/
theorem OrderlyRun.capacity_conserved (h : OrderlyRun s) :
    (∀ n node, s.nodes.get? n = some node → node.allocated ≤ node.total ∧
      ∀ d, (node.allocated.get d).toNat =
        ((s.containers.filter fun c => c.node = n).map fun c => (c.resource.get d).toNat).sum) ∧
    (∀ id a, s.app? id = some a → ∀ c ∈ a.live,
      s.nodes.contains c.node = true ∧ c.app = id ∧ c.queue = a.queue) ∧
    (s.containers.map Container.id).Nodup ∧
    s.containers.Perm (s.tree.root.attempts.flatMap Attempt.live) := by
  have hin := h.inOrder
  have hperm := hin.listed.containers_perm
  refine ⟨?_, ?_, ?_, ?_⟩
  · intro n node hnode
    obtain ⟨hid, hfits, hexact⟩ := hin.accounts.carries n node hnode
    refine ⟨hfits, ?_⟩
    intro d
    have hload : load d (onNode n s.tree.root.holdings) =
        (((s.tree.root.holdings.map (·.2)).filter fun c => c.node = n).map
          fun c => (c.resource.get d).toNat).sum := by
      rw [load, onNode, List.filter_map, List.map_map]
      rfl
    rw [hexact, hid, hload]
    exact ((hperm.filter _).map _).sum_nat.symm
  · intro id a happ c hc
    obtain ⟨x, hx, rfl, -, hid⟩ := hin.listed.exists_seat happ
    have hheld := Queue.mem_holdings_iff.mpr ⟨x, hx, c, hc, rfl⟩
    obtain ⟨hown, hqueue⟩ := hin.numbered.own _ hheld
    exact ⟨hin.accounts.registered _ hheld, hown.trans hid, hqueue⟩
  · rw [(hperm.map _).nodup_iff, List.map_map]
    exact hin.numbered.nodup
  · exact hin.listed.indexed_perm.flatMap_right _

/-- The scheduler after a node was filled with one of two containers asked for. -/
def oneContainer : Scheduler Float :=
  (((oneLeaf.apply (.addNode "node" ⟨4, 4⟩)).apply (.submit "app" "a" "user" 0)).apply
    (.request "app" ⟨1, ⟨1, 1⟩, 2⟩)).apply (.heartbeat "node")

/-- What is allocated of the node is what the container has. When the node is taken away, the container
goes with it. -/
theorem capacity_conserved_of_oneContainer :
    OrderlyRun oneContainer ∧
      oneContainer.nodes.get? "node" = some ⟨"node", ⟨4, 4⟩, ⟨1, 1⟩⟩ ∧
      oneContainer.containers = [⟨1, "app", "root.a", "node", ⟨1, 1⟩, 1⟩] ∧
      (∀ d, ((⟨1, 1⟩ : Resource).get d).toNat =
        ((oneContainer.containers.filter fun c => c.node = "node").map
          fun c => (c.resource.get d).toNat).sum) ∧
      (oneContainer.apply (.removeNode "node")).containers = [] := by
  have hadded := (OrderlyRun.start _ oneLeaf ofConfig_oneLeaf).step _ (.addNode "node" ⟨4, 4⟩) rfl
  have hsubmitted := hadded.step _ (.submit "app" "a" "user" 0) rfl
  have hasked := hsubmitted.step _ (.request "app" ⟨1, ⟨1, 1⟩, 2⟩) trivial
  have hfilled : OrderlyRun oneContainer := hasked.step _ (.heartbeat "node") trivial
  have hnode : oneContainer.nodes.get? "node" = some ⟨"node", ⟨4, 4⟩, ⟨1, 1⟩⟩ := by
    decide +kernel
  obtain ⟨haccounts, -, -, -⟩ := hfilled.capacity_conserved
  exact ⟨hfilled, hnode, by decide +kernel, (haccounts "node" _ hnode).2, by decide +kernel⟩

end Allotment.Scheduler
