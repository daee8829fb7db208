import Allotment.Proofs.Queue.Quiet
import Allotment.Scheduler

/-!
# Schedulers that come about

A scheduler starts from a configuration, and from then on nodes and applications come and go, nodes
report in, shares are brought up to date and the configuration is reloaded. Whatever the scheduler
does to its tree is made of operations on trees, so its tree is always one that comes about by them.
-/

namespace Allotment.Scheduler

variable {F : Type} [Scalar F]

/-- What can be asked of a scheduler. -/
inductive Operation (F : Type) where
  | addNode (id : String) (total : Resource)
  | removeNode (id : String)
  | submit (id queue user : String) (priority : ℕ)
  | removeApp (id : String)
  | request (id : String) (r : Request)
  | release (id : String) (container : ℕ)
  | heartbeat (node : String)
  | update
  | start
  | stop
  | preempt
  | reload (c : SchedulerConfig F)
  | locate (name : String) (create : Bool) (kind : QueueKind)
  | setPolicy (queue : String) (policy : Policy)
  | updateDemand (queue : String)
  | setFairShare (queue : String) (share : Resource)
  | recompute (queue : String)
  | assign (queue node : String)
  | preemptIn (queue : String)

/-- The scheduler after an operation, whether or not that was refused. -/
def apply (s : Scheduler F) : Operation F → Scheduler F
  | .addNode id total => s.addNode id total
  | .removeNode id => (s.removeNode id).1
  | .submit id queue user priority => (s.submit id queue user priority).1
  | .removeApp id => (s.removeApp id).1
  | .request id r => s.request id r
  | .release id container => (s.release id container).1
  | .heartbeat node => (s.heartbeat node).1
  | .update => s.update
  | .start => s.start
  | .stop => s.stop
  | .preempt => s.preempt.1
  | .reload c => (s.reload c).1
  | .locate name create kind => { s with tree := (s.tree.locate name create kind).1 }
  | .setPolicy queue policy => (s.setPolicy queue policy).1
  | .updateDemand queue => s.updateDemand queue
  | .setFairShare queue share => s.setFairShare queue share
  | .recompute queue => s.recompute queue
  | .assign queue node => (s.nodes.get? node).elim s fun node => (s.assignOnce queue node).1
  | .preemptIn queue => (s.preemptIn queue).1

/-- Whether a scheduler comes about from a configuration by operations. -/
inductive Reachable : Scheduler F → Prop where
  | start (c : SchedulerConfig F) (s : Scheduler F) (hmade : ofConfig c = .ok s) : Reachable s
  | step (s : Scheduler F) (op : Operation F) (h : Reachable s) : Reachable (s.apply op)

/-- Whether an operation leaves applications where they are, with what they hold, and no container is
placed. -/
def Operation.IsQuiet : Operation F → Prop
  | .addNode _ _ | .removeNode _ | .submit _ _ _ _ | .removeApp _ | .request _ _ | .release _ _
  | .heartbeat _ | .assign _ _ => False
  | .update | .start | .stop | .preempt | .reload _ | .locate _ _ _ | .setPolicy _ _
  | .updateDemand _ | .setFairShare _ _ | .recompute _ | .preemptIn _ => True

/-- Whether an operation leaves applications as they are, but for demands and fair shares. -/
def Operation.IsCalm : Operation F → Prop
  | .addNode _ _ | .removeNode _ | .submit _ _ _ _ | .removeApp _ | .request _ _ | .release _ _
  | .heartbeat _ | .assign _ _ | .preempt | .preemptIn _ => False
  | .update | .start | .stop | .reload _ | .locate _ _ _ | .setPolicy _ _ | .updateDemand _
  | .setFairShare _ _ | .recompute _ => True

/-! ## What happens to the tree -/

section Quietly

open QueueTree (Calmly Quietly)

variable {s : Scheduler F} (h : s.tree.Reachable)

include h

/-- Steady shares are given from the root. -/
theorem calmly_refreshSteady : Calmly s.tree s.refreshSteady.tree := by
  have hgiven := Calmly.step s.tree (.giveSteady QueueName.root s.cluster) trivial
  rw [QueueTree.apply, h.wellNamed.modify_root] at hgiven
  exact hgiven

/-- The cluster's resource concerns the tree by its steady shares alone. -/
theorem calmly_refreshCluster : Calmly s.tree s.refreshCluster.tree :=
  calmly_refreshSteady
    (s := { s with cluster := Resource.sum (s.nodes.values.map Node.total) }) h

/-- The cluster's resource concerns the tree by its steady shares alone. -/
theorem quietly_refreshCluster : Quietly s.tree s.refreshCluster.tree :=
  (calmly_refreshCluster h).quietly

/-- Asking a queue for a container is an operation on the tree. -/
theorem quietly_preemptIn (queue : String) : Quietly s.tree (s.preemptIn queue).1.tree := by
  unfold preemptIn
  split
  · exact .refl
  · rename_i q hfind
    have hasked := Quietly.step s.tree (.preempt queue s.cluster
      ((s.tree.root.parentOf? queue).getD q.info).policy.isOver) trivial
    rw [QueueTree.apply, ← h.wellNamed.modify_found hfind] at hasked
    exact hasked

/-- Asking for a container begins at the root. -/
theorem quietly_preempt : Quietly s.tree s.preempt.1.tree := by
  have hasked := Quietly.step s.tree
    (.preempt QueueName.root s.cluster s.tree.root.info.policy.isOver) trivial
  rw [QueueTree.apply, h.wellNamed.modify_root] at hasked
  unfold preempt
  cases hcase : s.tree.root.preempt s.cluster s.tree.root.info.policy.isOver with
  | mk root victim =>
    rw [hcase] at hasked
    cases victim <;> exact hasked

/-- Demands and fair shares are brought up to date from the root. -/
theorem calmly_update : Calmly s.tree s.update.tree := by
  have hdemand := Calmly.step s.tree (.updateDemand QueueName.root) trivial
  have hreached := hdemand.quietly.reachable h
  rw [QueueTree.apply, h.wellNamed.modify_root] at hdemand hreached
  have hgiven := Calmly.step { s.tree with root := s.tree.root.updateDemand }
    (.giveFair QueueName.root s.cluster) trivial
  rw [QueueTree.apply, hreached.wellNamed.modify_root] at hgiven
  exact hdemand.trans hgiven

/-- A reload of the scheduler is one of its tree, with steady shares given after it. -/
theorem calmly_reload (c : SchedulerConfig F) : Calmly s.tree (s.reload c).1.tree := by
  have hreloaded := Calmly.step s.tree (.reload c.queues) trivial
  rw [QueueTree.apply] at hreloaded
  unfold reload
  split
  · rename_i tree e hreload
    rw [hreload] at hreloaded
    exact hreloaded
  · rename_i tree hreload
    rw [hreload] at hreloaded
    let after : Scheduler F :=
      { s with tree := tree, assignMultiple := c.assignMultiple, maxAssign := c.maxAssign }
    have hafter : after.tree.Reachable := hreloaded.quietly.reachable h
    exact hreloaded.trans (calmly_refreshSteady hafter)

/-- A queue that was looked up is offered a policy. -/
theorem calmly_setPolicy (queue : String) (policy : Policy) :
    Calmly s.tree (s.setPolicy queue policy).1.tree := by
  unfold setPolicy
  split
  · exact .refl
  · rename_i q hfind
    have hoffered := Calmly.step s.tree (.setPolicy queue policy) trivial
    rw [QueueTree.apply, ← h.wellNamed.modify_found hfind] at hoffered
    split
    · rename_i changed hset
      rw [Queue.offerPolicy, hset] at hoffered
      exact hoffered
    · exact .refl

/-- Both kinds of shares of a queue are passed on anew, one after the other. -/
theorem calmly_recompute (queue : String) : Calmly s.tree (s.recompute queue).tree := by
  unfold recompute
  split
  · exact .refl
  · rename_i q hfind
    have hgiven := (Calmly.step s.tree (.giveFair queue q.info.fairShare) trivial).trans
      (.step _ (.giveSteady queue q.recomputeFair.info.steadyShare) trivial)
    have hname : ∀ r : Queue F, (r.giveFair q.info.fairShare).name = r.name :=
      fun r => (r.similar_giveFair q.info.fairShare).names.key_eq
    rw [QueueTree.apply, QueueTree.apply, QueueTree.modify_modify _ _ _ hname,
      ← h.wellNamed.modify_found hfind] at hgiven
    exact hgiven

/-- What leaves applications as they are leaves those in the tree as they are. -/
theorem calmly_apply {op : Operation F} (hop : op.IsCalm) : Calmly s.tree (s.apply op).tree := by
  cases op with
  | addNode | removeNode | submit | removeApp | request | release | heartbeat | assign | preempt
  | preemptIn => exact hop.elim
  | update => exact calmly_update h
  | start | stop => exact .refl
  | reload c => exact calmly_reload h c
  | locate name create kind =>
    have hlocated := Calmly.step s.tree (.locate name create kind) trivial
    rw [QueueTree.apply] at hlocated
    simp only [apply]
    exact hlocated
  | setPolicy queue policy => exact calmly_setPolicy h queue policy
  | updateDemand queue => exact .step _ (.updateDemand queue) trivial
  | setFairShare queue share => exact .step _ (.setFairShare queue share) trivial
  | recompute queue => exact calmly_recompute h queue

/-- What moves no application and places no container moves none in the tree. -/
theorem quietly_apply {op : Operation F} (hop : op.IsQuiet) : Quietly s.tree (s.apply op).tree := by
  cases op with
  | addNode | removeNode | submit | removeApp | request | release | heartbeat | assign =>
    exact hop.elim
  | preempt => exact quietly_preempt h
  | preemptIn queue => exact quietly_preemptIn h queue
  | update | start | stop | reload | locate | setPolicy | updateDemand | setFairShare | recompute =>
    refine (calmly_apply h ?_).quietly
    trivial

end Quietly

section Tree

variable {s : Scheduler F} (h : s.tree.Reachable)

include h

/-- The applications of a tree may change on their own. -/
theorem tree_modifyApp (serial : ℕ) (f : Attempt F → Attempt F) :
    (s.modifyApp serial f).tree.Reachable :=
  h.step _ (.mapAttempts fun a => if a.serial = serial then f a else a)

/-- Taking a node away takes its containers from applications. -/
theorem tree_removeNode (id : String) : (s.removeNode id).1.tree.Reachable := by
  unfold removeNode
  split
  · exact h
  · rename_i node hnode
    have htaken := h.step _ (.mapAttempts fun a =>
      if s.apps.values.contains a.serial then a.releaseNode id else a)
    exact (quietly_refreshCluster (s := { s with
      tree := s.tree.apply (.mapAttempts fun a =>
        if s.apps.values.contains a.serial then a.releaseNode id else a)
      nodes := s.nodes.erase id }) htaken).reachable htaken

/-- A submission locates a leaf and puts an application into it. -/
theorem tree_submit (id queue user : String) (priority : ℕ) :
    (s.submit id queue user priority).1.tree.Reachable := by
  have hlocated := h.step _ (.locate queue true .leaf)
  rw [QueueTree.apply] at hlocated
  unfold submit
  split
  · rename_i tree e hlocate
    rw [hlocate] at hlocated
    exact hlocated
  · rename_i tree leaf hlocate
    rw [hlocate] at hlocated
    split
    · exact (hlocated.step _ (.addAttempt leaf _)).step _ .takeSerial
    · exact hlocated

/-- Taking an application away takes its containers and then itself. -/
theorem tree_removeApp (id : String) : (s.removeApp id).1.tree.Reachable := by
  unfold removeApp
  split
  · exact h
  · rename_i a ha
    exact (tree_modifyApp h a.serial fun a => a.releaseAll.1).step _ (.removeAttempt a.queue id)

/-- A request changes an application. -/
theorem tree_request (id : String) (r : Request) : (s.request id r).tree.Reachable := by
  unfold request
  split
  · exact h
  · exact tree_modifyApp h _ _

/-- A container given back changes an application. -/
theorem tree_release (id : String) (container : ℕ) :
    (s.release id container).1.tree.Reachable := by
  unfold release
  split
  · exact h
  · split
    · exact h
    · exact tree_modifyApp h _ _

/-- Offering a node to a queue is an operation on the tree. -/
theorem tree_assignOnce (queue : String) (node : Node) :
    (s.assignOnce queue node).1.tree.Reachable := by
  change (s.offer queue node).scheduler.tree.Reachable
  unfold offer
  split
  · exact h
  · rename_i q hfind
    have hoffered := h.step _ (.assign queue s.cluster ⟨node, s.nextContainer, s.metrics⟩)
    rw [QueueTree.apply, ← h.wellNamed.modify_found hfind] at hoffered
    exact hoffered

omit h in
/-- What offering a registered node to a queue preserves, offering the node of an id preserves. -/
theorem assign_induction {P : Scheduler F → Prop} {queue id : String}
    (hstep : ∀ node, s.nodes.get? id = some node → P (s.assignOnce queue node).1) (hs : P s) :
    P (s.apply (.assign queue id)) := by
  rw [apply]
  cases hnode : s.nodes.get? id with
  | none => exact hs
  | some node => exact hstep node hnode

omit h in
/-- What offering a registered node to the root preserves, filling the node preserves. -/
theorem fill_induction {P : Scheduler F → Prop} {id : String}
    (hstep : ∀ s node, P s → s.nodes.get? id = some node →
      P (s.assignOnce QueueName.root node).1) (hs : P s) (fuel placed : ℕ) (total : Resource) :
    P (fill id fuel s placed total).1 := by
  induction fuel generalizing s placed total with
  | zero => exact hs
  | succ fuel ih =>
    unfold fill
    split
    · exact hs
    · rename_i node hnode
      have hoffered := hstep s node hs hnode
      cases hcase : s.assignOnce QueueName.root node with
      | mk s' resource =>
        rw [hcase] at hoffered
        simp only
        split
        · exact hoffered
        · split
          · exact ih hoffered _ _
          · exact hoffered

/-- Whatever a scheduler is asked to do, its tree comes about by operations on it. -/
theorem tree_apply (op : Operation F) : (s.apply op).tree.Reachable := by
  cases op with
  | addNode id total =>
    exact (quietly_refreshCluster (s := { s with nodes := s.nodes.insert id (Node.new id total) })
      h).reachable h
  | removeNode id => exact tree_removeNode h id
  | submit id queue user priority =>
    rw [apply]
    exact tree_submit h id queue user priority
  | removeApp id => exact tree_removeApp h id
  | request id r => exact tree_request h id r
  | release id container => exact tree_release h id container
  | heartbeat node =>
    exact fill_induction (P := fun s => s.tree.Reachable)
      (fun s node hs _ => tree_assignOnce hs QueueName.root node) h _ _ _
  | assign queue node =>
    exact assign_induction (P := fun s => s.tree.Reachable) (fun n _ => tree_assignOnce h queue n) h
  | update | start | stop | preempt | reload | locate | setPolicy | updateDemand | setFairShare
  | recompute | preemptIn =>
    refine (quietly_apply h ?_).reachable h
    trivial

end Tree

omit [Scalar F] in
/-- A scheduler starts with the tree of its configuration and with empty books. -/
theorem of_ofConfig {c : SchedulerConfig F} {s : Scheduler F} (h : ofConfig c = .ok s) :
    QueueTree.ofConfig c.queues = .ok s.tree ∧ s.apps = Table.empty ∧ s.nodes = Table.empty ∧
      s.nextContainer = 1 ∧ s.metrics = Table.empty := by
  cases htree : QueueTree.ofConfig c.queues with
  | error e => simp [ofConfig, htree, bind, Except.bind] at h
  | ok tree =>
    simp only [ofConfig, htree, bind, Except.bind, pure, Except.pure, Except.ok.injEq] at h
    subst h
    exact ⟨rfl, rfl, rfl, rfl, rfl⟩

/-- A scheduler that has offered a registered node to a queue comes about. -/
theorem Reachable.of_assignOnce {s : Scheduler F} (h : s.Reachable) (queue : String) {id : String}
    {node : Node} (hnode : s.nodes.get? id = some node) : (s.assignOnce queue node).1.Reachable := by
  have hstep := h.step _ (.assign queue id)
  rw [apply, hnode] at hstep
  exact hstep

/-- The tree of a scheduler that comes about is one that comes about. -/
theorem Reachable.tree {s : Scheduler F} (h : s.Reachable) : s.tree.Reachable := by
  induction h with
  | start c s hmade => exact .start c.queues s.tree (of_ofConfig hmade).1
  | step s op h ih => exact tree_apply ih op

/-- A reload that fails leaves the scheduler as it is. -/
theorem Reachable.reload_eq_of_error {s : Scheduler F} (h : s.Reachable) {c : SchedulerConfig F}
    {e : Error} (hfails : (s.reload c).2 = .error e) : (s.reload c).1 = s := by
  have hkept : ∀ e, (s.tree.reload c.queues).2 = .error e → (s.tree.reload c.queues).1 = s.tree :=
    fun e => h.tree.wellNamed.reload_eq_of_error
  unfold reload at hfails ⊢
  cases hreload : s.tree.reload c.queues with
  | mk tree outcome =>
    cases outcome with
    | error e' =>
      rw [hreload] at hkept
      obtain rfl : tree = s.tree := hkept e' rfl
      rfl
    | ok =>
      simp only [hreload] at hfails
      contradiction

end Allotment.Scheduler
