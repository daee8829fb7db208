import Allotment.Proofs.Attempt
import Allotment.Proofs.Queue.Serving
import Allotment.Proofs.Scheduler.Reachable

/-!
# What operations do to the books

The books of a scheduler are the applications in the leaves with what they hold, the index of the
applications, the nodes, and the number of the next container. For every operation that changes them
there is one theorem here that says how.
-/

namespace Allotment.Scheduler

open QueueTree (Quietly)
open scoped List

variable {F : Type} [Scalar F] {s s' : Scheduler F}

/-- Whether the books are the same, except that serial numbers may have been given out. -/
structure Still (s s' : Scheduler F) : Prop where
  posts : s'.tree.root.posts.Perm s.tree.root.posts
  nextSerial : s.tree.nextSerial ≤ s'.tree.nextSerial
  apps : s'.apps = s.apps
  nodes : s'.nodes = s.nodes
  nextContainer : s'.nextContainer = s.nextContainer

omit [Scalar F] in
/-- The books are the same if nothing has happened. -/
theorem Still.refl (s : Scheduler F) : Still s s := ⟨.refl _, Nat.le_refl _, rfl, rfl, rfl⟩

/-- The books are the same when only the tree has changed, and in that nothing has moved. -/
theorem Still.of_quietly (h : s.tree.Reachable) (hq : Quietly s.tree s'.tree)
    (hbooks : s'.apps = s.apps ∧ s'.nodes = s.nodes ∧ s'.nextContainer = s.nextContainer) :
    Still s s' :=
  ⟨hq.posts h, hq.nextSerial_le h, hbooks.1, hbooks.2.1, hbooks.2.2⟩

/-- What moves no application and places no container leaves the books as they are. -/
theorem still_apply (h : s.tree.Reachable) {op : Operation F} (hop : op.IsQuiet) :
    Still s (s.apply op) := by
  apply Still.of_quietly h (quietly_apply h hop)
  cases op with
  | addNode | removeNode | submit | removeApp | request | release | heartbeat | assign =>
    exact hop.elim
  | update | start | stop | updateDemand | setFairShare => exact ⟨rfl, rfl, rfl⟩
  | locate name create kind =>
    simp only [apply, and_self]
  | preempt =>
    rw [apply, preempt]
    cases s.tree.root.preempt s.cluster s.tree.root.info.policy.isOver with
    | mk root victim => cases victim <;> exact ⟨rfl, rfl, rfl⟩
  | reload c =>
    rw [apply, reload]
    split <;> exact ⟨rfl, rfl, rfl⟩
  | setPolicy queue policy =>
    rw [apply, setPolicy]
    split
    · exact ⟨rfl, rfl, rfl⟩
    · split <;> exact ⟨rfl, rfl, rfl⟩
  | recompute queue =>
    rw [apply, recompute]
    split <;> exact ⟨rfl, rfl, rfl⟩
  | preemptIn queue =>
    rw [apply, preemptIn]
    split <;> exact ⟨rfl, rfl, rfl⟩

/-! ## One application that changes -/

section ModifyApp

variable {serial : ℕ} {f : Attempt F → Attempt F}

omit [Scalar F] in
/-- The posts stay when the application of a serial number keeps its own. -/
theorem posts_modifyApp (s : Scheduler F) (serial : ℕ)
    (hf : ∀ a leaf, (f a).post leaf = a.post leaf) :
    (s.modifyApp serial f).tree.root.posts = s.tree.root.posts := by
  apply Queue.posts_mapAttempts
  intro x _
  split
  · exact hf _ _
  · rfl

variable (hmember : ∀ x ∈ s.tree.root.seats, x.attempt.serial = serial →
  (f x.attempt).member x.leaf = x.attempt.member x.leaf)

include hmember

omit [Scalar F] in
/-- The members stay when the application of a serial number stays the same. -/
theorem members_modifyApp : (s.modifyApp serial f).tree.root.members = s.tree.root.members := by
  apply Queue.members_mapAttempts
  intro x hx
  split
  · rename_i hserial
    exact hmember x hx hserial
  · rfl

omit [Scalar F] in
/-- What the application of a serial number gives back leaves the holdings, when none of it is held by
any other. -/
theorem holdings_modifyApp {keep : Member × Container → Bool}
    (hlive : ∀ x ∈ s.tree.root.seats, x.attempt.serial = serial →
      (f x.attempt).live = x.attempt.live.filter fun c => keep (x.attempt.member x.leaf, c))
    (hother : ∀ y ∈ s.tree.root.holdings, y.1.serial ≠ serial → keep y = true) :
    (s.modifyApp serial f).tree.root.holdings = s.tree.root.holdings.filter keep := by
  apply Queue.holdings_mapAttempts
  · intro x hx
    split
    · rename_i hserial
      exact hmember x hx hserial
    · rfl
  · intro x hx
    split
    · rename_i hserial
      exact hlive x hx hserial
    · rename_i hserial
      rw [eq_comm, List.filter_eq_self]
      intro c hc
      exact hother _ (Queue.mem_holdings_iff.mpr ⟨x, hx, c, hc, rfl⟩) hserial

end ModifyApp

/-- A request leaves the books as they are. -/
theorem still_request (s : Scheduler F) (id : String) (r : Request) : Still s (s.request id r) := by
  have hasked : ∀ (a : Attempt F) (leaf : String), (a.ask r).post leaf = a.post leaf := by
    intro a leaf
    unfold Attempt.ask
    dsimp only
    split <;> rfl
  unfold request
  split
  · exact .refl s
  · rename_i serial _
    refine ⟨?_, Nat.le_refl _, rfl, rfl, rfl⟩
    rw [s.posts_modifyApp serial hasked]

/-! ## Applications that come and go -/

/-- What the books are after an application was admitted to a leaf. -/
structure Admits (s s' : Scheduler F) (id : String) : Prop where
  posts : ∃ leaf, s'.tree.root.posts.Perm
    (⟨⟨leaf, id, leaf, s'.tree.nextSerial - 1⟩, []⟩ :: s.tree.root.posts)
  nextSerial : s.tree.nextSerial < s'.tree.nextSerial
  apps : s'.apps = s.apps.insert id (s'.tree.nextSerial - 1)
  nodes : s'.nodes = s.nodes
  nextContainer : s'.nextContainer = s.nextContainer

/-- A submission that is refused leaves the books as they are, and one that is accepted admits the
application. -/
theorem submit_cases (h : s.tree.Reachable) (id queue user : String) (priority : ℕ) :
    (∃ e, (s.submit id queue user priority).2 = .error e ∧
      Still s (s.submit id queue user priority).1) ∨
    ∃ a, (s.submit id queue user priority).2 = .ok a ∧
      Admits s (s.submit id queue user priority).1 id := by
  have hlocated := h.wellNamed.located queue true .leaf
  have hquiet := Quietly.step s.tree (.locate queue true .leaf) trivial
  have hreached := hquiet.reachable h
  rw [QueueTree.apply] at hquiet hreached
  unfold submit
  cases hcase : s.tree.locate queue true .leaf with
  | mk tree outcome =>
    rw [hcase] at hquiet hlocated hreached
    cases outcome with
    | error e => exact .inl ⟨e, rfl, .of_quietly h hquiet ⟨rfl, rfl, rfl⟩⟩
    | ok leaf =>
      dsimp only
      split
      · have hadded := hreached.wellNamed.posts_addAttempt (hlocated.found leaf rfl)
          (Attempt.new id user leaf priority tree.nextSerial)
        refine .inr ⟨_, rfl, ⟨leaf, hadded.trans ((hquiet.posts h).cons _)⟩, ?_, rfl, rfl, rfl⟩
        exact Nat.lt_succ_of_le (hquiet.nextSerial_le h)
      · exact .inl ⟨_, rfl, .of_quietly h hquiet ⟨rfl, rfl, rfl⟩⟩

omit [Scalar F] in
/-- The index refers to an application that is found by its id, and the application is in a seat. -/
theorem exists_seat {id : String} {a : Attempt F} (h : s.app? id = some a) :
    s.apps.get? id = some a.serial ∧ ∃ x ∈ s.tree.root.seats, x.attempt = a := by
  obtain ⟨serial, hserial, hfound⟩ := Option.bind_eq_some_iff.mp h
  have hsame : a.serial = serial := by simpa using List.find?_some hfound
  rw [hsame]
  exact ⟨hserial, Queue.mem_attempts_iff.mp (List.mem_of_find?_eq_some hfound)⟩

/-- What the books are after an application was discharged under an id: its containers are given
back, and some application of that id has left the leaf. -/
structure Discharges (s s' : Scheduler F) (id : String) (a : Attempt F) : Prop where
  posts : ∃ x : Post, x.member.leaf = a.queue ∧ x.member.id = id ∧
    s.tree.root.members ~ x.member :: s'.tree.root.members ∧
    (s.tree.root.holdings.filter fun y => y.1.serial ≠ a.serial) ~
      x.holdings ++ s'.tree.root.holdings
  nextSerial : s'.tree.nextSerial = s.tree.nextSerial
  apps : s'.apps = s.apps.erase id
  nodes : s'.nodes = a.live.foldl freeContainer s.nodes
  nextContainer : s'.nextContainer = s.nextContainer

/-- Taking an application away is refused if none is found by the id, and otherwise discharges the one
that is found. -/
theorem removeApp_cases (h : s.tree.Reachable) (id : String)
    (hsited : ∀ a, s.app? id = some a →
      ∃ m ∈ s.tree.root.members, m.leaf = a.queue ∧ m.id = id) :
    (s.app? id = none ∧ s.removeApp id = (s, .error (.appNotFound id))) ∨
      ∃ a, s.app? id = some a ∧ (s.removeApp id).2 = .ok () ∧
        Discharges s (s.removeApp id).1 id a := by
  unfold removeApp
  cases happ : s.app? id with
  | none => exact .inl ⟨rfl, rfl⟩
  | some a =>
    let freed := s.modifyApp a.serial fun a => a.releaseAll.1
    have hfreed : freed.tree.Reachable := tree_modifyApp h a.serial _
    have hmembers : freed.tree.root.members = s.tree.root.members :=
      members_modifyApp fun _ _ _ => rfl
    have hholdings : freed.tree.root.holdings =
        s.tree.root.holdings.filter fun y => y.1.serial ≠ a.serial := by
      apply holdings_modifyApp
      · exact fun _ _ _ => rfl
      · intro x _ hserial
        change [] = x.attempt.live.filter fun _ => decide (x.attempt.serial ≠ a.serial)
        simp [hserial]
      · exact fun y _ hother => decide_eq_true hother
    obtain ⟨m, hm, hleaf, hid⟩ := hsited a happ
    rw [← hmembers] at hm
    obtain ⟨x, hx, rfl⟩ := List.mem_map.mp hm
    obtain ⟨y, hyleaf, hyid, hperm⟩ := hfreed.wellNamed.posts_removeAttempt ⟨x, hx, hleaf, hid⟩
    refine .inr ⟨a, rfl, rfl, ⟨y, hyleaf, hyid, ?_, ?_⟩, rfl, rfl, rfl, rfl⟩
    · rw [← hmembers]
      exact hperm.map Post.member
    · rw [← hholdings]
      exact hperm.flatMap_right Post.holdings

/-! ## Containers that are given back -/

/-- What the books are after a container was given back. -/
structure Releases (s s' : Scheduler F) (y : Member × Container) : Prop where
  held : y ∈ s.tree.root.holdings
  members : s'.tree.root.members = s.tree.root.members
  holdings : (s.tree.root.holdings.map (·.2.id)).Nodup →
    s'.tree.root.holdings = s.tree.root.holdings.filter fun z => z.2.id ≠ y.2.id
  nextSerial : s'.tree.nextSerial = s.tree.nextSerial
  apps : s'.apps = s.apps
  nodes : s'.nodes = freeContainer s.nodes y.2
  nextContainer : s'.nextContainer = s.nextContainer

omit [Scalar F] in
/-- Giving a container back changes nothing if it is not found, and otherwise gives it back. -/
theorem release_cases (hserials : (s.tree.root.members.map Member.serial).Nodup) (id : String)
    (container : ℕ) :
    (s.release id container).1 = s ∨ ∃ y, Releases s (s.release id container).1 y := by
  unfold release
  cases happ : s.app? id with
  | none => exact .inl rfl
  | some a =>
    cases hcase : a.release container with
    | mk b found =>
      cases found with
      | none => simp only [hcase, true_or]
      | some c =>
        obtain ⟨-, x, hx, rfl⟩ := exists_seat happ
        obtain ⟨hc, rfl, hid, hqueue, hserial⟩ := Attempt.of_release hcase
        have hmember : ∀ y ∈ s.tree.root.seats, y.attempt.serial = x.attempt.serial →
            b.member y.leaf = y.attempt.member y.leaf := by
          intro y hy heq
          obtain rfl := Queue.seat_injective hserials hy hx heq
          rw [Attempt.member, hid, hqueue, hserial]
          rfl
        simp only [hcase]
        refine .inr ⟨(x.attempt.member x.leaf, c), ?_, ?_, ?_, rfl, rfl, rfl, rfl⟩
        · exact Queue.mem_holdings_iff.mpr ⟨x, hx, c, hc, rfl⟩
        · exact members_modifyApp hmember
        · intro hids
          apply holdings_modifyApp hmember
          · intro y hy heq
            obtain rfl := Queue.seat_injective hserials hy hx heq
            have hlive := Attempt.live_release (Queue.nodup_live hids hy) c.id
            rw [hcase] at hlive
            exact hlive
          · -- The number of the container is found in no other seat.
            intro y hy hother
            rw [decide_eq_true_eq]
            intro heq
            have hsame := List.inj_on_of_nodup_map hids hy
              (Queue.mem_holdings_iff.mpr ⟨x, hx, c, hc, rfl⟩) heq
            exact hother (congrArg (fun z => z.1.serial) hsame)

/-- What the books are after a node was taken away: the indexed applications have given back what they
held on it. -/
structure Withdraws (s s' : Scheduler F) (node : String) : Prop where
  members : s'.tree.root.members ~ s.tree.root.members
  holdings : (s.tree.root.holdings.map (·.2.id)).Nodup →
    s'.tree.root.holdings ~ s.tree.root.holdings.filter fun y =>
      !(s.apps.values.contains y.1.serial && decide (y.2.node = node))
  nextSerial : s.tree.nextSerial ≤ s'.tree.nextSerial
  apps : s'.apps = s.apps
  nodes : s'.nodes = s.nodes.erase node
  nextContainer : s'.nextContainer = s.nextContainer

section ReleaseNode

variable (s : Scheduler F) (node : String)

omit [Scalar F] in
/-- An application stays the same when it is made to give back its containers on a node if indexed. -/
theorem member_releaseNode (a : Attempt F) (leaf : String) :
    (if s.apps.values.contains a.serial then a.releaseNode node else a).member leaf =
      a.member leaf := by
  obtain ⟨hid, hqueue, hserial⟩ := a.same_releaseNode node
  split
  · rw [Attempt.member, hid, hqueue, hserial]
    rfl
  · rfl

omit [Scalar F] in
/-- When the indexed applications give back their containers on a node, these leave the holdings. -/
theorem holdings_releaseNode (hids : (s.tree.root.holdings.map (·.2.id)).Nodup) :
    (s.tree.root.mapAttempts fun a =>
      if s.apps.values.contains a.serial then a.releaseNode node else a).holdings =
    s.tree.root.holdings.filter fun y =>
      !(s.apps.values.contains y.1.serial && decide (y.2.node = node)) := by
  apply Queue.holdings_mapAttempts
  · exact fun x _ => s.member_releaseNode node x.attempt x.leaf
  · intro x hx
    change (if s.apps.values.contains x.attempt.serial then x.attempt.releaseNode node
      else x.attempt).live = x.attempt.live.filter fun c =>
        !(s.apps.values.contains x.attempt.serial && decide (c.node = node))
    split
    · rename_i hindexed
      rw [Attempt.live_releaseNode (Queue.nodup_live hids hx)]
      apply List.filter_congr
      intro c _
      rw [hindexed, Bool.true_and, decide_not]
    · rename_i hloose
      rw [eq_comm, List.filter_eq_self]
      intro c _
      rw [Bool.eq_false_iff.mpr hloose, Bool.false_and, Bool.not_false]

end ReleaseNode

/-- Taking a node away changes nothing if there is no such node, and otherwise withdraws it. -/
theorem removeNode_cases (h : s.tree.Reachable) (id : String) :
    (s.removeNode id).1 = s ∨ Withdraws s (s.removeNode id).1 id := by
  unfold removeNode
  cases hnode : s.nodes.get? id with
  | none => exact .inl rfl
  | some node =>
    right
    let f : Attempt F → Attempt F := fun a =>
      if s.apps.values.contains a.serial then a.releaseNode id else a
    let taken : Scheduler F :=
      { s.withRoot (s.tree.root.mapAttempts f) with nodes := s.nodes.erase id }
    have htree : taken.tree.Reachable := h.step _ (.mapAttempts f)
    have hquiet := quietly_refreshCluster htree
    have hposts := hquiet.posts htree
    refine ⟨?_, ?_, hquiet.nextSerial_le htree, rfl, rfl, rfl⟩
    · refine (hposts.map Post.member).trans ?_
      rw [show taken.tree.root.posts.map Post.member = s.tree.root.members from
        Queue.members_mapAttempts s.tree.root fun x _ => s.member_releaseNode id x.attempt x.leaf]
    · intro hids
      rw [← s.holdings_releaseNode id hids]
      exact hposts.flatMap_right Post.holdings

/-! ## Containers that are placed -/

/-- What the books are after containers were placed on a node. -/
structure Fills (s s' : Scheduler F) (node : Node) : Prop where
  placed : ∃ p' given, Places ⟨node, s.nextContainer, s.metrics⟩ p' given ∧
    s'.tree.root.holdings ~ s.tree.root.holdings ++ given ∧
    s'.nodes = s.keepNode node p'.node ∧ s'.nextContainer = p'.nextContainer
  members : s'.tree.root.members ~ s.tree.root.members
  nextSerial : s'.tree.nextSerial = s.tree.nextSerial
  apps : s'.apps = s.apps

omit [Scalar F] in
/-- The registry keeps track of a node that is registered. -/
theorem keepNode_of_registered {node : Node} (h : s.nodes.get? node.id = some node) (node' : Node) :
    s.keepNode node node' = s.nodes.insert node.id node' :=
  if_pos h

omit [Scalar F] in
/-- A node that stays the same leaves the registry as it is. -/
theorem keepNode_self (s : Scheduler F) (node : Node) : s.keepNode node node = s.nodes := by
  unfold keepNode
  split
  · rename_i hnode
    exact Table.insert_of_get? hnode
  · rfl

/-- Offering a node to a queue changes nothing if there is no such queue, and otherwise fills the
node. -/
theorem assignOnce_cases (h : s.tree.Reachable) (queue : String) (node : Node) :
    (s.assignOnce queue node).1 = s ∨ Fills s (s.assignOnce queue node).1 node := by
  unfold assignOnce offer
  cases hfind : s.tree.find? queue with
  | none =>
    left
    dsimp only
    rw [s.keepNode_self]
  | some q =>
    right
    obtain ⟨given, hplaces, hheld, hmembers⟩ := h.wellNamed.serves_modify hfind
      (q.serves_assign s.cluster ⟨node, s.nextContainer, s.metrics⟩)
    exact ⟨⟨_, given, hplaces, hheld, rfl, rfl⟩, hmembers, rfl, rfl⟩

end Allotment.Scheduler
