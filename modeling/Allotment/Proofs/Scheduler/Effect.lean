import Allotment.Proofs.Queue.Effect
import Allotment.Proofs.Scheduler.Choice

/-!
# What is placed and what is told

Offering a node to a queue tells what has been placed. As long as no request for nothing is put forward,
that is the whole truth: if nothing is told then nothing has been placed, and otherwise one container of
the resource that is told, and in either case nothing else has changed but the order of children. A
container for nothing is placed without being told.
-/

namespace Allotment.Scheduler

open scoped List

variable {F : Type} [Scalar F] {s s' : Scheduler F}

/-- Whether an offer has left a scheduler what it was, with children of its queues put in order, and has
told of nothing. -/
structure Untouched (s : Scheduler F) (node : Node) (offered : Offered F) : Prop where
  rest : offered = ⟨s.withRoot offered.scheduler.tree.root, node, 0⟩
  reordered : Queue.Reordered s.tree.root offered.scheduler.tree.root
  infos : offered.scheduler.tree.root.infos ~ s.tree.root.infos
  holdings : offered.scheduler.tree.root.holdings ~ s.tree.root.holdings

/-- Whether an offer has placed one container on a node and has told what it has, for a request of an
application in a leaf below some queue, and has left the scheduler otherwise what it was, with children of
its queues put in order. -/
structure Placed (s : Scheduler F) (q : Queue F) (node : Node) (l : QueueInfo F) (a b : Attempt F)
    (r : Request) (offered : Offered F) : Prop where
  within : ⟨l.name, l.serial, a⟩ ∈ q.seats
  first : Attempt.FirstFit node.available a r
  receives : a.Receives b r (a.container r node.id s.nextContainer)
  exchanged : Queue.Exchanged l a b s.tree.root offered.scheduler.tree.root
  infos : offered.scheduler.tree.root.infos ~ s.tree.root.infos
  holdings : offered.scheduler.tree.root.holdings ~
    s.tree.root.holdings ++ [(a.member l.name, a.container r node.id s.nextContainer)]
  rest : offered =
    { scheduler :=
        { s.withRoot offered.scheduler.tree.root with
          nextContainer := s.nextContainer + 1
          metrics := s.metrics.increment l.name "containers_assigned" 1 }
      node := { node with allocated := node.allocated + r.capability }
      resource := r.capability }
  available : ∀ d, (offered.node.available.get d).toNat + (r.capability.get d).toNat =
    (node.available.get d).toNat

variable [Scalar.Comparable F]

/-- An offer to a queue of a scheduler that comes about, none of whose applications puts a request for nothing
forward, tells of nothing and leaves everything what it was, or places what it tells. -/
theorem Reachable.untouched_or_placed (h : s.Reachable) {queue : String} {q : Queue F}
    (hq : s.tree.find? queue = some q) (node : Node)
    (hnonzero : ∀ l ∈ q.all, ∀ a ∈ l.runnable, ∀ r, Attempt.FirstFit node.available a r →
      r.capability ≠ 0) :
    ((s.offer queue node).resource = 0 ∧ Untouched s node (s.offer queue node)) ∨
      (s.offer queue node).resource ≠ 0 ∧ ∃ l a b r, Placed s q node l a b r (s.offer queue node) := by
  have hwell := h.tree.wellNamed.root
  obtain ⟨hmem, hname⟩ := hwell.find?_eq_some_iff.mp hq
  have hfiled : ∀ l ∈ q.all, ∀ a ∈ l.runnable, a.Filed := by
    intro l hl a ha
    refine h.filed a (List.mem_flatMap.mpr ⟨l, Queue.mem_all_trans hmem hl, ?_⟩)
    cases l with
    | leaf info runnable parked => exact List.mem_append_left parked ha
    | parent info children => contradiction
  have hearnest : Queue.Earnest node.available q := ⟨hfiled, hnonzero⟩
  simp only [offer, hq]
  obtain hdeclines | ⟨l, a, r, htakes⟩ := Queue.declines_or_takes
    (p := ⟨node, s.nextContainer, s.metrics⟩) hearnest s.cluster
  · have hroot := hdeclines.reordered.modify hwell hmem
    rw [hname] at hroot
    rw [hdeclines.placement, hdeclines.resource]
    exact .inl ⟨rfl, rfl, hroot, hroot.infos, hroot.holdings⟩
  · have hroot := htakes.exchanged.modify hwell hmem
    rw [hname] at hroot
    obtain ⟨rest, hseats, -⟩ := htakes.exchanged.seats
    rw [htakes.placement.node, htakes.placement.next, htakes.metrics, htakes.resource]
    exact .inr ⟨htakes.nonzero, l, a, _, r, hseats.mem_iff.mpr List.mem_cons_self, htakes.first,
      htakes.receives, hroot, hroot.infos, hroot.holdings htakes.receives, rfl,
      Node.toNat_available_allocated htakes.first.fits⟩

/-- Offering a node, registered or not, to a queue of a scheduler that comes about, none of whose
applications puts a request for nothing forward, tells the whole truth. If nothing is told, the scheduler is
what it was but for the order of children, and so are the node and the registry. Otherwise one container of
the resource that is told has been placed on the node for one request of an application below the queue, the
registry keeps track of the node if it is registered, and demands and shares are what they were. -/
theorem Reachable.assign_tells (h : s.Reachable) {queue : String} {q : Queue F}
    (hq : s.tree.find? queue = some q) (node : Node)
    (hnonzero : ∀ l ∈ q.all, ∀ a ∈ l.runnable, ∀ r, Attempt.FirstFit node.available a r →
      r.capability ≠ 0) :
    ((s.offer queue node).resource = 0 →
      Untouched s node (s.offer queue node) ∧ (s.assignOnce queue node).1.nodes = s.nodes) ∧
    ((s.offer queue node).resource ≠ 0 → ∃ l a b r, Placed s q node l a b r (s.offer queue node) ∧
      (s.assignOnce queue node).1.nodes =
        s.keepNode node { node with allocated := node.allocated + r.capability }) := by
  rw [assignOnce]
  obtain ⟨hnone, huntouched⟩ | ⟨hsome, l, a, b, r, hplaced⟩ := h.untouched_or_placed hq node hnonzero
  · refine ⟨fun _ => ⟨huntouched, ?_⟩, fun hsome => absurd hnone hsome⟩
    rw [huntouched.rest]
    exact s.keepNode_self node
  · refine ⟨fun hnone => absurd hnone hsome, fun _ => ⟨l, a, b, r, hplaced, ?_⟩⟩
    rw [hplaced.rest]

/-- The node with room is offered to the leaf. What is told is the resource of the request that fits, and
the application holds one container of it. -/
theorem assign_tells_of_twoAsked :
    twoAsked.Reachable ∧ ∃ q, twoAsked.tree.find? "root.a" = some q ∧
      (∀ l ∈ q.all, ∀ a ∈ l.runnable, ∀ r, Attempt.FirstFit ⟨4, 4⟩ a r → r.capability ≠ 0) ∧
      (twoAsked.offer "root.a" (Node.new "node" ⟨4, 4⟩)).resource = ⟨1, 1⟩ ∧
      ∃ l a b r, Placed twoAsked q (Node.new "node" ⟨4, 4⟩) l a b r
          (twoAsked.offer "root.a" (Node.new "node" ⟨4, 4⟩)) ∧
        (twoAsked.assignOnce "root.a" (Node.new "node" ⟨4, 4⟩)).1.nodes =
          twoAsked.keepNode (Node.new "node" ⟨4, 4⟩) ⟨"node", ⟨4, 4⟩, 0 + r.capability⟩ := by
  have hreached : twoAsked.Reachable :=
    ((((Reachable.start _ oneLeaf ofConfig_oneLeaf).step _ (.addNode "node" ⟨4, 4⟩)).step _
      (.submit "app" "a" "user" 0)).step _ (.request "app" ⟨1, ⟨8, 8⟩, 1⟩)).step _
        (.request "app" ⟨2, ⟨1, 1⟩, 1⟩)
  have hfound : (twoAsked.tree.find? "root.a").isSome = true := by decide +kernel
  have hall : ∀ l ∈ twoAsked.tree.root.all, ∀ a ∈ l.runnable, ∀ r ∈ a.requests.values,
      r.capability ≠ 0 := by
    decide +kernel
  have htold : (twoAsked.offer "root.a" (Node.new "node" ⟨4, 4⟩)).resource = ⟨1, 1⟩ := by decide +kernel
  obtain ⟨q, hq⟩ := Option.isSome_iff_exists.mp hfound
  have hmem : q ∈ twoAsked.tree.root.all := (hreached.tree.wellNamed.root.find?_eq_some_iff.mp hq).1
  have hnonzero : ∀ l ∈ q.all, ∀ a ∈ l.runnable, ∀ r, Attempt.FirstFit ⟨4, 4⟩ a r → r.capability ≠ 0 :=
    fun l hl a ha r hr => hall l (Queue.mem_all_trans hmem hl) a ha r hr.mem
  obtain ⟨-, hplaced⟩ := hreached.assign_tells hq (Node.new "node" ⟨4, 4⟩) hnonzero
  exact ⟨hreached, q, hq, hnonzero, htold, hplaced (by rw [htold]; decide)⟩

/-- A scheduler in which an application asks for one container that is empty. -/
def askedForNothing : Scheduler Float :=
  ((oneLeaf.apply (.addNode "node" ⟨4, 4⟩)).apply (.submit "app" "a" "user" 0)).apply
    (.request "app" ⟨1, 0, 1⟩)

/-- Nothing is told although the application has got a container, which took the next number. -/
theorem untold_of_askedForNothing :
    askedForNothing.Reachable ∧
      askedForNothing.nodes.get? "node" = some (Node.new "node" ⟨4, 4⟩) ∧
      (askedForNothing.assignOnce "root.a" (Node.new "node" ⟨4, 4⟩)).2 = 0 ∧
      askedForNothing.tree.root.holdings = [] ∧
      (askedForNothing.assignOnce "root.a" (Node.new "node" ⟨4, 4⟩)).1.tree.root.holdings =
        [(⟨"root.a", "app", "root.a", 2⟩, ⟨1, "app", "root.a", "node", 0, 1⟩)] ∧
      (askedForNothing.assignOnce "root.a" (Node.new "node" ⟨4, 4⟩)).1.nextContainer =
        askedForNothing.nextContainer + 1 := by
  have hreached : askedForNothing.Reachable :=
    (((Reachable.start _ oneLeaf ofConfig_oneLeaf).step _ (.addNode "node" ⟨4, 4⟩)).step _
      (.submit "app" "a" "user" 0)).step _ (.request "app" ⟨1, 0, 1⟩)
  refine ⟨hreached, ?_, ?_, ?_, ?_, ?_⟩ <;> decide +kernel

end Allotment.Scheduler
