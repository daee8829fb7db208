import Allotment.Proofs.Queue.Waiting
import Allotment.Proofs.Scheduler.Effect
import Allotment.Proofs.Scheduler.Registry

/-!
# Heartbeats within their limits

A heartbeat offers its node to the root again and again, until nothing is placed or the settings say that
it is enough. As long as no request is for nothing this ends by itself, because every container that is
placed is one less to be asked for. What is told is then exactly what the new containers have, and what is
left of the node falls by as much.

The settings are looked at after a container was placed. So a heartbeat that may place several containers
keeps to the most that it may place, except that it places one even if it may place none.
-/

namespace Allotment.Scheduler

open scoped List

variable {F : Type} [Scalar F] {s s' s'' : Scheduler F} {id : String}

/-- How a heartbeat ends that has placed a number of containers and told of some resources already, when
nothing bounds how often the node is offered. -/
inductive Ends (id : String) : Scheduler F → ℕ → Resource → Scheduler F × Resource → Prop where
  | unregistered {s : Scheduler F} {placed : ℕ} {total : Resource} (hnode : s.nodes.get? id = none) :
    Ends id s placed total (s, total)
  | exhausted {s s' : Scheduler F} {placed : ℕ} {total resource : Resource} {node : Node}
    (hnode : s.nodes.get? id = some node)
    (hoffer : s.assignOnce QueueName.root node = (s', resource)) (hnone : resource = 0) :
    Ends id s placed total (s', total)
  | enough {s s' : Scheduler F} {placed : ℕ} {total resource : Resource} {node : Node}
    (hnode : s.nodes.get? id = some node)
    (hoffer : s.assignOnce QueueName.root node = (s', resource)) (hsome : resource ≠ 0)
    (hlimit : s'.goesOn (placed + 1) = false) : Ends id s placed total (s', total + resource)
  | again {s s' : Scheduler F} {placed : ℕ} {total resource : Resource} {node : Node}
    {out : Scheduler F × Resource} (hnode : s.nodes.get? id = some node)
    (hoffer : s.assignOnce QueueName.root node = (s', resource)) (hsome : resource ≠ 0)
    (hgoes : s'.goesOn (placed + 1) = true)
    (hrest : Ends id s' (placed + 1) (total + resource) out) : Ends id s placed total out

/-- A heartbeat ends in one way at most. -/
theorem Ends.unique {placed : ℕ} {total : Resource} {out out' : Scheduler F × Resource}
    (h : Ends id s placed total out) (h' : Ends id s placed total out') : out' = out := by
  induction h with
  | unregistered hnode => cases h' <;> simp_all
  | exhausted hnode hoffer hnone => cases h' <;> simp_all
  | enough hnode hoffer hsome hlimit => cases h' <;> simp_all
  | again hnode hoffer hsome hgoes hrest ih =>
    cases h' with
    | again hnode' hoffer' hsome' hgoes' hrest' =>
      obtain rfl := Option.some.inj (hnode.symm.trans hnode')
      obtain ⟨rfl, rfl⟩ := Prod.mk.inj (hoffer.symm.trans hoffer')
      exact ih hrest'
    | unregistered | exhausted | enough => simp_all

/-! ## One offer -/

/-- Whether a scheduler comes about in which no request is for nothing. -/
structure Substantial (s : Scheduler F) : Prop where
  reachable : s.Reachable
  nonzero : ∀ a ∈ s.tree.root.attempts, ∀ r ∈ a.requests.values, r.capability ≠ 0

omit [Scalar F] in
/-- Requests stay for something when children of queues are put in order. -/
theorem Untouched.nonzero {node : Node} {offered : Offered F} (h : Untouched s node offered)
    (hnonzero : ∀ a ∈ s.tree.root.attempts, ∀ r ∈ a.requests.values, r.capability ≠ 0) :
    ∀ a ∈ offered.scheduler.tree.root.attempts, ∀ r ∈ a.requests.values, r.capability ≠ 0 := by
  have hattempts := h.reordered.seats.map Seat.attempt
  rw [Queue.map_attempt_seats, Queue.map_attempt_seats] at hattempts
  exact fun a ha => hnonzero a (hattempts.mem_iff.mp ha)

omit [Scalar F] in
/-- Requests stay for something when a container is placed. -/
theorem Placed.nonzero {q : Queue F} {node : Node} {l : QueueInfo F} {a b : Attempt F} {r : Request}
    {offered : Offered F} (h : Placed s q node l a b r offered)
    (hnonzero : ∀ a ∈ s.tree.root.attempts, ∀ r ∈ a.requests.values, r.capability ≠ 0) :
    ∀ a ∈ offered.scheduler.tree.root.attempts, ∀ r ∈ a.requests.values, r.capability ≠ 0 := by
  obtain ⟨rest, hbefore, hafter⟩ := h.exchanged.seats
  have hbefore := hbefore.map Seat.attempt
  have hafter := hafter.map Seat.attempt
  rw [Queue.map_attempt_seats, List.map_cons] at hbefore hafter
  intro a' ha' r' hr'
  obtain rfl | ha' := List.mem_cons.mp (hafter.mem_iff.mp ha')
  · obtain ⟨asked, hasked, hsame⟩ := h.receives.capability_mem hr'
    rw [← hsame]
    exact hnonzero a (hbefore.mem_iff.mpr List.mem_cons_self) asked hasked
  · exact hnonzero a' (hbefore.mem_iff.mpr (List.mem_cons_of_mem _ ha')) r' hr'

/-- Whether a scheduler is another with containers placed on a registered node: they are on it and bear the
next numbers, and what is left of the node has fallen by exactly what they have. -/
structure Loads (s s' : Scheduler F) (id : String) (node node' : Node)
    (given : List (Member × Container)) : Prop where
  holdings : s'.tree.root.holdings ~ s.tree.root.holdings ++ given
  nodes : s'.nodes = s.nodes.insert id node'
  on_node : ∀ x ∈ given, x.2.node = id
  ids : given.map (·.2.id) = List.range' s.nextContainer given.length
  next : s'.nextContainer = s.nextContainer + given.length
  available : ∀ d, (node'.available.get d).toNat + load d given = (node.available.get d).toNat

section Loads

variable {node node' node'' : Node} {given given' : List (Member × Container)}

omit [Scalar F]

/-- What has been placed, and what is placed after it. -/
theorem Loads.trans (h : Loads s s' id node node' given) (h' : Loads s' s'' id node' node'' given') :
    Loads s s'' id node node'' (given ++ given') := by
  refine ⟨?_, ?_, ?_, ?_, ?_, ?_⟩
  · rw [← List.append_assoc]
    exact h'.holdings.trans (h.holdings.append_right given')
  · rw [h'.nodes, h.nodes, Table.insert_insert]
  · intro x hx
    obtain hx | hx := List.mem_append.mp hx
    · exact h.on_node x hx
    · exact h'.on_node x hx
  · rw [List.map_append, h.ids, h'.ids, h.next, List.length_append, List.range'_append_1]
  · rw [h'.next, h.next, List.length_append, Nat.add_assoc]
  · intro d
    have hfirst := h.available d
    have hsecond := h'.available d
    rw [load_append]
    omega

/-- When nothing was placed, the node is what it was. -/
theorem Untouched.loads {offered : Offered F} (h : Untouched s node offered) :
    Loads s { offered.scheduler with nodes := s.nodes.insert node.id offered.node } node.id node node [] := by
  refine ⟨?_, ?_, by simp, rfl, ?_, fun d => rfl⟩
  · rw [List.append_nil]
    exact h.holdings
  · rw [h.rest]
  · rw [h.rest]
    rfl

/-- When a container was placed, the node has less left. -/
theorem Placed.loads {q : Queue F} {l : QueueInfo F} {a b : Attempt F} {r : Request}
    {offered : Offered F} (h : Placed s q node l a b r offered) :
    Loads s { offered.scheduler with nodes := s.nodes.insert node.id offered.node } node.id node offered.node
      [(a.member l.name, a.container r node.id s.nextContainer)] := by
  refine ⟨h.holdings, rfl, ?_, rfl, ?_, h.available⟩
  · simp [Attempt.container]
  · rw [h.rest]
    rfl

/-- What a container has is told beside what was told before, as long as both are no more than there can
be. -/
theorem Loads.told {x : Member × Container} (h : Loads s s' id node node' [x]) {total : Resource}
    (hroom : ∀ d, (total.get d).toNat + (node.available.get d).toNat ≤ Amount.limit.toNat) (d : Dimension) :
    ((total + x.2.resource).get d).toNat = (total.get d).toNat + load d [x] := by
  have hfall := h.available d
  have hfits := hroom d
  have hone : load d [x] = (x.2.resource.get d).toNat := Nat.add_zero _
  rw [hone] at hfall ⊢
  rw [Resource.toNat_get_add]
  omega

end Loads

variable [Scalar.Comparable F]

/-- Offering a registered node to the root places nothing and tells so, or places one container and tells
what it has, and then one container less is asked for. The settings stay. -/
theorem Substantial.offer (h : Substantial s) {node : Node} (hnode : s.nodes.get? id = some node)
    {resource : Resource} (hoffer : s.assignOnce QueueName.root node = (s', resource)) :
    Substantial s' ∧ s'.assignMultiple = s.assignMultiple ∧ s'.maxAssign = s.maxAssign ∧
      ((resource = 0 ∧ Loads s s' id node node []) ∨
        resource ≠ 0 ∧ s'.tree.root.pendingCount + 1 = s.tree.root.pendingCount ∧
          ∃ node' x, Loads s s' id node node' [x] ∧ x.2.resource = resource) := by
  have hwell := h.reachable.tree.wellNamed
  have hroot : s.tree.find? QueueName.root = some s.tree.root :=
    hwell.root.find?_eq_some_iff.mpr ⟨Queue.mem_all_self _, hwell.root_name⟩
  have hmem : ∀ l ∈ s.tree.root.all, ∀ a ∈ l.runnable, a ∈ s.tree.root.attempts := by
    intro l hl a ha
    refine List.mem_flatMap.mpr ⟨l, hl, ?_⟩
    cases l with
    | leaf info runnable parked => exact List.mem_append_left parked ha
    | parent info children => contradiction
  have htells := h.reachable.untouched_or_placed hroot node
    fun l hl a ha r hr => h.nonzero a (hmem l hl a ha) r hr.mem
  have hreached := h.reachable.of_assignOnce QueueName.root hnode
  obtain rfl := h.reachable.registered.named id node hnode
  rw [assignOnce, keepNode_of_registered hnode] at hoffer hreached
  obtain ⟨rfl, rfl⟩ := Prod.mk.inj hoffer
  obtain ⟨hzero, huntouched⟩ | ⟨hzero, l, a, b, r, hplaced⟩ := htells
  · refine ⟨⟨hreached, huntouched.nonzero h.nonzero⟩, ?_, ?_, .inl ⟨hzero, huntouched.loads⟩⟩ <;>
      rw [huntouched.rest] <;> rfl
  · have ha : a ∈ s.tree.root.attempts := Queue.mem_attempts_iff.mpr ⟨_, hplaced.within, rfl⟩
    have hpos := (h.reachable.filed a ha).count_pos hplaced.first.mem
    refine ⟨⟨hreached, hplaced.nonzero h.nonzero⟩, ?_, ?_, .inr ⟨hzero,
      hplaced.exchanged.pendingCount hplaced.receives hpos, _, _, hplaced.loads, ?_⟩⟩ <;>
      rw [hplaced.rest] <;> rfl

/-- Filling a node more often than containers are asked for fills it until the heartbeat ends. -/
theorem Substantial.ends_fill (h : Substantial s) (id : String) {fuel : ℕ}
    (hfuel : s.tree.root.pendingCount < fuel) (placed : ℕ) (total : Resource) :
    Ends id s placed total (fill id fuel s placed total) := by
  induction fuel generalizing s placed total with
  | zero => contradiction
  | succ fuel ih =>
    unfold fill
    split
    · rename_i hnode
      exact .unregistered hnode
    · rename_i node hnode
      cases hoffer : s.assignOnce QueueName.root node with
      | mk s' resource =>
        obtain ⟨hafter, -, -, ⟨hzero, -⟩ | ⟨hsome, hless, -⟩⟩ := h.offer hnode hoffer
        · simp only [hzero, Resource.isZero, decide_true, if_true]
          exact .exhausted hnode hoffer hzero
        · have hnot : resource.isZero = false := decide_eq_false hsome
          simp only [hnot, Bool.false_eq_true, if_false]
          split
          · rename_i hgoes
            exact .again hnode hoffer hsome hgoes (ih hafter (by omega) _ _)
          · rename_i hlimit
            exact .enough hnode hoffer hsome (Bool.eq_false_iff.mpr hlimit)

/-! ## What a heartbeat has placed -/

/-- A heartbeat that ends has placed containers on its node, of which it has told exactly what they have: one
at most if it is not to place several, and no more than it may place, but for the first. -/
theorem Ends.loads {placed : ℕ} {total : Resource} {out : Scheduler F × Resource} {node : Node}
    (hends : Ends id s placed total out) (h : Substantial s) (hnode : s.nodes.get? id = some node)
    (hroom : ∀ d, (total.get d).toNat + (node.available.get d).toNat ≤ Amount.limit.toNat) :
    ∃ node' given, Loads s out.1 id node node' given ∧
      (∀ d, (out.2.get d).toNat = (total.get d).toNat + load d given) ∧
      (s.assignMultiple = false → given.length ≤ 1) ∧
      ∀ most, s.maxAssign = some most → placed + given.length ≤ max most (placed + 1) := by
  induction hends generalizing node with
  | unregistered hnone =>
    rw [hnone] at hnode
    contradiction
  | exhausted hfound hoffer hnone =>
    obtain rfl := Option.some.inj (hfound.symm.trans hnode)
    obtain ⟨-, -, -, ⟨-, hloads⟩ | ⟨hsome, -⟩⟩ := h.offer hfound hoffer
    · exact ⟨_, [], hloads, fun d => rfl, by simp, by simp⟩
    · exact absurd hnone hsome
  | enough hfound hoffer hsome hlimit =>
    obtain rfl := Option.some.inj (hfound.symm.trans hnode)
    obtain ⟨-, -, -, ⟨hnone, -⟩ | ⟨-, -, node', x, hloads, rfl⟩⟩ := h.offer hfound hoffer
    · exact absurd hnone hsome
    exact ⟨node', [x], hloads, hloads.told hroom, by simp, by simp⟩
  | @again s s' placed total resource found out hfound hoffer hsome hgoes hrest ih =>
    obtain rfl := Option.some.inj (hfound.symm.trans hnode)
    obtain ⟨hafter, hmultiple, hmaximum, ⟨hnone, -⟩ | ⟨-, -, between, x, hloads, rfl⟩⟩ :=
      h.offer hfound hoffer
    · exact absurd hnone hsome
    have htold := hloads.told hroom
    obtain ⟨node', given, hloads', htotal, -, hmost⟩ := ih hafter
      (by rw [hloads.nodes, Table.get?_insert, if_pos rfl]) (fun d => by
        have hfall := hloads.available d
        have hfits := hroom d
        rw [htold]
        omega)
    rw [goesOn, Bool.and_eq_true, hmultiple, hmaximum] at hgoes
    refine ⟨node', _, hloads.trans hloads', fun d => ?_, fun hone => ?_, fun most hbound => ?_⟩
    · rw [htotal, htold, load_append, Nat.add_assoc]
    · rw [hone] at hgoes
      exact absurd hgoes.1 (by simp)
    · rw [hbound, Option.all_some, decide_eq_true_eq] at hgoes
      have hlater := hmost most (hmaximum.trans hbound)
      rw [List.length_append, List.length_singleton]
      omega

/-- Along every run in which no request is for nothing, a heartbeat of any node ends by itself, whatever the
settings. From a node that is not registered nothing changes. On a registered one it places containers: one
at most when it is not to place several, and no more than the most it may place, but for the first. The
resources it tells are exactly what these have together, and what is left of the node falls by as much. -/
theorem Reachable.heartbeat_within_limits (h : s.Reachable)
    (hnonzero : ∀ a ∈ s.tree.root.attempts, ∀ r ∈ a.requests.values, r.capability ≠ 0) (id : String) :
    (∀ out, Ends id s 0 0 out ↔ out = s.heartbeat id) ∧
    (s.nodes.get? id = none → s.heartbeat id = (s, 0)) ∧
    ∀ node, s.nodes.get? id = some node → ∃ node' given,
      Loads s (s.heartbeat id).1 id node node' given ∧
      (∀ d, ((s.heartbeat id).2.get d).toNat = load d given) ∧
      (s.assignMultiple = false → given.length ≤ 1) ∧
      ∀ most, s.maxAssign = some most → given.length ≤ max most 1 := by
  have hsubstantial : Substantial s := ⟨h, hnonzero⟩
  have hends : Ends id s 0 0 (s.heartbeat id) := hsubstantial.ends_fill id (Nat.lt_succ_self _) 0 0
  refine ⟨fun out => ⟨fun hout => hends.unique hout, fun hout => hout ▸ hends⟩, fun hnone => ?_,
    fun node hnode => ?_⟩
  · exact hends.unique (.unregistered hnone) |>.symm
  · have hroom : ∀ d, (((0 : Resource).get d).toNat + (node.available.get d).toNat) ≤
        Amount.limit.toNat := by
      intro d
      have hlimit := (node.available.get d).toNat_lt
      rw [Resource.toNat_get_zero, Amount.limit_toNat]
      omega
    obtain ⟨node', given, hloads, htold, hone, hmost⟩ := hends.loads hsubstantial hnode hroom
    refine ⟨node', given, hloads, fun d => ?_, hone, fun most hbound => ?_⟩
    · rw [htold, Resource.toNat_get_zero, Nat.zero_add]
    · have hbound := hmost most hbound
      omega

/-- A scheduler with one leaf whose heartbeats may place several containers, up to some number of them, after
an application has asked for three on a node with room for four. -/
def severalAsked (most : Option ℕ) : Scheduler Float :=
  ((({ oneLeaf with assignMultiple := true, maxAssign := most } : Scheduler Float).apply
    (.addNode "node" ⟨4, 4⟩)).apply (.submit "app" "a" "user" 0)).apply (.request "app" ⟨1, ⟨1, 1⟩, 3⟩)

/-- The scheduler comes about from a configuration. -/
theorem reachable_severalAsked (most : Option ℕ) : (severalAsked most).Reachable := by
  have hmade : ofConfig
      { queues := .parent "root" [.leaf "a"]
        assignMultiple := true
        maxAssign := most
        updateIntervalMs := 500 } =
      .ok { oneLeaf with assignMultiple := true, maxAssign := most } := rfl
  exact (((Reachable.start _ _ hmade).step _ (.addNode "node" ⟨4, 4⟩)).step _
    (.submit "app" "a" "user" 0)).step _ (.request "app" ⟨1, ⟨1, 1⟩, 3⟩)

/-- Of the three containers asked for, a heartbeat that may place two places two. -/
theorem heartbeat_within_limits_of_severalAsked :
    (severalAsked (some 2)).Reachable ∧
      (∀ a ∈ (severalAsked (some 2)).tree.root.attempts, ∀ r ∈ a.requests.values, r.capability ≠ 0) ∧
      ((severalAsked (some 2)).heartbeat "node").2 = ⟨2, 2⟩ ∧
      ∃ node' given, Loads (severalAsked (some 2)) ((severalAsked (some 2)).heartbeat "node").1 "node"
        (Node.new "node" ⟨4, 4⟩) node' given ∧ given.length ≤ 2 ∧ load .memory given = 2 := by
  have hnonzero : ∀ a ∈ (severalAsked (some 2)).tree.root.attempts, ∀ r ∈ a.requests.values,
      r.capability ≠ 0 := by
    decide +kernel
  have htold : ((severalAsked (some 2)).heartbeat "node").2 = ⟨2, 2⟩ := by decide +kernel
  have hnode : (severalAsked (some 2)).nodes.get? "node" = some (Node.new "node" ⟨4, 4⟩) := by
    decide +kernel
  have hmost : (severalAsked (some 2)).maxAssign = some 2 := rfl
  obtain ⟨-, -, hlimited⟩ :=
    (reachable_severalAsked (some 2)).heartbeat_within_limits hnonzero "node"
  obtain ⟨node', given, hloads, hload, -, hlength⟩ := hlimited _ hnode
  refine ⟨reachable_severalAsked (some 2), hnonzero, htold, node', given, hloads, hlength 2 hmost, ?_⟩
  rw [← hload, htold]
  rfl

/-- A heartbeat that may place several containers, but none at most, places one. -/
theorem bound_missed_of_severalAsked :
    (severalAsked (some 0)).Reachable ∧
      (∀ a ∈ (severalAsked (some 0)).tree.root.attempts, ∀ r ∈ a.requests.values, r.capability ≠ 0) ∧
      (severalAsked (some 0)).assignMultiple = true ∧ (severalAsked (some 0)).maxAssign = some 0 ∧
      (severalAsked (some 0)).tree.root.holdings = [] ∧
      ((severalAsked (some 0)).heartbeat "node").1.tree.root.holdings =
        [(⟨"root.a", "app", "root.a", 2⟩, ⟨1, "app", "root.a", "node", ⟨1, 1⟩, 1⟩)] := by
  refine ⟨reachable_severalAsked (some 0), ?_, rfl, rfl, ?_, ?_⟩ <;> decide +kernel

end Allotment.Scheduler
