import Allotment.Proofs.Queue.Choice
import Allotment.Proofs.Table

/-!
# What an offer changes

A queue that is offered a node puts children in order. As long as no request for nothing is put forward,
it does no more than that if it places nothing. If it places something, one application is exchanged for
what it is with one container more, and apart from that children have been put in order.
-/

namespace Allotment

open scoped List

variable {F : Type}

/-! ## An application that gets a container -/

/-- Changing one part of an account leaves the others. -/
theorem Account.get_modify (a : Account) (p p' : Part) (f : Resource → Resource) :
    (a.modify p f).get p' = if p = p' then f (a.get p) else a.get p' := by
  cases p <;> cases p' <;> rfl

namespace Usage

/-- A part of an account, which is empty if there is none. -/
theorem part_eq (u : Usage) (p : Account.Part) (label : String) :
    u.part p label = ((u.get? label).getD Account.empty).get p := by
  unfold part
  cases u.get? label <;> cases p <;> rfl

/-- Changing a part of one account leaves its other parts and other accounts. -/
theorem part_change (u : Usage) (p p' : Account.Part) (label label' : String)
    (f : Resource → Resource) : (u.change p label f).part p' label' =
      if label = label' ∧ p = p' then f (u.part p label) else u.part p' label' := by
  rw [part_eq, part_eq, part_eq, change, Table.adjust, Table.get?_insert]
  by_cases hlabel : label = label'
  · subst hlabel
    rw [if_pos rfl, Option.getD_some, Account.get_modify]
    simp only [true_and]
  · rw [if_neg hlabel, if_neg fun h => hlabel h.1]

section Parts

variable (u : Usage) (r : Resource)

@[simp] theorem used_addUsed : (u.addUsed r).used = u.used + r := by
  rw [used, addUsed, part_change, if_pos ⟨rfl, rfl⟩, used]

@[simp] theorem used_dropUsed : (u.dropUsed r).used = u.used - r := by
  rw [used, dropUsed, part_change, if_pos ⟨rfl, rfl⟩, used]

@[simp] theorem used_addPending : (u.addPending r).used = u.used := by
  rw [used, addPending, part_change, if_neg (by simp), used]

@[simp] theorem used_dropPending : (u.dropPending r).used = u.used := by
  rw [used, dropPending, part_change, if_neg (by simp), used]

@[simp] theorem pending_addUsed : (u.addUsed r).pending = u.pending := by
  rw [pending, addUsed, part_change, if_neg (by simp), pending]

@[simp] theorem pending_dropUsed : (u.dropUsed r).pending = u.pending := by
  rw [pending, dropUsed, part_change, if_neg (by simp), pending]

@[simp] theorem pending_addPending : (u.addPending r).pending = u.pending + r := by
  rw [pending, addPending, part_change, if_pos ⟨rfl, rfl⟩, pending]

@[simp] theorem pending_dropPending : (u.dropPending r).pending = u.pending - r := by
  rw [pending, dropPending, part_change, if_pos ⟨rfl, rfl⟩, pending]

end Parts

end Usage

namespace Attempt

/-- What becomes of an application that gets a container for a request: the container is the newest that
it holds, the request is for one container less, what it waits for moves to what it uses, and nothing else
is different. -/
structure Receives (a b : Attempt F) (r : Request) (c : Container) : Prop where
  live : b.live = a.live ++ [c]
  asked : a.requests.get? r.priority = some r
  request : b.requests.get? r.priority = if r.count = 1 then none else some { r with count := r.count - 1 }
  others : ∀ priority, priority ≠ r.priority → b.requests.get? priority = a.requests.get? priority
  used : b.usage.used = a.usage.used + c.resource
  pending : b.usage.pending = a.usage.pending - c.resource
  accounts : ∀ part label, label ≠ Usage.anyLabel ∨ part ≠ .used ∧ part ≠ .pending →
    b.usage.part part label = a.usage.part part label
  rest : b = { a with live := b.live, requests := b.requests, usage := b.usage }

variable {a : Attempt F} {r : Request}

/-- A filed request finds itself. -/
theorem Filed.get?_priority (h : a.Filed) (hr : r ∈ a.requests.values) :
    a.requests.get? r.priority = some r := by
  obtain ⟨e, he, rfl⟩ := List.mem_map.mp hr
  rw [(h e he).1]
  exact Table.get?_eq_some_iff.mpr he

/-- The application that has got a container for a filed request. -/
theorem Filed.receives (h : a.Filed) (hr : r ∈ a.requests.values) (node : String) (id : ℕ) :
    Receives a (a.receive r node id) r (a.container r node id) := by
  have htaken : (a.takeOne r).live = a.live ∧ (a.takeOne r).usage = a.usage ∧
      ∀ priority, (a.takeOne r).requests.get? priority = if r.priority = priority then
        if r.count = 1 then none else some { r with count := r.count - 1 }
        else a.requests.get? priority := by
    unfold takeOne
    split
    · exact ⟨rfl, rfl, fun priority => Table.get?_erase _ _ _⟩
    · exact ⟨rfl, rfl, fun priority => Table.get?_insert _ _ _ _⟩
  obtain ⟨hlive, husage, hrequests⟩ := htaken
  have hmoved : (a.receive r node id).usage =
      (a.usage.dropPending r.capability).addUsed r.capability := by
    rw [← husage]
    rfl
  refine ⟨congrArg (· ++ [_]) hlive, h.get?_priority hr, ?_, fun priority hne => ?_, ?_, ?_,
    fun part label hother => ?_, ?_⟩
  · exact (hrequests r.priority).trans (if_pos rfl)
  · exact (hrequests priority).trans (if_neg (Ne.symm hne))
  · rw [hmoved, Usage.used_addUsed, Usage.used_dropPending]
    rfl
  · rw [hmoved, Usage.pending_addUsed, Usage.pending_dropPending]
    rfl
  · have hused : ¬ (Usage.anyLabel = label ∧ Account.Part.used = part) := by
      rintro ⟨rfl, rfl⟩
      simp at hother
    have hpending : ¬ (Usage.anyLabel = label ∧ Account.Part.pending = part) := by
      rintro ⟨rfl, rfl⟩
      simp at hother
    rw [hmoved, Usage.addUsed, Usage.part_change, if_neg hused, Usage.dropPending, Usage.part_change,
      if_neg hpending]
  · unfold receive takeOne
    split <;> rfl

end Attempt

namespace Queue

/-! ## Trees that differ little -/

/-- Whether a queue is another with children and runnable applications put in order. -/
inductive Reordered : Queue F → Queue F → Prop where
  | leaf (info : QueueInfo F) {runnable ranked : List (Attempt F)} (parked : List (Attempt F))
    (hperm : ranked ~ runnable) : Reordered (leaf info runnable parked) (leaf info ranked parked)
  | parent (info : QueueInfo F) {children ranked renewed : List (Queue F)}
    (hperm : ranked ~ children) (hall : List.Forall₂ Reordered ranked renewed) :
    Reordered (parent info children) (parent info renewed)

/-- Whether a queue is another in which one application that may run, in the leaf of some description, has
been exchanged, with children and runnable applications put in order. -/
inductive Exchanged (l : QueueInfo F) (a b : Attempt F) : Queue F → Queue F → Prop where
  | leaf {runnable before after : List (Attempt F)} (parked : List (Attempt F))
    (hperm : before ++ a :: after ~ runnable) :
    Exchanged l a b (leaf l runnable parked) (leaf l (before ++ b :: after) parked)
  | parent (info : QueueInfo F) {children before renewed after : List (Queue F)} {c d : Queue F}
    (hperm : before ++ c :: after ~ children) (hall : List.Forall₂ Reordered before renewed)
    (below : Exchanged l a b c d) :
    Exchanged l a b (parent info children) (parent info (renewed ++ d :: after))

section Differ

variable {l : QueueInfo F} {a b : Attempt F} {q q' : Queue F}

/-- A queue is itself with everything in the order it was. -/
theorem Reordered.refl (q : Queue F) : Reordered q q := by
  induction q using Queue.induction with
  | leaf info runnable parked => exact .leaf info parked (.refl _)
  | parent info children ih => exact .parent info (.refl _) (List.forall₂_same.mpr ih)

section Gather

variable {β : Type} {m : Queue F → List β} {own : QueueInfo F → List β}
  (hparent : ∀ info children, m (Queue.parent info children) = own info ++ children.flatMap m)
  (hleaf : ∀ info runnable ranked parked, ranked ~ runnable →
    m (Queue.leaf info ranked parked) ~ m (Queue.leaf info runnable parked))

include hparent hleaf

/-- Putting children in order leaves what is gathered from a queue. -/
theorem Reordered.gather (h : Reordered q q') : m q' ~ m q := by
  induction q using Queue.induction generalizing q' with
  | leaf info runnable parked =>
    cases h with
    | leaf _ _ hperm => exact hleaf _ _ _ _ hperm
  | parent info children ih =>
    cases h with
    | @parent _ _ ranked renewed hperm hall =>
      rw [hparent, hparent]
      refine List.Perm.append_left _ ?_
      calc renewed.flatMap m
        _ ~ ranked.flatMap m :=
          flatMap_perm_of_forall₂ hall fun c hc d hcd => ih c (hperm.mem_iff.mp hc) hcd
        _ ~ children.flatMap m := hperm.flatMap_right m

/-- Exchanging an application exchanges what is gathered from it. -/
theorem Exchanged.gather (xs ys : List β)
    (hexchanged : ∀ before after parked, ∃ rest,
      m (Queue.leaf l (before ++ a :: after) parked) ~ xs ++ rest ∧
      m (Queue.leaf l (before ++ b :: after) parked) ~ ys ++ rest) (h : Exchanged l a b q q') :
    ∃ rest, m q ~ xs ++ rest ∧ m q' ~ ys ++ rest := by
  induction h with
  | @leaf runnable before after parked hperm =>
    obtain ⟨rest, hbefore, hafter⟩ := hexchanged before after parked
    exact ⟨rest, (hleaf _ _ _ _ hperm).symm.trans hbefore, hafter⟩
  | @parent info children before renewed after c d hperm hall below ih =>
    obtain ⟨rest, hbefore, hafter⟩ := ih
    have hrenewed : renewed.flatMap m ~ before.flatMap m :=
      flatMap_perm_of_forall₂ hall fun c _ d hcd => hcd.gather hparent hleaf
    have hmiddle : ∀ (zs : List β) (e : Queue F), m e ~ zs ++ rest →
        own info ++ (before ++ e :: after).flatMap m ~
          zs ++ (own info ++ (rest ++ (before ++ after).flatMap m)) := by
      intro zs e he
      calc own info ++ (before ++ e :: after).flatMap m
        _ ~ own info ++ (m e ++ (before ++ after).flatMap m) :=
          (List.perm_middle.flatMap_right m).append_left _
        _ ~ own info ++ (zs ++ (rest ++ (before ++ after).flatMap m)) := by
          rw [← List.append_assoc zs]
          exact (he.append_right _).append_left _
        _ ~ zs ++ (own info ++ (rest ++ (before ++ after).flatMap m)) :=
          List.perm_append_comm_assoc _ _ _
    refine ⟨own info ++ (rest ++ (before ++ after).flatMap m), ?_, ?_⟩
    · rw [hparent]
      exact ((hperm.symm.flatMap_right m).append_left _).trans (hmiddle xs c hbefore)
    · rw [hparent, List.flatMap_append]
      refine ((hrenewed.append_right _).append_left _).trans ?_
      rw [← List.flatMap_append]
      exact hmiddle ys d hafter

end Gather

/-- What every queue of a tree has. -/
def infos (q : Queue F) : List (QueueInfo F) := q.all.map info

theorem infos_parent (info : QueueInfo F) (children : List (Queue F)) :
    (parent info children).infos = [info] ++ children.flatMap infos := by
  rw [infos, all_parent, List.map_cons, List.map_flatMap]
  rfl

/-- Putting children in order leaves what queues have, demands and shares included. -/
theorem Reordered.infos (h : Reordered q q') : q'.infos ~ q.infos :=
  h.gather infos_parent fun _ _ _ _ _ => .of_eq (by simp [Queue.infos, Queue.info])

/-- Exchanging an application leaves what queues have, demands and shares included. -/
theorem Exchanged.infos (h : Exchanged l a b q q') : q'.infos ~ q.infos := by
  obtain ⟨rest, hbefore, hafter⟩ := h.gather infos_parent
    (fun _ _ _ _ _ => .of_eq (by simp [Queue.infos, Queue.info])) [] []
    (fun _ _ _ => ⟨[l], by simp [Queue.infos, Queue.info], by simp [Queue.infos, Queue.info]⟩)
  exact hafter.trans hbefore.symm

/-- The seats of a parent are those of its children and none of its own. -/
theorem seats_eq_append (info : QueueInfo F) (children : List (Queue F)) :
    (parent info children).seats = [] ++ children.flatMap seats :=
  seats_parent info children

/-- The seats of a leaf do not depend on the order of its applications. -/
theorem seats_leaf_perm (info : QueueInfo F) (runnable ranked parked : List (Attempt F))
    (h : ranked ~ runnable) : (leaf info ranked parked).seats ~ (leaf info runnable parked).seats := by
  rw [seats_leaf, seats_leaf]
  exact (h.append_right parked).map _

/-- Putting children in order leaves every application in its leaf, as it was. -/
theorem Reordered.seats (h : Reordered q q') : q'.seats ~ q.seats :=
  h.gather seats_eq_append seats_leaf_perm

/-- Exchanging an application leaves every other one in its leaf, as it was. -/
theorem Exchanged.seats (h : Exchanged l a b q q') :
    ∃ rest, q.seats ~ ⟨l.name, l.serial, a⟩ :: rest ∧ q'.seats ~ ⟨l.name, l.serial, b⟩ :: rest := by
  refine h.gather seats_eq_append seats_leaf_perm [_] [_] fun before after parked => ?_
  refine ⟨(before ++ after ++ parked).map fun e => ⟨l.name, l.serial, e⟩, ?_, ?_⟩ <;>
  · rw [seats_leaf, List.append_assoc, List.append_assoc]
    exact List.perm_middle.map _

/-- Putting children in order leaves the containers with those who hold them. -/
theorem Reordered.holdings (h : Reordered q q') : q'.holdings ~ q.holdings :=
  (h.seats.map _).flatMap_right _

/-- Exchanging an application for what it is with one container more creates one container. -/
theorem Exchanged.holdings {r : Request} {c : Container} (h : Exchanged l a b q q')
    (hreceives : a.Receives b r c) : q'.holdings ~ q.holdings ++ [(a.member l.name, c)] := by
  obtain ⟨rest, hbefore, hafter⟩ := h.seats
  let held := fun x : Seat F => (x.attempt.post x.leaf).holdings
  have hheld : ∀ xs : List (Seat F),
      (xs.map fun x => x.attempt.post x.leaf).flatMap Post.holdings = xs.flatMap held := by
    intro xs
    rw [List.flatMap_map]
  have hmember : b.member l.name = a.member l.name := by
    rw [hreceives.rest]
    rfl
  have hgiven : held ⟨l.name, l.serial, b⟩ = held ⟨l.name, l.serial, a⟩ ++ [(a.member l.name, c)] := by
    change b.live.map (fun c => (b.member l.name, c)) = _
    rw [hreceives.live, hmember, List.map_append]
    rfl
  rw [Queue.holdings, Queue.holdings, posts, posts, hheld, hheld]
  calc q'.seats.flatMap held
    _ ~ held ⟨l.name, l.serial, b⟩ ++ rest.flatMap held := hafter.flatMap_right held
    _ ~ (held ⟨l.name, l.serial, a⟩ ++ rest.flatMap held) ++ [(a.member l.name, c)] := by
      rw [hgiven, List.append_assoc, List.append_assoc]
      exact List.perm_append_comm.append_left _
    _ ~ q.seats.flatMap held ++ [(a.member l.name, c)] :=
      (hbefore.symm.flatMap_right held).append_right _

/-- Putting the children of one queue in order puts those of the tree in order. -/
theorem Reordered.modify {q r r' : Queue F} (hwell : q.WellNamed) (hr : r ∈ q.all)
    (h : Reordered r r') : Reordered q (q.modify r.name fun _ => r') := by
  induction q using Queue.induction with
  | leaf info runnable parked =>
    rw [all_leaf, List.mem_singleton] at hr
    rw [← hr, modify_of_name _ rfl]
    exact h
  | parent info children ih =>
    rw [all_parent, List.mem_cons] at hr
    obtain rfl | hr := hr
    · rw [modify_of_name _ rfl]
      exact h
    · obtain ⟨c, hc, hrc⟩ := List.mem_flatMap.mp hr
      obtain ⟨before, after, rfl⟩ := List.append_of_mem hc
      have hbelow := ih c hc ((wellNamed_parent_iff.mp hwell).2 c hc).2 hrc
      have hsame : ∀ qs : List (Queue F), List.Forall₂ Reordered qs qs := fun qs =>
        List.forall₂_same.mpr fun d _ => Reordered.refl d
      rw [hwell.modify_below hrc]
      exact .parent info (.refl _) (List.rel_append (hsame before) (.cons hbelow (hsame after)))

/-- Exchanging an application of one queue exchanges it in the tree. -/
theorem Exchanged.modify {q r r' : Queue F} (hwell : q.WellNamed) (hr : r ∈ q.all)
    (h : Exchanged l a b r r') : Exchanged l a b q (q.modify r.name fun _ => r') := by
  induction q using Queue.induction with
  | leaf info runnable parked =>
    rw [all_leaf, List.mem_singleton] at hr
    rw [← hr, modify_of_name _ rfl]
    exact h
  | parent info children ih =>
    rw [all_parent, List.mem_cons] at hr
    obtain rfl | hr := hr
    · rw [modify_of_name _ rfl]
      exact h
    · obtain ⟨c, hc, hrc⟩ := List.mem_flatMap.mp hr
      obtain ⟨before, after, rfl⟩ := List.append_of_mem hc
      have hbelow := ih c hc ((wellNamed_parent_iff.mp hwell).2 c hc).2 hrc
      rw [hwell.modify_below hrc]
      exact .parent info (.refl _) (List.forall₂_same.mpr fun d _ => Reordered.refl d) hbelow

end Differ

/-! ## Offers -/

/-- Whether an offer has come to nothing: nothing has been placed, and children have been put in order. -/
structure Declines (q : Queue F) (p : Placement F) (s : Served F (Queue F)) : Prop where
  resource : s.resource = 0
  placement : s.placement = p
  reordered : Reordered q s.subject

/-- Whether an offer has been taken for a request of an application in the leaf of some description: a
container that is not empty has been placed for the first request that fits, the application has got it,
and it has been counted for the leaf. -/
structure Takes (q : Queue F) (p : Placement F) (s : Served F (Queue F)) (l : QueueInfo F)
    (a : Attempt F) (r : Request) : Prop where
  first : Attempt.FirstFit p.node.available a r
  nonzero : r.capability ≠ 0
  resource : s.resource = r.capability
  placement : p.Gains s.placement r.capability
  metrics : s.placement.metrics = p.metrics.increment l.name "containers_assigned" 1
  exchanged : Exchanged l a (a.receive r p.node.id p.nextContainer) q s.subject
  receives : a.Receives (a.receive r p.node.id p.nextContainer) r
    (a.container r p.node.id p.nextContainer)

/-- Whether requests of the runnable applications of a queue are filed, and none that is put forward for a
node with some resources left is for nothing. -/
structure Earnest (available : Resource) (q : Queue F) : Prop where
  filed : ∀ r ∈ q.all, ∀ a ∈ r.runnable, a.Filed
  nonzero : ∀ r ∈ q.all, ∀ a ∈ r.runnable, ∀ request, Attempt.FirstFit available a request →
    request.capability ≠ 0

section Offers

variable [Scalar F] {p : Placement F}

/-- A leaf whose requests are for something takes an offer or declines it. -/
theorem declines_or_takes_leaf {info : QueueInfo F} {runnable parked : List (Attempt F)}
    (h : Earnest p.node.available (leaf info runnable parked)) (cluster : Resource) :
    Declines (leaf info runnable parked) p ((leaf info runnable parked).assign cluster p) ∨
      ∃ l a r, Takes (leaf info runnable parked) p ((leaf info runnable parked).assign cluster p) l a r := by
  by_cases headroom : info.settings.hasHeadroom (leaf info runnable parked).usage = true
  case neg =>
    rw [assign_leaf, if_neg headroom]
    exact .inl ⟨rfl, rfl, .refl _⟩
  rw [assign_leaf, if_pos headroom]
  have hasked : ∀ a ∈ runnable, a.assign p = ⟨a, p, 0⟩ ∨ ∃ r, a.eligible? p.node.available = some r ∧
      Attempt.FirstFit p.node.available a r ∧ r.capability ≠ 0 := by
    intro a ha
    cases heligible : a.eligible? p.node.available with
    | none => exact .inl (Attempt.assign_of_none heligible)
    | some r =>
      have hfirst := (h.filed _ (mem_all_self _) a ha).firstFit heligible
      exact .inr ⟨r, rfl, hfirst, h.nonzero _ (mem_all_self _) a ha r hfirst⟩
  have hidle : ∀ a ∈ runnable, (a.assign p).resource = 0 → a.assign p = ⟨a, p, 0⟩ := by
    intro a ha hzero
    obtain hidle | ⟨r, heligible, -, hnonzero⟩ := hasked a ha
    · exact hidle
    · rw [Attempt.assign_eq_receive heligible] at hzero
      contradiction
  have hranked := info.policy.sort_perm cluster Attempt.standing runnable
  have hkept : ∀ as : List (Attempt F), (∀ a ∈ as, a ∈ runnable ∧ (a.assign p).resource = 0) →
      as.map (fun a => (a.assign p).subject) = as := by
    intro as has
    rw [List.map_congr_left fun a ha => congrArg Served.subject (hidle a (has a ha).1 (has a ha).2),
      List.map_id']
  obtain ⟨hall, hserved⟩ | ⟨before, a, after, hsorted, hbefore, hsome, hserved⟩ :=
    serveFirst_cases Attempt.assign (info.policy.sort cluster Attempt.standing runnable) p
      fun a ha hzero => congrArg Served.placement (hidle a (hranked.mem_iff.mp ha) hzero)
  · rw [hserved, hkept _ fun a ha => ⟨hranked.mem_iff.mp ha, hall a ha⟩]
    exact .inl ⟨rfl, rfl, .leaf info parked hranked⟩
  · rw [hsorted] at hranked
    have ha : a ∈ runnable := hranked.mem_iff.mp (by simp)
    obtain hnothing | ⟨r, heligible, hfirst, hnonzero⟩ := hasked a ha
    · rw [hnothing] at hsome
      contradiction
    have hreceives := (h.filed _ (mem_all_self _) a ha).receives hfirst.mem p.node.id p.nextContainer
    have hcounted : ¬ r.capability.isZero = true := fun hzero => hnonzero (of_decide_eq_true hzero)
    rw [hserved, hkept before fun b hb => ⟨hranked.mem_iff.mp (by simp [hb]), hbefore b hb⟩,
      Attempt.assign_eq_receive heligible]
    refine .inr ⟨info, a, r, hfirst, hnonzero, rfl, ?_, ?_, .leaf parked hranked, hreceives⟩
    · dsimp only
      rw [countAssigned, if_neg hcounted]
      exact ⟨rfl, rfl⟩
    · dsimp only
      rw [countAssigned, if_neg hcounted]

/-- A queue takes an offer or declines it, as long as no request for nothing is put forward. -/
theorem declines_or_takes {q : Queue F} (h : Earnest p.node.available q) (cluster : Resource) :
    Declines q p (q.assign cluster p) ∨ ∃ l a r, Takes q p (q.assign cluster p) l a r := by
  induction q using Queue.induction with
  | leaf info runnable parked => exact declines_or_takes_leaf h cluster
  | parent info children ih =>
    by_cases headroom : info.settings.hasHeadroom (parent info children).usage = true
    case neg =>
      rw [assign_parent_sorted, if_neg headroom]
      exact .inl ⟨rfl, rfl, .refl _⟩
    rw [assign_parent_sorted, if_pos headroom]
    have hasked := fun c hc => ih c hc
      ⟨fun r hr => h.filed r (mem_all_of_child hc hr), fun r hr => h.nonzero r (mem_all_of_child hc hr)⟩
    have hidle : ∀ c ∈ children, (c.assign cluster p).resource = 0 →
        Declines c p (c.assign cluster p) := by
      intro c hc hzero
      obtain hdeclines | ⟨l, a, r, htakes⟩ := hasked c hc
      · exact hdeclines
      · exact absurd (htakes.resource.symm.trans hzero) htakes.nonzero
    have hranked := info.policy.sort_perm cluster standing children
    have hvain : ∀ cs : List (Queue F), (∀ c ∈ cs, c ∈ children ∧ (c.assign cluster p).resource = 0) →
        List.Forall₂ Reordered cs (cs.map fun c => (c.assign cluster p).subject) := by
      intro cs hcs
      rw [List.forall₂_map_right_iff, List.forall₂_same]
      exact fun c hc => (hidle c (hcs c hc).1 (hcs c hc).2).reordered
    obtain ⟨hall, hserved⟩ | ⟨before, c, after, hsorted, hbefore, hsome, hserved⟩ :=
      serveFirst_cases (assign cluster) (info.policy.sort cluster standing children) p
        fun c hc hzero => (hidle c (hranked.mem_iff.mp hc) hzero).placement
    · rw [hserved]
      exact .inl ⟨rfl, rfl,
        .parent info hranked (hvain _ fun c hc => ⟨hranked.mem_iff.mp hc, hall c hc⟩)⟩
    · rw [hsorted] at hranked
      obtain hdeclines | ⟨l, a, r, htakes⟩ := hasked c (hranked.mem_iff.mp (by simp))
      · exact absurd hdeclines.resource hsome
      rw [hserved]
      exact .inr ⟨l, a, r, htakes.first, htakes.nonzero, htakes.resource, htakes.placement,
        htakes.metrics, .parent info hranked
          (hvain before fun d hd => ⟨hranked.mem_iff.mp (by simp [hd]), hbefore d hd⟩) htakes.exchanged,
        htakes.receives⟩

end Offers

end Queue

end Allotment
