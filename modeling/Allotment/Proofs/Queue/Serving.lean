import Allotment.Proofs.Node
import Allotment.Proofs.Queue.Roster
import Mathlib.Algebra.GroupWithZero.Nat

/-!
# Filling a node

A queue that is offered a node gives containers on it to applications in the queue, each to one that
names it as its own, and takes of the node exactly what the containers need. No application comes or
goes meanwhile.
-/

namespace Allotment

open scoped List

variable {F : Type}

/-- The amount of a dimension that held containers have together. -/
def load (d : Dimension) (held : List (Member × Container)) : ℕ :=
  (held.map fun x => (x.2.resource.get d).toNat).sum

@[simp] theorem load_nil (d : Dimension) : load d [] = 0 := rfl

@[simp] theorem load_append (d : Dimension) (xs ys : List (Member × Container)) :
    load d (xs ++ ys) = load d xs + load d ys := by
  simp [load]

/-- Fewer containers have no more. -/
theorem load_le_of_sublist (d : Dimension) {held held' : List (Member × Container)} (h : held <+ held') :
    load d held ≤ load d held' := by
  induction h with
  | slnil => exact Nat.le_refl _
  | cons x _ ih => exact ih.trans (Nat.le_add_left _ _)
  | cons_cons x _ ih => exact Nat.add_le_add_left ih _

/-- Whether containers have been placed on a node: they are on it and take of it exactly what they
need, each names the application that holds it, and they bear the next numbers. -/
structure Places (p p' : Placement F) (given : List (Member × Container)) : Prop where
  node_id : p'.node.id = p.node.id
  total : p'.node.total = p.node.total
  allocated : p.node.allocated ≤ p.node.total → p'.node.allocated ≤ p'.node.total ∧
    ∀ d, (p'.node.allocated.get d).toNat = (p.node.allocated.get d).toNat + load d given
  on_node : ∀ x ∈ given, x.2.node = p.node.id
  own : ∀ x ∈ given, x.2.app = x.1.id ∧ x.2.queue = x.1.queue
  ids : given.map (·.2.id) = List.range' p.nextContainer given.length
  next : p'.nextContainer = p.nextContainer + given.length

namespace Places

variable {p p' p'' : Placement F} {given given' : List (Member × Container)}

/-- Nothing has been placed as yet. -/
theorem refl (p : Placement F) : Places p p [] :=
  ⟨rfl, rfl, fun hfits => ⟨hfits, fun _ => rfl⟩, by simp, by simp, rfl, rfl⟩

/-- What has been placed, and what is placed after it. -/
theorem trans (h : Places p p' given) (h' : Places p' p'' given') :
    Places p p'' (given ++ given') := by
  refine ⟨h'.node_id.trans h.node_id, h'.total.trans h.total, ?_, ?_, ?_, ?_, ?_⟩
  · intro hfits
    obtain ⟨hfits', hsum⟩ := h.allocated hfits
    obtain ⟨hfits'', hsum'⟩ := h'.allocated hfits'
    refine ⟨hfits'', ?_⟩
    intro d
    rw [hsum', hsum, load_append, Nat.add_assoc]
  · intro x hx
    obtain hx | hx := List.mem_append.mp hx
    · exact h.on_node x hx
    · exact (h'.on_node x hx).trans h.node_id
  · intro x hx
    obtain hx | hx := List.mem_append.mp hx
    · exact h.own x hx
    · exact h'.own x hx
  · rw [List.map_append, h.ids, h'.ids, h.next, List.length_append, List.range'_append_1]
  · rw [h'.next, h.next, List.length_append, Nat.add_assoc]

end Places

/-- Whether serving a node has placed containers on it for the members among some posts. -/
def Serves {α : Type} (posts : α → List Post) (x : α) (p : Placement F) (s : Served F α) : Prop :=
  ∃ given, Places p s.placement given ∧
    ((posts s.subject).flatMap Post.holdings).Perm ((posts x).flatMap Post.holdings ++ given) ∧
    ((posts s.subject).map Post.member).Perm ((posts x).map Post.member)

/-- Nobody is served. -/
theorem Serves.none {α : Type} (posts : α → List Post) (x : α) (p : Placement F) (r : Resource) :
    Serves posts x p ⟨x, p, r⟩ :=
  ⟨[], .refl p, by rw [List.append_nil], .refl _⟩

/-- Whoever is served among others, who keep their posts, is served together with them. -/
theorem Serves.among {α β : Type} {posts : α → List Post} {posts' : β → List Post} {x : α} {y : β}
    {p : Placement F} {s : Served F α} {s' : Served F β} (h : Serves posts x p s)
    (hnode : s'.placement.node = s.placement.node)
    (hnext : s'.placement.nextContainer = s.placement.nextContainer) (rest : List Post)
    (hbefore : (posts' y).Perm (posts x ++ rest))
    (hafter : (posts' s'.subject).Perm (posts s.subject ++ rest)) : Serves posts' y p s' := by
  obtain ⟨given, hplaces, hheld, hmembers⟩ := h
  refine ⟨given, ?_, ?_, ?_⟩
  · refine ⟨?_, ?_, ?_, hplaces.on_node, hplaces.own, hplaces.ids, ?_⟩
    · rw [hnode, hplaces.node_id]
    · rw [hnode, hplaces.total]
    · rw [hnode]
      exact hplaces.allocated
    · rw [hnext, hplaces.next]
  · have hafter' := hafter.flatMap_right Post.holdings
    have hbefore' := hbefore.flatMap_right Post.holdings
    rw [List.flatMap_append] at hafter' hbefore'
    calc (posts' s'.subject).flatMap Post.holdings
      _ ~ (posts s.subject).flatMap Post.holdings ++ rest.flatMap Post.holdings := hafter'
      _ ~ ((posts x).flatMap Post.holdings ++ given) ++ rest.flatMap Post.holdings :=
        hheld.append_right _
      _ ~ ((posts x).flatMap Post.holdings ++ rest.flatMap Post.holdings) ++ given := by
        rw [List.append_assoc, List.append_assoc]
        exact List.perm_append_comm.append_left _
      _ ~ (posts' y).flatMap Post.holdings ++ given := hbefore'.symm.append_right _
  · have hafter' := hafter.map Post.member
    have hbefore' := hbefore.map Post.member
    rw [List.map_append] at hafter' hbefore'
    exact hafter'.trans ((hmembers.append_right _).trans hbefore'.symm)

/-- Those who are asked one after another to serve a node serve it together. -/
theorem serves_serveFirst {α : Type} (posts : α → List Post)
    (entries : List (α × (Placement F → Served F α))) (p : Placement F)
    (h : ∀ e ∈ entries, ∀ p, Serves posts e.1 p (e.2 p)) :
    Serves (fun xs : List α => xs.flatMap posts) (entries.map (·.1)) p (serveFirst entries p) := by
  induction entries generalizing p with
  | nil => exact Serves.none _ _ p 0
  | cons e rest ih =>
    obtain ⟨x, serve⟩ := e
    obtain ⟨given, hplaces, hheld, hmembers⟩ := h _ List.mem_cons_self p
    rw [serveFirst]
    split
    · obtain ⟨given', hplaces', hheld', hmembers'⟩ :=
        ih (serve p).placement fun e he => h e (List.mem_cons_of_mem _ he)
      refine ⟨given ++ given', hplaces.trans hplaces', ?_, ?_⟩
      · simp only [List.map_cons, List.flatMap_cons, List.flatMap_append]
        refine (hheld.append hheld').trans ?_
        rw [List.append_assoc, List.append_assoc]
        exact (List.perm_append_comm_assoc _ _ _).append_left _
      · simp only [List.map_cons, List.flatMap_cons, List.map_append]
        exact hmembers.append hmembers'
    · refine ⟨given, hplaces, ?_, ?_⟩
      · simp only [List.map_cons, List.flatMap_cons, List.flatMap_append]
        refine (hheld.append_right _).trans ?_
        rw [List.append_assoc, List.append_assoc]
        exact List.perm_append_comm.append_left _
      · simp only [List.map_cons, List.flatMap_cons, List.map_append]
        exact hmembers.append_right _

namespace Attempt

/-- An application serves a node with one container, or with none. -/
theorem serves_assign (leaf : String) (a : Attempt F) (p : Placement F) :
    Serves (fun a : Attempt F => [a.post leaf]) a p (a.assign p) := by
  unfold assign
  split
  · exact Serves.none _ _ p 0
  · rename_i r heligible
    split
    · exact Serves.none _ _ p 0
    · rename_i node hallocated
      obtain ⟨hid, htotal, hsum⟩ := Node.of_allocate? hallocated
      have hmember : ((a.takeOne r).hold (a.container r node.id p.nextContainer)).member leaf =
          a.member leaf := by
        unfold takeOne
        split <;> rfl
      have hlive : ((a.takeOne r).hold (a.container r node.id p.nextContainer)).live =
          a.live ++ [a.container r node.id p.nextContainer] := by
        unfold takeOne
        split <;> rfl
      refine ⟨[(a.member leaf, a.container r node.id p.nextContainer)], ?_, ?_, ?_⟩
      · exact ⟨hid, htotal, hsum, by simpa [container] using hid, by simp [container, member], rfl, rfl⟩
      · simp [post, Post.holdings, hmember, hlive]
      · simp [post, hmember]

end Attempt

namespace Queue

variable [Scalar F]

omit [Scalar F] in
/-- Counting a container concerns the metrics alone. -/
theorem countAssigned_eq (name : String) (resource : Resource) (p : Placement F) :
    (countAssigned name resource p).node = p.node ∧
      (countAssigned name resource p).nextContainer = p.nextContainer := by
  unfold countAssigned
  split <;> exact ⟨rfl, rfl⟩

/-- A queue that is offered a node serves it. -/
theorem serves_assign (cluster : Resource) (q : Queue F) (p : Placement F) :
    Serves posts q p (q.assign cluster p) := by
  induction q using Queue.induction generalizing p with
  | leaf info runnable parked =>
    let ranked := info.policy.sort cluster Attempt.standing runnable
    have hranked : ranked.Perm runnable := List.mergeSort_perm _ _
    have hserved := serves_serveFirst (fun a : Attempt F => [a.post info.name])
      (ranked.map fun a => (a, a.assign)) p (by
        intro e he
        obtain ⟨a, -, rfl⟩ := List.mem_map.mp he
        exact a.serves_assign info.name)
    have hposts : ∀ as : List (Attempt F), (leaf info as parked).posts =
        (as.flatMap fun a => [a.post info.name]) ++ parked.map (Attempt.post info.name) := by
      intro as
      rw [posts_leaf, List.map_append, List.map_eq_flatMap]
    rw [assign, fold_leaf]
    simp only
    split
    · refine hserved.among (countAssigned_eq _ _ _).1 (countAssigned_eq _ _ _).2
        (parked.map (Attempt.post info.name)) ?_ ?_
      · rw [hposts, List.map_map, Function.comp_def, List.map_id']
        exact (hranked.symm.flatMap_right _).append_right _
      · rw [hposts]
    · exact Serves.none _ _ p 0
  | parent info children ih =>
    let ranked := info.policy.sort cluster (fun e => e.1.standing)
      (children.map fun q => (q, q.assign cluster))
    have hranked : ranked.Perm (children.map fun q => (q, q.assign cluster)) :=
      List.mergeSort_perm _ _
    have hserved := serves_serveFirst posts ranked p (by
      intro e he
      obtain ⟨q, hq, rfl⟩ := List.mem_map.mp (hranked.mem_iff.mp he)
      exact ih q hq)
    rw [assign_parent]
    split
    · dsimp only
      refine hserved.among ?_ ?_ [] ?_ ?_
      · rfl
      · rfl
      · have hchildren := hranked.symm.map (·.1)
        rw [List.map_map, Function.comp_def, List.map_id'] at hchildren
        rw [posts_parent, List.append_nil]
        exact hchildren.flatMap_right posts
      · rw [posts_parent, List.append_nil]
    · exact Serves.none _ _ p 0

end Queue

/-- A tree in which one queue serves a node serves it. -/
theorem QueueTree.WellNamed.serves_modify {t : QueueTree F} (h : t.WellNamed) {n : String}
    {q : Queue F} (hfind : t.find? n = some q) {p : Placement F} {s : Served F (Queue F)}
    (hs : Serves Queue.posts q p s) :
    Serves (fun t : QueueTree F => t.root.posts) t p
      ⟨t.modify n fun _ => s.subject, s.placement, s.resource⟩ := by
  obtain ⟨hq, rfl⟩ := h.root.find?_eq_some_iff.mp hfind
  obtain ⟨rest, hbefore, hafter⟩ := h.root.exists_rest Queue.posts_parent hq
  refine hs.among ?_ ?_ rest hbefore (hafter fun _ => s.subject)
  · rfl
  · rfl

end Allotment
