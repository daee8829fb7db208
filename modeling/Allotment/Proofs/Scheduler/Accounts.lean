import Allotment.Proofs.Queue.Serving
import Allotment.Proofs.Table
import Allotment.Scheduler

/-!
# Nodes that account for containers

Nodes account for held containers when of every node exactly as much is allocated as the containers on
it have, within the node, and no container is on a node that is not registered. Registering and taking
away a node, giving containers back and placing new ones keep the accounts. They also keep containers
numbered: apart from each other, and below the number of the next one.
-/

namespace Allotment

open scoped List

variable {F : Type} {held held' rest given : List (Member × Container)} {nodes : Table String Node}

/-- The containers on a node. -/
def onNode (n : String) (held : List (Member × Container)) : List (Member × Container) :=
  held.filter fun y => y.2.node = n

/-- The same containers in another order have the same load. -/
theorem load_perm (d : Dimension) (h : held' ~ held) : load d held' = load d held :=
  (h.map _).sum_nat

/-- Whether exactly as much is allocated of a node as the containers on it have, and no more than the
node offers. -/
structure Node.Carries (node : Node) (held : List (Member × Container)) : Prop where
  fits : node.allocated ≤ node.total
  exact : ∀ d, (node.allocated.get d).toNat = load d (onNode node.id held)

namespace Node.Carries

variable {node : Node}

/-- Only the containers on the node matter. -/
theorem of_perm (h : node.Carries held) (hperm : onNode node.id held' ~ onNode node.id held) :
    node.Carries held' :=
  ⟨h.fits, fun d => by rw [h.exact, load_perm d hperm]⟩

/-- A node without containers is a new one. -/
theorem new {id : String} (h : onNode id held = []) (total : Resource) :
    (Node.new id total).Carries held := by
  constructor
  · rw [Resource.le_iff_toNat]
    intro d
    cases d <;> exact Nat.zero_le _
  · intro d
    change ((0 : Resource).get d).toNat = load d (onNode id held)
    rw [h]
    cases d <;> rfl

/-- A container on the node that is given back is taken off. -/
theorem release {y : Member × Container} (h : node.Carries (y :: rest)) (hy : y.2.node = node.id) :
    (node.release y.2.resource).Carries rest := by
  have hload : ∀ d, (node.allocated.get d).toNat =
      (y.2.resource.get d).toNat + load d (onNode node.id rest) := by
    intro d
    rw [h.exact, onNode, List.filter_cons_of_pos (by simpa using hy)]
    rfl
  have hleft : ∀ d, ((node.allocated - y.2.resource).get d).toNat =
      load d (onNode node.id rest) := by
    intro d
    rw [Resource.toNat_get_sub, hload, Nat.add_sub_cancel_left]
  refine ⟨?_, hleft⟩
  rw [Resource.le_iff_toNat]
  intro d
  have hfits := Resource.le_iff_toNat.mp h.fits d
  calc ((node.allocated - y.2.resource).get d).toNat
    _ ≤ (node.allocated.get d).toNat := by
      rw [hleft, hload]
      exact Nat.le_add_left _ _
    _ ≤ (node.total.get d).toNat := hfits

/-- Containers that are placed on the node are put on. -/
theorem place {p p' : Placement F} (h : p.node.Carries held) (hp : Places p p' given) :
    p'.node.Carries (held ++ given) := by
  obtain ⟨hfits, hsum⟩ := hp.allocated h.fits
  refine ⟨hfits, ?_⟩
  intro d
  have hgiven : onNode p.node.id given = given := by
    rw [onNode, List.filter_eq_self]
    exact fun x hx => decide_eq_true (hp.on_node x hx)
  rw [hsum, h.exact, hp.node_id, onNode, onNode, List.filter_append, load_append, ← onNode, ← onNode,
    hgiven]

end Node.Carries

/-- Whether registered nodes account for held containers. -/
structure Accounts (nodes : Table String Node) (held : List (Member × Container)) : Prop where
  carries : ∀ n node, nodes.get? n = some node → node.id = n ∧ node.Carries held
  registered : ∀ y ∈ held, nodes.contains y.2.node = true

namespace Accounts

/-- The order of the containers does not matter. -/
theorem of_perm (h : Accounts nodes held) (hperm : held' ~ held) : Accounts nodes held' := by
  constructor
  · intro n node hnode
    obtain ⟨hid, hcarries⟩ := h.carries n node hnode
    exact ⟨hid, hcarries.of_perm (hperm.filter _)⟩
  · exact fun y hy => h.registered y (hperm.mem_iff.mp hy)

/-- A new node is registered without containers. -/
theorem insert_new (h : Accounts nodes held) {id : String} (hfresh : nodes.get? id = none)
    (total : Resource) : Accounts (nodes.insert id (Node.new id total)) held := by
  have hnone : onNode id held = [] := by
    rw [onNode, List.filter_eq_nil_iff]
    intro y hy hnode
    have hregistered := h.registered y hy
    rw [of_decide_eq_true hnode, Table.contains, hfresh] at hregistered
    contradiction
  constructor
  · intro n node hnode
    rw [Table.get?_insert] at hnode
    split at hnode
    · rename_i hid
      rw [← Option.some.inj hnode, ← hid]
      exact ⟨rfl, .new hnone total⟩
    · exact h.carries n node hnode
  · intro y hy
    have hregistered := h.registered y hy
    rw [Table.contains, Table.get?_insert]
    split
    · rfl
    · exact hregistered

/-- A node is taken away together with the containers on it. -/
theorem erase (h : Accounts nodes held) (id : String) :
    Accounts (nodes.erase id) (held.filter fun y => y.2.node ≠ id) := by
  constructor
  · intro n node hnode
    rw [Table.get?_erase] at hnode
    split at hnode
    · contradiction
    · rename_i hother
      obtain ⟨hid, hcarries⟩ := h.carries n node hnode
      refine ⟨hid, hcarries.of_perm ?_⟩
      rw [hid, onNode, List.filter_filter, onNode]
      refine .of_eq (List.filter_congr ?_)
      intro y _
      by_cases hy : y.2.node = n
      · simp [hy, Ne.symm hother]
      · simp [hy]
  · intro y hy
    obtain ⟨hmem, hne⟩ := List.mem_filter.mp hy
    rw [Table.contains, Table.get?_erase, if_neg fun heq => of_decide_eq_true hne heq.symm]
    exact h.registered y hmem

/-- A container is given back. -/
theorem free {y : Member × Container} (h : Accounts nodes (y :: rest)) :
    Accounts (Scheduler.freeContainer nodes y.2) rest := by
  unfold Scheduler.freeContainer
  constructor
  · intro n node hnode
    rw [Table.get?_modify] at hnode
    split at hnode
    · rename_i hon
      obtain ⟨before, hbefore, rfl⟩ := Option.map_eq_some_iff.mp hnode
      obtain ⟨hid, hcarries⟩ := h.carries n before hbefore
      exact ⟨hid, hcarries.release (hon.trans hid.symm)⟩
    · rename_i helse
      obtain ⟨hid, hcarries⟩ := h.carries n node hnode
      refine ⟨hid, hcarries.of_perm ?_⟩
      rw [hid, onNode, onNode, List.filter_cons_of_neg (by simpa using helse)]
  · intro z hz
    have hregistered := h.registered z (List.mem_cons_of_mem y hz)
    rw [Table.contains, Table.get?_modify]
    split
    · rw [Option.isSome_map]
      exact hregistered
    · exact hregistered

/-- Containers are given back one after another. -/
theorem frees {freed : List (Member × Container)} (h : Accounts nodes (freed ++ rest)) :
    Accounts ((freed.map (·.2)).foldl Scheduler.freeContainer nodes) rest := by
  induction freed generalizing nodes with
  | nil => exact h
  | cons y freed ih => exact ih h.free

/-- Containers are placed on a node as it is registered. -/
theorem place {p p' : Placement F} (h : Accounts nodes held)
    (hnode : nodes.get? p.node.id = some p.node) (hp : Places p p' given) :
    Accounts (nodes.insert p.node.id p'.node) (held ++ given) := by
  constructor
  · intro n node hfound
    rw [Table.get?_insert] at hfound
    split at hfound
    · rename_i hid
      rw [← Option.some.inj hfound, ← hid]
      exact ⟨hp.node_id, (h.carries _ _ hnode).2.place hp⟩
    · rename_i helse
      obtain ⟨hid, hcarries⟩ := h.carries n node hfound
      have hgiven : onNode n given = [] := by
        rw [onNode, List.filter_eq_nil_iff]
        intro x hx hon
        exact helse ((hp.on_node x hx).symm.trans (of_decide_eq_true hon))
      refine ⟨hid, hcarries.of_perm ?_⟩
      rw [hid, onNode, List.filter_append, ← onNode, ← onNode, hgiven, List.append_nil]
  · intro y hy
    rw [Table.contains, Table.get?_insert]
    split
    · rfl
    · rename_i helse
      obtain hy | hy := List.mem_append.mp hy
      · exact h.registered y hy
      · exact absurd (hp.on_node y hy).symm helse

end Accounts

/-- Whether held containers are numbered apart from each other and below the next number, and each
names the application that holds it. -/
structure Numbered (next : ℕ) (held : List (Member × Container)) : Prop where
  own : ∀ y ∈ held, y.2.app = y.1.id ∧ y.2.queue = y.1.queue
  nodup : (held.map (·.2.id)).Nodup
  lt_next : ∀ y ∈ held, y.2.id < next

namespace Numbered

variable {next : ℕ}

/-- Fewer containers in another order stay numbered. -/
theorem of_subperm (h : Numbered next held) (hsub : held' <+~ held) : Numbered next held' := by
  obtain ⟨between, hperm, hsublist⟩ := hsub
  refine ⟨?_, ?_, ?_⟩
  · exact fun y hy => h.own y (hsublist.subset (hperm.mem_iff.mpr hy))
  · rw [← (hperm.map _).nodup_iff]
    exact h.nodup.sublist (hsublist.map _)
  · exact fun y hy => h.lt_next y (hsublist.subset (hperm.mem_iff.mpr hy))

/-- Containers that are placed bear numbers that no other has. -/
theorem place {p p' : Placement F} (h : Numbered p.nextContainer held) (hp : Places p p' given) :
    Numbered p'.nextContainer (held ++ given) := by
  have hnew : ∀ x ∈ given, p.nextContainer ≤ x.2.id ∧ x.2.id < p'.nextContainer := by
    intro x hx
    have hid : x.2.id ∈ given.map (·.2.id) := List.mem_map_of_mem hx
    rw [hp.ids, List.mem_range'_1, ← hp.next] at hid
    exact hid
  refine ⟨?_, ?_, ?_⟩
  · intro y hy
    obtain hy | hy := List.mem_append.mp hy
    · exact h.own y hy
    · exact hp.own y hy
  · rw [List.map_append, List.nodup_append]
    refine ⟨h.nodup, ?_, ?_⟩
    · rw [hp.ids]
      exact List.nodup_range'
    · intro i hi j hj
      obtain ⟨y, hy, rfl⟩ := List.mem_map.mp hi
      obtain ⟨x, hx, rfl⟩ := List.mem_map.mp hj
      exact ((h.lt_next y hy).trans_le (hnew x hx).1).ne
  · intro y hy
    obtain hy | hy := List.mem_append.mp hy
    · rw [hp.next]
      exact Nat.lt_add_right _ (h.lt_next y hy)
    · exact (hnew y hy).2

end Numbered

end Allotment
