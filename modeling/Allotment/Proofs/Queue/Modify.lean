import Allotment.Proofs.Queue.Growth

/-!
# Changes of one queue

In a well named tree at most one queue bears a name, so changing the queues of a name means changing
one queue, and what becomes of it may be worked out from that queue beforehand.
-/

namespace Allotment

variable {F : Type}

namespace Queue

/-- A change at the top of a tree leaves nothing else to look for. -/
theorem modify_of_name {q : Queue F} {n : String} (f : Queue F → Queue F) (h : q.name = n) :
    q.modify n f = f q := by
  cases q with
  | leaf info runnable parked =>
    rw [modify_leaf]
    exact if_pos h
  | parent info children =>
    rw [modify_parent]
    exact if_pos h

/-- What a change does to queues of other names does not matter. -/
theorem modify_congr (q : Queue F) {n : String} {f g : Queue F → Queue F}
    (h : ∀ r ∈ q.all, r.name = n → f r = g r) : q.modify n f = q.modify n g := by
  induction q using Queue.induction with
  | leaf info runnable parked =>
    rw [modify_leaf, modify_leaf]
    split
    · rename_i hname
      exact h _ (mem_all_self _) hname
    · rfl
  | parent info children ih =>
    rw [modify_parent, modify_parent]
    split
    · rename_i hname
      exact h _ (mem_all_self _) hname
    · congr 1
      apply List.map_congr_left
      intro c hc
      apply ih c hc
      intro r hr
      exact h r (mem_all_of_child hc hr)

/-- Two changes of the queues of a name, the first of which keeps their names, are one. -/
theorem modify_modify (q : Queue F) (n : String) {f : Queue F → Queue F} (g : Queue F → Queue F)
    (hf : ∀ r, (f r).name = r.name) : (q.modify n f).modify n g = q.modify n fun r => g (f r) := by
  induction q using Queue.induction with
  | leaf info runnable parked =>
    rw [modify_leaf, modify_leaf]
    split
    · rename_i hname
      exact modify_of_name g ((hf _).trans hname)
    · rename_i hother
      rw [modify_leaf, if_neg hother]
  | parent info children ih =>
    rw [modify_parent, modify_parent]
    split
    · rename_i hname
      exact modify_of_name g ((hf _).trans hname)
    · rename_i hother
      rw [modify_parent, if_neg hother, List.map_map]
      congr 1
      exact List.map_congr_left ih

/-- Changing nothing about the queues of a name leaves the tree as it is. -/
theorem modify_id (q : Queue F) (n : String) : q.modify n id = q := by
  induction q using Queue.induction with
  | leaf info runnable parked =>
    rw [modify_leaf]
    split <;> rfl
  | parent info children ih =>
    rw [modify_parent]
    split
    · rfl
    · rw [List.map_congr_left ih, List.map_id']

end Queue

namespace QueueTree

variable {t : QueueTree F}

/-- Two changes of the queues of a name, the first of which keeps their names, are one. -/
theorem modify_modify (t : QueueTree F) (n : String) {f : Queue F → Queue F}
    (g : Queue F → Queue F) (hf : ∀ r, (f r).name = r.name) :
    (t.modify n f).modify n g = t.modify n fun r => g (f r) := by
  rw [modify, modify, modify, Queue.modify_modify t.root n g hf]

/-- Changing the root of a tree changes nothing else. -/
theorem WellNamed.modify_root (h : t.WellNamed) (f : Queue F → Queue F) :
    t.modify QueueName.root f = { t with root := f t.root } := by
  rw [modify, Queue.modify_of_name f h.root_name]

/-- Changing a queue that is not there leaves the tree as it is. -/
theorem WellNamed.modify_missing (h : t.WellNamed) {n : String} (hnone : t.find? n = none)
    (f : Queue F → Queue F) : t.modify n f = t := by
  have hroot : t.root.modify n f = t.root.modify n id := by
    apply Queue.modify_congr
    intro r hr hname
    have hfound : t.find? n = some r := h.root.find?_eq_some_iff.mpr ⟨hr, hname⟩
    rw [hnone] at hfound
    contradiction
  rw [modify, hroot, Queue.modify_id]

/-- A queue that was looked up may be changed by putting in its place what becomes of it. -/
theorem WellNamed.modify_found (h : t.WellNamed) {n : String} {q : Queue F}
    (hfind : t.find? n = some q) (f : Queue F → Queue F) :
    t.modify n (fun _ => f q) = t.modify n f := by
  rw [modify, modify]
  congr 1
  apply Queue.modify_congr
  intro r hr hname
  have hsame : t.find? n = some r := h.root.find?_eq_some_iff.mpr ⟨hr, hname⟩
  rw [hfind] at hsame
  rw [Option.some.inj hsame]

end QueueTree

end Allotment
