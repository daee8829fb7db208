import Allotment.Proofs.Queue.Kinds

/-!
# Growing a well named tree

A tree has a root of the right name and kind, and is well named below it. `kindOf?` tells what kind of
queue bears a name, if one does; what becomes of it is all that later steps of a reload depend on.
-/

namespace Allotment.QueueTree

open QueueName

variable {F : Type}

/-- Whether a tree has a root of the right name and kind, and is well named. -/
structure WellNamed (t : QueueTree F) : Prop where
  root : t.root.WellNamed
  root_name : t.root.name = QueueName.root
  root_kind : t.root.kind = .parent

/-- The kind of the queue of a name. -/
def kindOf? (t : QueueTree F) (n : String) : Option QueueKind := (t.find? n).map Queue.kind

namespace WellNamed

variable {t : QueueTree F}

/-- The kind of a name is the one that the tree lists with it. -/
theorem kindOf?_eq_some_iff (h : t.WellNamed) {n : String} {k : QueueKind} :
    t.kindOf? n = some k ↔ (n, k) ∈ t.root.kinds :=
  h.root.mem_kinds_iff.symm

/-- The root is found, and it is a parent. -/
theorem kindOf?_root (h : t.WellNamed) : t.kindOf? QueueName.root = some .parent := by
  rw [h.kindOf?_eq_some_iff, ← h.root_name, ← h.root_kind]
  exact t.root.mem_kinds_self

/-- A queue above one that is found is found, and whatever is above the root is the root. -/
theorem exists_of_isWithin (h : t.WellNamed) {n a : String} {k : QueueKind}
    (hn : t.kindOf? n = some k) (hna : Shape.isWithin n a = true)
    (ha : Shape.isWithin a QueueName.root = true) : ∃ k', t.kindOf? a = some k' := by
  rw [h.kindOf?_eq_some_iff] at hn
  obtain ⟨r, hr, heq⟩ := List.mem_map.mp hn
  obtain ⟨rfl, rfl⟩ := Prod.mk.inj heq
  rw [← h.root_name] at ha
  obtain ⟨s, hs, rfl⟩ := h.root.exists_of_isWithin hr hna ha
  exact ⟨s.kind, h.kindOf?_eq_some_iff.mpr (List.mem_map.mpr ⟨s, hs, rfl⟩)⟩

/-- No other queue is within a leaf. -/
theorem eq_of_isWithin_leaf (h : t.WellNamed) {n m : String} {k : QueueKind}
    (hleaf : t.kindOf? n = some .leaf) (hm : t.kindOf? m = some k)
    (hwithin : Shape.isWithin m n = true) : m = n := by
  obtain ⟨q, hq, hkind⟩ := Option.map_eq_some_iff.mp hleaf
  obtain ⟨r, hr, -⟩ := Option.map_eq_some_iff.mp hm
  obtain ⟨hqmem, hqname⟩ := h.root.find?_eq_some_iff.mp hq
  obtain ⟨hrmem, hrname⟩ := h.root.find?_eq_some_iff.mp hr
  have hin := h.root.mem_all_of_isWithin hrmem hqmem (by rw [hrname, hqname, hwithin])
  cases q with
  | leaf info runnable parked =>
    rw [Queue.all_leaf, List.mem_singleton] at hin
    rw [← hrname, hin, hqname]
  | parent info children => contradiction

/-- Similar trees are well named together, and tell the same kinds. -/
theorem of_similar (h : t.WellNamed) {root' : Queue F}
    (hsim : Queue.Similar QueueInfo.name t.root root') (serial : ℕ) :
    (⟨root', serial⟩ : QueueTree F).WellNamed ∧
      ∀ n, (⟨root', serial⟩ : QueueTree F).kindOf? n = t.kindOf? n := by
  have hwell : (⟨root', serial⟩ : QueueTree F).WellNamed :=
    ⟨h.root.of_similar hsim, hsim.key_eq.trans h.root_name, hsim.kind_eq.trans h.root_kind⟩
  refine ⟨hwell, ?_⟩
  intro n
  apply Option.ext
  intro k
  rw [hwell.kindOf?_eq_some_iff, h.kindOf?_eq_some_iff]
  exact hsim.kinds_perm.mem_iff

/-- Removing a queue other than the root leaves what is not within it. -/
theorem detach (h : t.WellNamed) {n : String} (hn : Shape.isWithin QueueName.root n = false) :
    (t.detach n).WellNamed ∧
      ∀ m, (t.detach n).kindOf? m = if Shape.isWithin m n then none else t.kindOf? m := by
  have hwell : (t.detach n).WellNamed :=
    ⟨h.root.remove n, (Queue.name_remove n t.root).trans h.root_name,
      (Queue.kind_remove n t.root).trans h.root_kind⟩
  refine ⟨hwell, ?_⟩
  intro m
  apply Option.ext
  intro k
  rw [← h.root_name] at hn
  rw [hwell.kindOf?_eq_some_iff]
  change (m, k) ∈ (t.root.remove n).kinds ↔ _
  rw [h.root.mem_kinds_remove hn]
  split
  · rename_i hin
    simp [hin]
  · rename_i hout
    simp [hout, h.kindOf?_eq_some_iff]

end WellNamed

end Allotment.QueueTree
