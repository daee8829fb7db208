import Allotment.Proofs.Queue.Edit
import Allotment.Queue.Directory
import Mathlib.Data.List.Find

/-!
# Reaching a queue by its serial number

Where no two queues share a serial number, reaching a queue by its number and by its name is the
same. And where names are in order, a queue is removed from a tree by having the queue above let go
of it.
-/

namespace Allotment

open QueueName Shape

variable {F : Type}

namespace Shape

/-- Children of one name have parents of one name. -/
theorem child_injective {a b x y : String} (hx : IsPart x) (hy : IsPart y)
    (h : child a x = child b y) : a = b := by
  have hab : isWithin a b = true := by
    have hwithin := isWithin_child b y
    rw [← h, isWithin_child_iff hx] at hwithin
    obtain heq | hwithin := hwithin
    · have hnot := not_isWithin_child b y
      rw [← h, ← heq, isWithin_self] at hnot
      contradiction
    · exact hwithin
  have hba : isWithin b a = true := by
    have hwithin := isWithin_child a x
    rw [h, isWithin_child_iff hy] at hwithin
    obtain heq | hwithin := hwithin
    · have hnot := not_isWithin_child a x
      rw [h, ← heq, isWithin_self] at hnot
      contradiction
    · exact hwithin
  exact isWithin_antisymm hab hba

/-- The root is no child. -/
theorem child_ne_root (parent component : String) : child parent component ≠ QueueName.root := by
  intro heq
  have hdot : '.' ∈ (child parent component).toList := by simp [child, String.toList_append]
  rw [heq] at hdot
  exact absurd hdot (by decide)

end Shape

namespace Queue

@[simp] theorem modifyAt_leaf (serial : ℕ) (f : Queue F → Queue F) (info : QueueInfo F)
    (runnable parked : List (Attempt F)) :
    (leaf info runnable parked).modifyAt serial f =
      if info.serial = serial then f (leaf info runnable parked)
      else leaf info runnable parked := by
  simp [modifyAt]

@[simp] theorem modifyAt_parent (serial : ℕ) (f : Queue F → Queue F) (info : QueueInfo F)
    (children : List (Queue F)) :
    (parent info children).modifyAt serial f =
      if info.serial = serial then f (parent info children)
      else parent info (children.map (modifyAt serial f)) := by
  unfold modifyAt
  rw [fold_parent]
  simp only [List.map_map, Function.comp_def, List.map_id']

/-- A child of a queue in a tree is in the tree. -/
theorem mem_all_of_mem_children {q r c : Queue F} (hr : r ∈ q.all) (hc : c ∈ r.children) :
    c ∈ q.all := by
  apply mem_all_trans hr
  cases r with
  | leaf info runnable parked => simp [children] at hc
  | parent info children => exact mem_all_of_child hc (mem_all_self c)

/-- A queue of a tree is the top or a child of a parent. -/
theorem exists_parent {q r : Queue F} (hr : r ∈ q.all) :
    r = q ∨ ∃ info children, parent info children ∈ q.all ∧ r ∈ children := by
  induction q using Queue.induction with
  | leaf info runnable parked =>
    rw [all_leaf, List.mem_singleton] at hr
    exact .inl hr
  | parent info children ih =>
    rw [all_parent, List.mem_cons] at hr
    obtain rfl | hr := hr
    · exact .inl rfl
    · obtain ⟨c, hc, hrc⟩ := List.mem_flatMap.mp hr
      obtain rfl | ⟨info', children', hs, hchild⟩ := ih c hc hrc
      · exact .inr ⟨info, children, mem_all_self _, hc⟩
      · exact .inr ⟨info', children', mem_all_of_child hc hs, hchild⟩

section Serial

variable {serial : ℕ} {n : String} {q : Queue F}
  (h : ∀ r ∈ q.all, r.info.serial = serial ↔ r.name = n)
include h

/-- Where the queues of a serial number are those of a name, changing them is the same. -/
theorem modifyAt_eq_modify (f : Queue F → Queue F) : q.modifyAt serial f = q.modify n f := by
  induction q using Queue.induction with
  | leaf info runnable parked =>
    have htop : info.serial = serial ↔ info.name = n := h _ (mem_all_self _)
    rw [modifyAt_leaf, modify_leaf]
    simp only [htop]
  | parent info children ih =>
    have htop : info.serial = serial ↔ info.name = n := h _ (mem_all_self _)
    have hbelow : children.map (modifyAt serial f) = children.map (modify n f) :=
      List.map_congr_left fun c hc => ih c hc fun r hr => h r (mem_all_of_child hc hr)
    rw [modifyAt_parent, modify_parent, hbelow]
    simp only [htop]

/-- Where the queues of a serial number are those of a name, looking for either finds the same. -/
theorem at?_eq_find? : q.at? serial = q.find? n := by
  unfold at? find?
  apply List.find?_congr
  intro r hr
  simp [h r hr]

end Serial

/-! ## Removing by letting go -/

/-- A tree in which no queue has a child of a name is as it is without it. -/
theorem remove_eq_self {n : String} (q : Queue F)
    (h : ∀ r ∈ q.all, ∀ c ∈ r.children, c.name ≠ n) : q.remove n = q := by
  induction q using Queue.induction with
  | leaf info runnable parked => rw [remove_leaf]
  | parent info children ih =>
    have hstays : children.eraseP (fun c => c.name = n) = children := by
      apply List.eraseP_of_forall_not
      intro c hc
      simpa using h _ (mem_all_self _) c hc
    rw [remove_parent, hstays]
    congr 1
    conv_rhs => rw [← List.map_id children]
    exact List.map_congr_left fun c hc => ih c hc fun r hr => h r (mem_all_of_child hc hr)

/-- A queue is removed by having the queues of the name above let go of it. -/
theorem WellNamed.remove_eq_modify {q : Queue F} (h : q.WellNamed) {n c : String} (hc : IsPart c) :
    q.remove (child n c) = q.modify n (removeChild (child n c)) := by
  induction q using Queue.induction with
  | leaf info runnable parked =>
    rw [remove_leaf, modify_leaf]
    split <;> rfl
  | parent info children ih =>
    obtain ⟨hnodup, hchildren⟩ := wellNamed_parent_iff.mp h
    rw [remove_parent, modify_parent]
    split
    · rename_i hname
      rw [removeChild]
      congr 1
      conv_rhs => rw [← List.map_id (children.eraseP _)]
      apply List.map_congr_left
      intro d hd
      obtain ⟨hmem, hne⟩ := (mem_eraseP_name hnodup).mp hd
      obtain ⟨⟨part, hpart, hdname⟩, hwell⟩ := hchildren d hmem
      apply remove_eq_self
      intro r hr e he heq
      -- A queue of the name below another child would be within both.
      have hwithin := hwell.isWithin (mem_all_of_mem_children hr he)
      rw [heq, hdname, hname] at hwithin
      have hsame := child_eq_of_isWithin hc hpart (isWithin_self (child n c)) hwithin
      rw [hdname, hname, hsame] at hne
      exact hne rfl
    · rename_i hname
      have hstays : children.eraseP (fun d => d.name = child n c) = children := by
        apply List.eraseP_of_forall_not
        intro d hd hdn
        obtain ⟨⟨part, hpart, hdname⟩, -⟩ := hchildren d hd
        have heq : d.name = child n c := by simpa using hdn
        exact hname (child_injective hpart hc (hdname.symm.trans heq))
      rw [hstays]
      congr 1
      exact List.map_congr_left fun d hd => ih d hd (hchildren d hd).2

end Queue

namespace QueueTree

variable {t : QueueTree F}

/-- The root's name stands for the root. -/
theorem WellNamed.bare?_root (h : t.WellNamed) : t.bare? QueueName.root = some t.root.bare := by
  rw [h.bare?_eq_some_iff, Queue.name_bare]
  exact ⟨List.mem_map.mpr ⟨t.root, t.root.mem_all_self, rfl⟩, h.root_name⟩

/-- A name that stands for a queue is the root's, or has a component more than the name of a
parent. -/
theorem WellNamed.exists_parent (h : t.WellNamed) {n : String} {b : Queue F}
    (hb : t.bare? n = some b) :
    n = QueueName.root ∨ ∃ m c, IsPart c ∧ n = child m c ∧ t.kindOf? m = some .parent := by
  obtain ⟨hmem, rfl⟩ := h.bare?_eq_some_iff.mp hb
  obtain ⟨r, hr, rfl⟩ := List.mem_map.mp hmem
  rw [Queue.name_bare]
  obtain rfl | ⟨info, children, hs, hchild⟩ := Queue.exists_parent hr
  · exact .inl h.root_name
  · obtain ⟨⟨c, hc, hname⟩, -⟩ := (Queue.wellNamed_parent_iff.mp (h.root.of_mem hs)).2 r hchild
    refine .inr ⟨info.name, c, hc, hname, ?_⟩
    rw [h.kindOf?_eq_some_iff]
    exact List.mem_map.mpr ⟨_, hs, rfl⟩

/-- The queues of the serial number of a named queue are those of its name. -/
theorem Sound.serial_iff (h : t.Sound) {n : String} {b : Queue F} (hb : t.bare? n = some b)
    {r : Queue F} (hr : r ∈ t.root.all) : r.info.serial = b.info.serial ↔ r.name = n := by
  have hbare : t.bare? r.name = some r.bare := by
    rw [h.wellNamed.bare?_eq_some_iff, Queue.name_bare]
    exact ⟨List.mem_map.mpr ⟨r, hr, rfl⟩, rfl⟩
  constructor
  · intro hserial
    exact h.serial_injective r.name n r.bare b hbare hb (by rw [Queue.info_bare, hserial])
  · intro hname
    rw [hname, hb, Option.some.injEq] at hbare
    rw [hbare, Queue.info_bare]

/-- A change of one queue that leaves its reference as it is, and its policy applicable, keeps a tree
sound. -/
theorem Sound.modify_local (h : t.Sound) {f : Queue F → Queue F} (hf : Queue.Local f)
    (hhandle : ∀ q, (f q).handle = q.handle) {n : String}
    (hpolicy : ∀ b, t.bare? n = some b →
      (f b).info.policy.appliesTo (Queue.place (n = QueueName.root) b.kind) = true) :
    (t.modify n f).Sound := by
  obtain ⟨hwell, hbares⟩ := h.wellNamed.modify_local hf n
  refine h.of_bare? hwell (Nat.le_refl _) ?_
  intro m b' hb'
  rw [hbares] at hb'
  split at hb'
  · rename_i hm
    subst hm
    obtain ⟨b, hb, rfl⟩ := Option.map_eq_some_iff.mp hb'
    have hkind : (f b).kind = b.kind := congrArg Handle.kind (hhandle b)
    refine ⟨b, hb, congrArg Handle.serial (hhandle b), ?_⟩
    rw [hkind]
    exact hpolicy b hb
  · exact ⟨b', hb', rfl, h.applies m b' hb'⟩

end QueueTree

end Allotment
