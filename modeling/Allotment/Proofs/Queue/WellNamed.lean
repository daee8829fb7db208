import Allotment.Proofs.Queue.Name
import Allotment.Proofs.Queue.Similar
import Mathlib.Data.List.Nodup

/-!
# Well named trees

In a well named tree the name of every child is its parent's with a component more, and no two
children of a parent bear the same name. Then no two queues of the whole tree do, a queue and those
in it are exactly the queues whose names are within its own, and looking for a name finds the one
queue that bears it.

`kinds` lists the names and kinds of all queues. Growing a tree by a child and removing a queue come
to adding an entry and to dropping the entries within a name.
-/

namespace Allotment

namespace Shape

open QueueName

/-- Two queues within each other are the same. -/
theorem isWithin_antisymm {a b : String} (hab : isWithin a b = true) (hba : isWithin b a = true) :
    a = b := by
  rw [isWithin_iff] at hab hba
  exact (dotted_injective (hab.eq_of_length_le hba.length_le)).symm

/-- Of two queues that another is within, one is within the other. -/
theorem isWithin_total {x a b : String} (ha : isWithin x a = true) (hb : isWithin x b = true) :
    isWithin a b = true ∨ isWithin b a = true := by
  simp only [isWithin_iff] at *
  exact (List.prefix_or_prefix_of_prefix hb ha)

end Shape

namespace Queue

open QueueName Shape

variable {F : Type}

/-- Whether all names below a queue go with their parents' and tell siblings apart. -/
def WellNamed : Queue F → Prop :=
  fold (fun _ _ _ => True) fun info entries =>
    (entries.map (·.1.name)).Nodup ∧
      ∀ e ∈ entries, (∃ c, IsPart c ∧ e.1.name = child info.name c) ∧ e.2

@[simp] theorem wellNamed_leaf (info : QueueInfo F) (runnable parked : List (Attempt F)) :
    (leaf info runnable parked).WellNamed := by
  simp [WellNamed]

theorem wellNamed_parent_iff {info : QueueInfo F} {children : List (Queue F)} :
    (parent info children).WellNamed ↔ (children.map name).Nodup ∧
      ∀ q ∈ children, (∃ c, IsPart c ∧ q.name = child info.name c) ∧ q.WellNamed := by
  unfold WellNamed
  rw [fold_parent]
  simp [Function.comp_def]

namespace WellNamed

/-- The names in a well named tree are within that of its top. -/
theorem isWithin {q r : Queue F} (h : q.WellNamed) (hr : r ∈ q.all) :
    Shape.isWithin r.name q.name = true := by
  induction q using Queue.induction with
  | leaf info runnable parked =>
    rw [all_leaf, List.mem_singleton] at hr
    subst hr
    exact isWithin_self _
  | parent info children ih =>
    rw [all_parent, List.mem_cons] at hr
    rcases hr with rfl | hr
    · exact isWithin_self _
    · obtain ⟨c, hc, hrc⟩ := List.mem_flatMap.mp hr
      obtain ⟨⟨part, -, hname⟩, hwell⟩ := (wellNamed_parent_iff.mp h).2 c hc
      have hwithin := ih c hc hwell hrc
      rw [hname] at hwithin
      exact isWithin_trans hwithin (isWithin_child info.name part)

/-- The queues in a well named tree are well named. -/
theorem of_mem {q r : Queue F} (h : q.WellNamed) (hr : r ∈ q.all) : r.WellNamed := by
  induction q using Queue.induction with
  | leaf info runnable parked =>
    rw [all_leaf, List.mem_singleton] at hr
    rw [hr]
    exact h
  | parent info children ih =>
    rw [all_parent, List.mem_cons] at hr
    obtain rfl | hr := hr
    · exact h
    · obtain ⟨c, hc, hrc⟩ := List.mem_flatMap.mp hr
      exact ih c hc ((wellNamed_parent_iff.mp h).2 c hc).2 hrc

/-- A queue below one child is not below another. -/
theorem child_unique {info : QueueInfo F} {children : List (Queue F)}
    (h : (parent info children).WellNamed) {a b : Queue F} (ha : a ∈ children) (hb : b ∈ children)
    {x : String} (hxa : Shape.isWithin x a.name = true) (hxb : Shape.isWithin x b.name = true) :
    a.name = b.name := by
  obtain ⟨⟨c, hc, hac⟩, -⟩ := (wellNamed_parent_iff.mp h).2 a ha
  obtain ⟨⟨d, hd, hbd⟩, -⟩ := (wellNamed_parent_iff.mp h).2 b hb
  rw [hac] at hxa
  rw [hbd] at hxb
  rw [hac, hbd, child_eq_of_isWithin hc hd hxa hxb]

/-- No two queues of a well named tree share a name. -/
theorem nodup_names {q : Queue F} (h : q.WellNamed) : (q.all.map name).Nodup := by
  induction q using Queue.induction with
  | leaf info runnable parked => simp
  | parent info children ih =>
    obtain ⟨hnodup, hchildren⟩ := wellNamed_parent_iff.mp h
    rw [all_parent, List.map_cons, List.nodup_cons]
    constructor
    · intro hmem
      obtain ⟨r, hr, hname⟩ := List.mem_map.mp hmem
      obtain ⟨c, hc, hrc⟩ := List.mem_flatMap.mp hr
      obtain ⟨⟨part, -, hpart⟩, hwell⟩ := hchildren c hc
      have hwithin := hwell.isWithin hrc
      rw [hname, hpart] at hwithin
      change Shape.isWithin info.name (child info.name part) = true at hwithin
      rw [not_isWithin_child] at hwithin
      contradiction
    · rw [List.map_flatMap, List.nodup_flatMap]
      refine ⟨fun c hc => ih c hc (hchildren c hc).2, ?_⟩
      have hpairs : children.Pairwise fun a b => a.name ≠ b.name := List.pairwise_map.mp hnodup
      apply List.Pairwise.imp_of_mem _ hpairs
      intro a b ha hb hne x hxa hxb
      obtain ⟨r, hr, rfl⟩ := List.mem_map.mp hxa
      obtain ⟨s, hs, hsr⟩ := List.mem_map.mp hxb
      have hwb := (hchildren b hb).2.isWithin hs
      rw [hsr] at hwb
      exact hne (h.child_unique ha hb ((hchildren a ha).2.isWithin hr) hwb)

/-- A queue above one of the tree and within its top is in the tree too. -/
theorem exists_of_isWithin {q r : Queue F} (h : q.WellNamed) (hr : r ∈ q.all) {n : String}
    (hrn : Shape.isWithin r.name n = true) (hnq : Shape.isWithin n q.name = true) :
    ∃ s ∈ q.all, s.name = n := by
  induction q using Queue.induction with
  | leaf info runnable parked =>
    rw [all_leaf, List.mem_singleton] at hr
    subst hr
    exact ⟨_, mem_all_self _, isWithin_antisymm hrn hnq⟩
  | parent info children ih =>
    rw [all_parent, List.mem_cons] at hr
    rcases hr with rfl | hr
    · exact ⟨_, mem_all_self _, isWithin_antisymm hrn hnq⟩
    · obtain ⟨c, hc, hrc⟩ := List.mem_flatMap.mp hr
      obtain ⟨⟨part, hpart, hname⟩, hwell⟩ := (wellNamed_parent_iff.mp h).2 c hc
      rcases isWithin_total hrn (hwell.isWithin hrc) with hnc | hcn
      · obtain ⟨s, hs, hsn⟩ := ih c hc hwell hrc hnc
        exact ⟨s, mem_all_of_child hc hs, hsn⟩
      · rw [hname, isWithin_child_iff hpart] at hcn
        rcases hcn with rfl | hqn
        · exact ⟨c, mem_all_of_child hc (mem_all_self c), hname⟩
        · exact ⟨_, mem_all_self _, isWithin_antisymm hqn hnq⟩

/-- Queues within the name of a queue of the tree are among those in it. -/
theorem mem_all_of_isWithin {q r s : Queue F} (h : q.WellNamed) (hr : r ∈ q.all) (hs : s ∈ q.all)
    (hrs : Shape.isWithin r.name s.name = true) : r ∈ s.all := by
  induction q using Queue.induction with
  | leaf info runnable parked =>
    rw [all_leaf, List.mem_singleton] at hr hs
    subst hr hs
    exact mem_all_self _
  | parent info children ih =>
    have hr' := hr
    rw [all_parent, List.mem_cons] at hr hs
    rcases hs with rfl | hs
    · exact hr'
    · obtain ⟨c, hc, hsc⟩ := List.mem_flatMap.mp hs
      obtain ⟨hnodup, hchildren⟩ := wellNamed_parent_iff.mp h
      have hrc := isWithin_trans hrs ((hchildren c hc).2.isWithin hsc)
      rcases hr with rfl | hr
      · obtain ⟨part, -, hname⟩ := (hchildren c hc).1
        change Shape.isWithin info.name c.name = true at hrc
        rw [hname, not_isWithin_child] at hrc
        contradiction
      · obtain ⟨d, hd, hrd⟩ := List.mem_flatMap.mp hr
        have hsame := h.child_unique hd hc ((hchildren d hd).2.isWithin hrd) hrc
        obtain rfl := List.inj_on_of_nodup_map hnodup hd hc hsame
        exact ih d hd (hchildren d hd).2 hrd hsc

/-- Looking for a name finds the queue that bears it. -/
theorem find?_eq_some_iff {q r : Queue F} (h : q.WellNamed) {n : String} :
    q.find? n = some r ↔ r ∈ q.all ∧ r.name = n := by
  unfold find?
  constructor
  · intro hfind
    exact ⟨List.mem_of_find?_eq_some hfind, by simpa using List.find?_some hfind⟩
  · rintro ⟨hr, hname⟩
    have hsome : (q.all.find? fun s => s.name = n).isSome = true := by
      rw [List.find?_isSome]
      exact ⟨r, hr, by simpa using hname⟩
    obtain ⟨s, hs⟩ := Option.isSome_iff_exists.mp hsome
    have hsname : s.name = n := by simpa using List.find?_some hs
    have heq : s = r := List.inj_on_of_nodup_map h.nodup_names (List.mem_of_find?_eq_some hs) hr
      (hsname.trans hname.symm)
    rw [hs, heq]

end WellNamed

end Queue

end Allotment
