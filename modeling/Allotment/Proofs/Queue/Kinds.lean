import Allotment.Proofs.Queue.Bare

/-!
# Names and kinds

`kinds` lists the names and the kinds of all queues of a tree. In a well named tree it says all that
looking for a name can tell of a queue's kind. Similar trees list the same, and removing a queue drops
the entries within its name.
-/

namespace Allotment.Queue

open QueueName Shape

variable {F : Type}

/-- The names and kinds of the queues of a tree. -/
def kinds (q : Queue F) : List (String × QueueKind) := q.all.map fun r => (r.name, r.kind)

@[simp] theorem kinds_leaf (info : QueueInfo F) (runnable parked : List (Attempt F)) :
    (leaf info runnable parked).kinds = [(info.name, .leaf)] := by
  simp [kinds, name, kind, Queue.info]

@[simp] theorem kinds_parent (info : QueueInfo F) (children : List (Queue F)) :
    (parent info children).kinds = (info.name, .parent) :: children.flatMap kinds := by
  unfold kinds
  rw [all_parent, List.map_cons, List.map_flatMap]
  rfl

/-- The names and kinds are those of the entries. -/
theorem kinds_eq_map_bares (q : Queue F) : q.kinds = q.bares.map fun b => (b.name, b.kind) := by
  unfold kinds bares
  rw [List.map_map]
  exact List.map_congr_left fun r _ => by simp

/-- A tree lists its top. -/
theorem mem_kinds_self (q : Queue F) : (q.name, q.kind) ∈ q.kinds :=
  List.mem_map.mpr ⟨q, q.mem_all_self, rfl⟩

/-- The names that are listed are those of the queues. -/
theorem map_fst_kinds (q : Queue F) : q.kinds.map (·.1) = q.all.map name := by
  unfold kinds
  rw [List.map_map]
  rfl

/-- In a well named tree, a name and a kind are listed when looking for the name finds that kind. -/
theorem WellNamed.mem_kinds_iff {q : Queue F} (h : q.WellNamed) {n : String} {k : QueueKind} :
    (n, k) ∈ q.kinds ↔ (q.find? n).map kind = some k := by
  unfold kinds
  rw [List.mem_map, Option.map_eq_some_iff]
  constructor
  · rintro ⟨r, hr, heq⟩
    obtain ⟨hname, hkind⟩ := Prod.mk.inj heq
    exact ⟨r, h.find?_eq_some_iff.mpr ⟨hr, hname⟩, hkind⟩
  · rintro ⟨r, hfind, hkind⟩
    obtain ⟨hr, hname⟩ := h.find?_eq_some_iff.mp hfind
    exact ⟨r, hr, by rw [hname, hkind]⟩

/-! ## Similar trees -/

section Lists

variable {α β : Type} {R : α → α → Prop} {as bs : List α}

/-- What related elements have in common, related lists have. -/
theorem map_eq_of_forall₂ {f : α → β} (hall : List.Forall₂ R as bs)
    (hf : ∀ a b, R a b → f b = f a) : bs.map f = as.map f := by
  induction hall with
  | nil => rfl
  | cons hfirst hrest ih => rw [List.map_cons, List.map_cons, ih, hf _ _ hfirst]

/-- Related lists list the same if related elements do. -/
theorem flatMap_perm_of_forall₂ {f : α → List β} (hall : List.Forall₂ R as bs)
    (hf : ∀ a ∈ as, ∀ b, R a b → (f b).Perm (f a)) : (bs.flatMap f).Perm (as.flatMap f) := by
  induction hall with
  | nil => exact List.Perm.refl _
  | cons hfirst hrest ih =>
    rw [List.flatMap_cons, List.flatMap_cons]
    exact (hf _ List.mem_cons_self _ hfirst).append
      (ih fun a ha => hf a (List.mem_cons_of_mem _ ha))

/-- Every element of the second of two related lists is related to one of the first. -/
theorem exists_of_forall₂ {b : α} (hall : List.Forall₂ R as bs) (hb : b ∈ bs) :
    ∃ a ∈ as, R a b := by
  induction hall with
  | nil => simp at hb
  | cons hfirst hrest ih =>
    rcases List.mem_cons.mp hb with rfl | hb
    · exact ⟨_, List.mem_cons_self, hfirst⟩
    · obtain ⟨a, ha, hab⟩ := ih hb
      exact ⟨a, List.mem_cons_of_mem _ ha, hab⟩

end Lists

/-- Similar trees list the same names and kinds. -/
theorem Similar.kinds_perm {q q' : Queue F} (h : Similar QueueInfo.name q q') :
    q'.kinds.Perm q.kinds := by
  induction q using Queue.induction generalizing q' with
  | leaf info runnable parked =>
    cases h with
    | leaf _ info' _ _ runnable' parked' hkey => simp [hkey]
  | parent info children ih =>
    cases h with
    | parent _ info' _ renewed children' hkey hall hperm =>
      rw [kinds_parent, kinds_parent, hkey]
      have hbelow := flatMap_perm_of_forall₂ hall fun q hq q' hsim => ih q hq hsim
      exact ((hperm.symm.flatMap_right kinds).trans hbelow).cons _

/-- A tree similar to a well named one is well named. -/
theorem WellNamed.of_similar {q q' : Queue F} (h : q.WellNamed)
    (hsim : Similar QueueInfo.name q q') : q'.WellNamed := by
  induction q using Queue.induction generalizing q' with
  | leaf info runnable parked =>
    cases hsim with
    | leaf _ info' _ _ runnable' parked' hkey => exact wellNamed_leaf info' runnable' parked'
  | parent info children ih =>
    cases hsim with
    | parent _ info' _ renewed children' hkey hall hperm =>
      obtain ⟨hnodup, hchildren⟩ := wellNamed_parent_iff.mp h
      have hnames : renewed.map name = children.map name :=
        map_eq_of_forall₂ hall fun q q' hsimilar => hsimilar.key_eq
      rw [wellNamed_parent_iff]
      constructor
      · rw [(hperm.symm.map name).nodup_iff, hnames]
        exact hnodup
      · intro r hr
        obtain ⟨q, hq, hsimilar⟩ := exists_of_forall₂ hall (hperm.mem_iff.mpr hr)
        obtain ⟨⟨c, hc, hname⟩, hwell⟩ := hchildren q hq
        refine ⟨⟨c, hc, ?_⟩, ih q hq hwell hsimilar⟩
        rw [hkey, ← hname]
        exact hsimilar.key_eq

/-! ## Growing and removing -/

/-- Removing a queue drops the entries within its name. -/
theorem WellNamed.mem_kinds_remove {q : Queue F} (h : q.WellNamed) {n : String}
    (hn : Shape.isWithin q.name n = false) {x : String × QueueKind} :
    x ∈ (q.remove n).kinds ↔ x ∈ q.kinds ∧ Shape.isWithin x.1 n = false := by
  rw [kinds_eq_map_bares, kinds_eq_map_bares, List.mem_map, List.mem_map]
  constructor
  · rintro ⟨b, hb, hx⟩
    obtain ⟨hold, hout⟩ := (h.mem_bares_remove hn).mp hb
    exact ⟨⟨b, hold, hx⟩, hx ▸ hout⟩
  · rintro ⟨⟨b, hb, hx⟩, hout⟩
    exact ⟨b, (h.mem_bares_remove hn).mpr ⟨hb, by rw [← hx] at hout; exact hout⟩, hx⟩

/-- A new child whose name is not there yet keeps the names in order. -/
theorem WellNamed.addChild {q r : Queue F} (h : q.WellNamed) (hr : r.WellNamed) {n c : String}
    (hc : IsPart c) (hname : r.name = child n c) (hfresh : ∀ s ∈ q.all, s.name ≠ r.name) :
    (q.modify n (Queue.addChild r)).WellNamed := by
  induction q using Queue.induction with
  | leaf info runnable parked =>
    rw [modify_leaf]
    split <;> exact wellNamed_leaf info runnable parked
  | parent info children ih =>
    obtain ⟨hnodup, hchildren⟩ := wellNamed_parent_iff.mp h
    have hbelow : ∀ q ∈ children, ∀ s ∈ q.all, s.name ≠ r.name := by
      intro q hq s hs
      exact hfresh s (mem_all_of_child hq hs)
    rw [modify_parent]
    split
    · rename_i hn
      rw [Queue.addChild, wellNamed_parent_iff]
      constructor
      · rw [List.map_append, List.map_singleton, List.nodup_append_comm, List.singleton_append,
          List.nodup_cons]
        refine ⟨?_, hnodup⟩
        intro hmem
        obtain ⟨q, hq, hqr⟩ := List.mem_map.mp hmem
        exact hbelow q hq q (mem_all_self q) hqr
      · intro q hq
        rcases List.mem_append.mp hq with hq | hq
        · exact hchildren q hq
        · obtain rfl := List.mem_singleton.mp hq
          exact ⟨⟨c, hc, hname.trans (by rw [hn])⟩, hr⟩
    · rw [wellNamed_parent_iff]
      have hnames : (children.map (modify n (Queue.addChild r))).map name = children.map name := by
        rw [List.map_map]
        exact List.map_congr_left fun q _ => name_modify (name_addChild r) n q
      rw [hnames]
      refine ⟨hnodup, ?_⟩
      intro s hs
      obtain ⟨q, hq, rfl⟩ := List.mem_map.mp hs
      rw [name_modify (name_addChild r)]
      exact ⟨(hchildren q hq).1, ih q hq (hchildren q hq).2 (hbelow q hq)⟩

end Allotment.Queue
