import Allotment.Proofs.Queue.WellNamed
import Allotment.Queue.Leaf

/-!
# Queues without what is below them

`bares` lists the queues of a tree, each without those below it, in the order of the tree. Changing
the queues of a name changes their entries, removing a queue drops the entries within its name, and
a child put behind the others of its parent adds its own. What a tree says of the queue of a name is
all in the entry of that name.
-/

namespace Allotment.Queue

open QueueName Shape

variable {F : Type}

/-- The queue without those below it. -/
def bare : Queue F → Queue F
  | leaf info runnable parked => leaf info runnable parked
  | parent info _ => parent info []

/-- The queues of a tree, each without those below it. -/
def bares (q : Queue F) : List (Queue F) := q.all.map bare

@[simp] theorem name_bare (q : Queue F) : q.bare.name = q.name := by
  cases q <;> rfl

@[simp] theorem kind_bare (q : Queue F) : q.bare.kind = q.kind := by
  cases q <;> rfl

@[simp] theorem info_bare (q : Queue F) : q.bare.info = q.info := by
  cases q <;> rfl

@[simp] theorem bares_leaf (info : QueueInfo F) (runnable parked : List (Attempt F)) :
    (leaf info runnable parked).bares = [leaf info runnable parked] := by
  simp [bares, bare]

@[simp] theorem bares_parent (info : QueueInfo F) (children : List (Queue F)) :
    (parent info children).bares = parent info [] :: children.flatMap bares := by
  unfold bares
  rw [all_parent, List.map_cons, List.map_flatMap]
  rfl

/-- The names that are listed are those of the queues. -/
theorem map_name_bares (q : Queue F) : q.bares.map name = q.all.map name := by
  unfold bares
  rw [List.map_map]
  exact List.map_congr_left fun r _ => name_bare r

/-- A listed name is within that of the top. -/
theorem WellNamed.isWithin_of_mem_bares {q b : Queue F} (h : q.WellNamed) (hb : b ∈ q.bares) :
    Shape.isWithin b.name q.name = true := by
  obtain ⟨r, hr, rfl⟩ := List.mem_map.mp hb
  rw [name_bare]
  exact h.isWithin hr

/-- Looking for a name finds the queue whose entry bears it. -/
theorem WellNamed.find?_bare_eq_some_iff {q b : Queue F} (h : q.WellNamed) {n : String} :
    (q.find? n).map bare = some b ↔ b ∈ q.bares ∧ b.name = n := by
  rw [Option.map_eq_some_iff]
  constructor
  · rintro ⟨r, hfind, hbare⟩
    obtain ⟨hr, hname⟩ := h.find?_eq_some_iff.mp hfind
    rw [← hbare, name_bare]
    exact ⟨List.mem_map.mpr ⟨r, hr, rfl⟩, hname⟩
  · rintro ⟨hb, hname⟩
    obtain ⟨r, hr, rfl⟩ := List.mem_map.mp hb
    rw [name_bare] at hname
    exact ⟨r, h.find?_eq_some_iff.mpr ⟨hr, hname⟩, rfl⟩

/-! ## Changes of one queue -/

/-- Whether a change concerns a queue alone and what is below it stays. -/
structure Local (f : Queue F → Queue F) : Prop where
  name : ∀ q, (f q).name = q.name
  leaf : ∀ info runnable parked, ∃ info' runnable' parked',
    f (.leaf info runnable parked) = .leaf info' runnable' parked'
  parent : ∀ info, ∃ info', ∀ children, f (.parent info children) = .parent info' children

namespace Local

variable {f g : Queue F → Queue F}

/-- Changing the common part, but not the name, concerns a queue alone. -/
theorem withInfo {f : QueueInfo F → QueueInfo F} (hf : ∀ info, (f info).name = info.name) :
    Local (withInfo f) := by
  refine ⟨?_, fun info runnable parked => ⟨f info, runnable, parked, rfl⟩,
    fun info => ⟨f info, fun _ => rfl⟩⟩
  intro q
  cases q <;> exact hf _

/-- Moving parked applications up concerns a queue alone. -/
theorem promoteParked : Local (promoteParked (F := F)) := by
  refine ⟨?_, fun info runnable parked => ⟨info, _, _, rfl⟩, fun info => ⟨info, fun _ => rfl⟩⟩
  intro q
  cases q <;> rfl

/-- One change after another concerns a queue alone if both do. -/
theorem comp (hf : Local f) (hg : Local g) : Local fun q => g (f q) := by
  refine ⟨fun q => (hg.name _).trans (hf.name q), ?_, ?_⟩
  · intro info runnable parked
    obtain ⟨info', runnable', parked', h⟩ := hf.leaf info runnable parked
    rw [h]
    exact hg.leaf info' runnable' parked'
  · intro info
    obtain ⟨info', h⟩ := hf.parent info
    obtain ⟨info'', h'⟩ := hg.parent info'
    exact ⟨info'', fun children => by rw [h, h']⟩

/-- A changed leaf has its own entry alone. -/
theorem bares_leaf (hf : Local f) (info : QueueInfo F) (runnable parked : List (Attempt F)) :
    (f (.leaf info runnable parked)).bares = [f (.leaf info runnable parked)] := by
  obtain ⟨info', runnable', parked', h⟩ := hf.leaf info runnable parked
  rw [h, Queue.bares_leaf]

/-- A changed parent has the entries below it that it had. -/
theorem bares_parent (hf : Local f) (info : QueueInfo F) (children : List (Queue F)) :
    (f (.parent info children)).bares = f (.parent info []) :: children.flatMap bares := by
  obtain ⟨info', h⟩ := hf.parent info
  rw [h, h, Queue.bares_parent]

/-- A change that concerns a queue alone gives a queue with the same names below it. -/
theorem similar (hf : Local f) (q : Queue F) : Similar QueueInfo.name q (f q) := by
  have hname := hf.name q
  cases q with
  | leaf info runnable parked =>
    obtain ⟨info', runnable', parked', h⟩ := hf.leaf info runnable parked
    rw [h] at hname ⊢
    exact .leaf info info' runnable parked runnable' parked' hname
  | parent info children =>
    obtain ⟨info', h⟩ := hf.parent info
    rw [h] at hname ⊢
    exact .of_forall₂ hname (List.forall₂_same.mpr fun c _ => .refl _ c)

/-- A queue whose entry stays as it is stays as it is. -/
theorem eq_self_of_bare (hf : Local f) {q : Queue F} (h : f q.bare = q.bare) : f q = q := by
  cases q with
  | leaf info runnable parked => exact h
  | parent info children =>
    obtain ⟨info', hparent⟩ := hf.parent info
    rw [bare, hparent] at h
    rw [hparent, (Queue.parent.inj h).1]

end Local

/-- Changing the queues of a name changes the entries of that name. -/
theorem WellNamed.bares_modify {q : Queue F} (h : q.WellNamed) {f : Queue F → Queue F}
    (hf : Local f) (n : String) :
    (q.modify n f).bares = q.bares.map fun b => if b.name = n then f b else b := by
  induction q using Queue.induction with
  | leaf info runnable parked =>
    rw [modify_leaf, bares_leaf, List.map_singleton]
    change _ = [if info.name = n then _ else _]
    split
    · exact hf.bares_leaf info runnable parked
    · exact bares_leaf info runnable parked
  | parent info children ih =>
    obtain ⟨-, hchildren⟩ := wellNamed_parent_iff.mp h
    rw [modify_parent, bares_parent, List.map_cons]
    change _ = (if info.name = n then _ else _) :: _
    split
    · rename_i hname
      -- No queue below bears the name of the top.
      have hbelow : ∀ b ∈ children.flatMap bares, b.name ≠ n := by
        intro b hb heq
        obtain ⟨c, hc, hbc⟩ := List.mem_flatMap.mp hb
        obtain ⟨⟨part, -, hpart⟩, hwell⟩ := hchildren c hc
        have hwithin := hwell.isWithin_of_mem_bares hbc
        rw [heq, ← hname, hpart, not_isWithin_child] at hwithin
        contradiction
      rw [hf.bares_parent]
      congr 1
      conv_lhs => rw [← List.map_id (children.flatMap bares)]
      exact List.map_congr_left fun b hb => (if_neg (hbelow b hb)).symm
    · rw [bares_parent, List.flatMap_map, List.map_flatMap]
      congr 1
      exact List.flatMap_congr fun c hc => ih c hc (hchildren c hc).2

/-! ## Growing and removing -/

/-- A tree keeps its name at the top. -/
@[simp] theorem name_remove (n : String) (q : Queue F) : (q.remove n).name = q.name := by
  cases q <;> simp [name, Queue.info]

/-- A parent stays a parent, and a leaf a leaf. -/
@[simp] theorem kind_remove (n : String) (q : Queue F) : (q.remove n).kind = q.kind := by
  cases q <;> simp [kind]

/-- A queue with a child more bears its name. -/
@[simp] theorem name_addChild (r q : Queue F) : (addChild r q).name = q.name := by
  cases q <;> rfl

/-- A queue with a child more is of its kind. -/
@[simp] theorem kind_addChild (r q : Queue F) : (addChild r q).kind = q.kind := by
  cases q <;> rfl

/-- A change that keeps names keeps that of the top. -/
theorem name_modify {f : Queue F → Queue F} (hf : ∀ q, (f q).name = q.name) (n : String)
    (q : Queue F) : (q.modify n f).name = q.name := by
  cases q with
  | leaf info runnable parked =>
    rw [modify_leaf]
    split
    · exact hf _
    · rfl
  | parent info children =>
    rw [modify_parent]
    split
    · exact hf _
    · rfl

/-- A change that keeps kinds keeps that of the top. -/
theorem kind_modify {f : Queue F → Queue F} (hf : ∀ q, (f q).kind = q.kind) (n : String)
    (q : Queue F) : (q.modify n f).kind = q.kind := by
  cases q with
  | leaf info runnable parked =>
    rw [modify_leaf]
    split
    · exact hf _
    · rfl
  | parent info children =>
    rw [modify_parent]
    split
    · exact hf _
    · rfl

/-- Among children of different names, those that stay bear other names. -/
theorem mem_eraseP_name {children : List (Queue F)} (h : (children.map name).Nodup) {n : String}
    {c : Queue F} : c ∈ children.eraseP (fun q => q.name = n) ↔ c ∈ children ∧ c.name ≠ n := by
  induction children with
  | nil => simp
  | cons q rest ih =>
    rw [List.map_cons, List.nodup_cons] at h
    by_cases hq : q.name = n
    · have hrest : ∀ r ∈ rest, r.name ≠ n := by
        intro r hr hrn
        exact h.1 (List.mem_map.mpr ⟨r, hr, hrn.trans hq.symm⟩)
      rw [List.eraseP_cons_of_pos (by simpa using hq)]
      constructor
      · exact fun hc => ⟨List.mem_cons_of_mem q hc, hrest c hc⟩
      · rintro ⟨hc, hne⟩
        rcases List.mem_cons.mp hc with rfl | hc
        · exact absurd hq hne
        · exact hc
    · rw [List.eraseP_cons_of_neg (by simpa using hq), List.mem_cons, List.mem_cons, ih h.2]
      constructor
      · rintro (rfl | ⟨hc, hne⟩)
        · exact ⟨.inl rfl, hq⟩
        · exact ⟨.inr hc, hne⟩
      · rintro ⟨rfl | hc, hne⟩
        · exact .inl rfl
        · exact .inr ⟨hc, hne⟩

/-- Removing a queue keeps the names in order. -/
theorem WellNamed.remove {q : Queue F} (h : q.WellNamed) (n : String) : (q.remove n).WellNamed := by
  induction q using Queue.induction with
  | leaf info runnable parked =>
    rw [remove_leaf]
    exact h
  | parent info children ih =>
    obtain ⟨hnodup, hchildren⟩ := wellNamed_parent_iff.mp h
    rw [remove_parent, wellNamed_parent_iff]
    constructor
    · rw [List.map_map]
      have hnames : (children.eraseP fun q => q.name = n).map (name ∘ Queue.remove n) =
          (children.eraseP fun q => q.name = n).map name :=
        List.map_congr_left fun q _ => name_remove n q
      rw [hnames]
      exact (List.Sublist.map name List.eraseP_sublist).nodup hnodup
    · intro r hr
      obtain ⟨q, hq, rfl⟩ := List.mem_map.mp hr
      have hmem := ((mem_eraseP_name hnodup).mp hq).1
      rw [name_remove]
      exact ⟨(hchildren q hmem).1, ih q hmem (hchildren q hmem).2⟩

/-- Removing a queue drops the entries within its name. -/
theorem WellNamed.mem_bares_remove {q : Queue F} (h : q.WellNamed) {n : String}
    (hn : Shape.isWithin q.name n = false) {b : Queue F} :
    b ∈ (q.remove n).bares ↔ b ∈ q.bares ∧ Shape.isWithin b.name n = false := by
  induction q using Queue.induction with
  | leaf info runnable parked =>
    rw [remove_leaf, bares_leaf, List.mem_singleton]
    constructor
    · intro heq
      exact ⟨heq, heq ▸ hn⟩
    · exact And.left
  | parent info children ih =>
    obtain ⟨hnodup, hchildren⟩ := wellNamed_parent_iff.mp h
    have hchild : ∀ c ∈ children, c.name ≠ n → Shape.isWithin c.name n = false := by
      intro c hc hne
      obtain ⟨⟨part, hpart, hname⟩, -⟩ := hchildren c hc
      rw [Bool.eq_false_iff, ne_eq, hname, isWithin_child_iff hpart, ← hname]
      intro habove
      obtain heq | hwithin := habove
      · exact hne heq.symm
      · rw [show info.name = (parent info children).name from rfl, hn] at hwithin
        contradiction
    rw [remove_parent, bares_parent, bares_parent, List.mem_cons, List.mem_cons, List.mem_flatMap,
      List.mem_flatMap]
    constructor
    · intro hb
      obtain rfl | ⟨r, hr, hb⟩ := hb
      · exact ⟨.inl rfl, hn⟩
      · obtain ⟨c, hc, rfl⟩ := List.mem_map.mp hr
        obtain ⟨hmem, hne⟩ := (mem_eraseP_name hnodup).mp hc
        obtain ⟨hold, hout⟩ := (ih c hmem (hchildren c hmem).2 (hchild c hmem hne)).mp hb
        exact ⟨.inr ⟨c, hmem, hold⟩, hout⟩
    · intro h
      obtain ⟨rfl | ⟨c, hc, hb⟩, hout⟩ := h
      · exact .inl rfl
      · have hne : c.name ≠ n := by
          intro heq
          subst heq
          rw [(hchildren c hc).2.isWithin_of_mem_bares hb] at hout
          contradiction
        refine .inr ⟨c.remove n, List.mem_map.mpr ⟨c, (mem_eraseP_name hnodup).mpr ⟨hc, hne⟩, rfl⟩, ?_⟩
        exact (ih c hc (hchildren c hc).2 (hchild c hc hne)).mpr ⟨hb, hout⟩

/-- Putting a queue behind the children of a parent adds its entries. -/
theorem mem_bares_addChild (q r : Queue F) (n : String) (b : Queue F) :
    b ∈ (q.modify n (addChild r)).bares ↔
      b ∈ q.bares ∨ ((∃ a ∈ q.bares, a.name = n ∧ a.kind = .parent) ∧ b ∈ r.bares) := by
  induction q using Queue.induction with
  | leaf info runnable parked =>
    rw [modify_leaf]
    split <;> simp [addChild, kind]
  | parent info children ih =>
    rw [modify_parent]
    split
    · rename_i hname
      have htop : ∃ a ∈ (parent info children).bares, a.name = n ∧ a.kind = .parent :=
        ⟨parent info [], by simp, hname, rfl⟩
      simp only [addChild, bares_parent, List.flatMap_append, List.flatMap_singleton,
        List.mem_cons, List.mem_append] at htop ⊢
      tauto
    · rename_i hname
      simp only [bares_parent, List.mem_cons, List.mem_flatMap, List.mem_map]
      constructor
      · intro h
        obtain rfl | ⟨_, ⟨c, hc, rfl⟩, hb⟩ := h
        · exact .inl (.inl rfl)
        · obtain hold | ⟨⟨a, ha, hparent⟩, hnew⟩ := (ih c hc).mp hb
          · exact .inl (.inr ⟨c, hc, hold⟩)
          · exact .inr ⟨⟨a, .inr ⟨c, hc, ha⟩, hparent⟩, hnew⟩
      · intro h
        obtain (rfl | ⟨c, hc, hb⟩) | ⟨⟨a, rfl | ⟨c, hc, ha⟩, hparent⟩, hnew⟩ := h
        · exact .inl rfl
        · exact .inr ⟨_, ⟨c, hc, rfl⟩, (ih c hc).mpr (.inl hb)⟩
        · exact absurd hparent.1 hname
        · exact .inr ⟨_, ⟨c, hc, rfl⟩, (ih c hc).mpr (.inr ⟨⟨a, ha, hparent⟩, hnew⟩)⟩

end Allotment.Queue
