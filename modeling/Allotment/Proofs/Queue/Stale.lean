import Allotment.Proofs.Queue.Edit

/-!
# Queues that are not wanted

At last a reload goes through the queues that it does not want and removes those in which nothing is
held. What is wanted has all that is above it wanted too, so the order does not matter: a name stands
afterwards for what it stood for if it is wanted or an application is held within it, and for nothing
if not.
-/

namespace Allotment.QueueTree

open QueueName Shape

variable {F : Type} {t : QueueTree F}

/-- A queue that is not wanted is in the tree. -/
theorem mem_stale_iff {wanted : List String} {n : String} :
    n ∈ t.stale wanted ↔ n ∈ t.root.all.map Queue.name ∧ n ∉ wanted := by
  unfold stale names sorted
  rw [List.mem_mergeSort, List.mem_filter, List.mem_mergeSort]
  simp

/-- Some queue bears a name exactly if the name stands for it. -/
theorem WellNamed.mem_names_iff (h : t.WellNamed) {n : String} :
    n ∈ t.root.all.map Queue.name ↔ ∃ b, t.bare? n = some b := by
  rw [← Queue.map_name_bares, List.mem_map]
  simp only [h.bare?_eq_some_iff]

/-- A queue that is not wanted is not the root, if the root is wanted. -/
theorem WellNamed.isWithin_of_stale (h : t.WellNamed) {wanted : List String} {n : String}
    (hwanted : QueueName.root ∈ wanted) (hn : n ∈ t.stale wanted) :
    Shape.isWithin QueueName.root n = false := by
  obtain ⟨hmem, hunwanted⟩ := mem_stale_iff.mp hn
  obtain ⟨r, hr, rfl⟩ := List.mem_map.mp hmem
  have hbelow := h.root.isWithin hr
  rw [h.root_name] at hbelow
  rw [Bool.eq_false_iff]
  intro hwithin
  rw [← isWithin_antisymm hbelow hwithin] at hwanted
  exact hunwanted hwanted

/-! ## Removing one queue -/

/-- Removing a queue in which nothing is held comes to an edit, or to none. -/
theorem edits_prune (t : QueueTree F) {n : String} (hn : Shape.isWithin QueueName.root n = false) :
    Edits t (t.prune n) := by
  unfold prune
  split
  · split
    · exact .single (.detach t n hn)
    · exact .refl
  · exact .refl

/-- Removing a queue in which nothing is held keeps the seats. -/
theorem WellNamed.seats_prune (h : t.WellNamed) (n : String) :
    (t.prune n).root.seats = t.root.seats := by
  unfold prune
  split
  · rename_i q hfind
    split
    · rename_i hvacant
      apply h.seats_detach
      rw [← h.isVacant_eq_false_iff hfind, hvacant]
      simp
    · rfl
  · rfl

/-- Names within which nothing is held, and which are within that of a removed queue, stand for
nothing. Other names stand for what they stood for. -/
theorem WellNamed.bare?_prune (h : t.WellNamed) {n : String}
    (hn : Shape.isWithin QueueName.root n = false) (m : String) :
    (Shape.isWithin m n = true → ¬ t.Holds n → (t.prune n).bare? m = none) ∧
      ((Shape.isWithin m n = true → t.Holds n) → (t.prune n).bare? m = t.bare? m) := by
  cases hfind : t.find? n with
  | none =>
    have hsame : t.prune n = t := by
      unfold prune
      rw [hfind]
    rw [hsame]
    refine ⟨?_, fun _ => rfl⟩
    intro hwithin _
    -- What is above a queue of the tree and below the root is in the tree.
    rw [bare?_eq_none_iff, Option.eq_none_iff_forall_ne_some]
    intro k hk
    have htop : Shape.isWithin m QueueName.root = true := by
      obtain ⟨r, hr, -⟩ := Option.map_eq_some_iff.mp hk
      obtain ⟨hmem, hname⟩ := h.root.find?_eq_some_iff.mp hr
      rw [← hname, ← h.root_name]
      exact h.root.isWithin hmem
    obtain habove | hbelow := isWithin_total hwithin htop
    · obtain ⟨k', hk'⟩ := h.exists_of_isWithin hk hwithin habove
      rw [kindOf?, hfind] at hk'
      contradiction
    · rw [hn] at hbelow
      contradiction
  | some q =>
    have hheld := h.isVacant_eq_false_iff hfind
    unfold prune
    simp only [hfind]
    split
    · rename_i hvacant
      have hnone : ¬ t.Holds n := by
        rw [← hheld, hvacant]
        simp
      rw [h.bare?_detach hn]
      refine ⟨fun hwithin _ => if_pos hwithin, ?_⟩
      intro hwithin
      exact if_neg fun hin => hnone (hwithin hin)
    · rename_i hoccupied
      have hholds : t.Holds n := hheld.mp (by simpa using hoccupied)
      exact ⟨fun _ hnone => absurd hholds hnone, fun _ => rfl⟩

/-! ## Removing several -/

section Several

variable {names : List String}

/-- Removing queues other than the root comes to edits. -/
theorem WellNamed.edits_pruneAll (h : t.WellNamed)
    (hroot : ∀ n ∈ names, Shape.isWithin QueueName.root n = false) :
    Edits t (names.foldl prune t) := by
  induction names generalizing t with
  | nil => exact .refl
  | cons n rest ih =>
    have hfirst := t.edits_prune (hroot n List.mem_cons_self)
    exact hfirst.trans (ih (hfirst.wellNamed h) fun m hm => hroot m (List.mem_cons_of_mem n hm))

/-- Removing queues in which nothing is held keeps the seats. -/
theorem WellNamed.seats_pruneAll (h : t.WellNamed)
    (hroot : ∀ n ∈ names, Shape.isWithin QueueName.root n = false) :
    (names.foldl prune t).root.seats = t.root.seats := by
  induction names generalizing t with
  | nil => rfl
  | cons n rest ih =>
    have hfirst := t.edits_prune (hroot n List.mem_cons_self)
    rw [List.foldl_cons, ih (hfirst.wellNamed h) fun m hm => hroot m (List.mem_cons_of_mem n hm)]
    exact h.seats_prune n

/-- Names within that of some removed queue in which nothing is held stand for nothing. Other names
stand for what they stood for. -/
theorem WellNamed.bare?_pruneAll (h : t.WellNamed)
    (hroot : ∀ n ∈ names, Shape.isWithin QueueName.root n = false) (m : String) :
    ((∃ n ∈ names, Shape.isWithin m n = true ∧ ¬ t.Holds n) →
      (names.foldl prune t).bare? m = none) ∧
    ((∀ n ∈ names, Shape.isWithin m n = true → t.Holds n) →
      (names.foldl prune t).bare? m = t.bare? m) := by
  induction names generalizing t with
  | nil => exact ⟨by simp, fun _ => rfl⟩
  | cons n rest ih =>
    have hn := hroot n List.mem_cons_self
    have hwell := (t.edits_prune hn).wellNamed h
    have hholds : ∀ k, (t.prune n).Holds k ↔ t.Holds k := by
      intro k
      rw [Holds, Holds, h.seats_prune n]
    obtain ⟨hgone, hstays⟩ := h.bare?_prune hn m
    obtain ⟨hrestgone, hreststays⟩ := ih hwell fun k hk => hroot k (List.mem_cons_of_mem n hk)
    simp only [hholds] at hrestgone hreststays
    rw [List.foldl_cons]
    constructor
    · rintro ⟨k, hk, hwithin, hnone⟩
      obtain rfl | hk := List.mem_cons.mp hk
      · by_cases hrest : ∃ n ∈ rest, Shape.isWithin m n = true ∧ ¬ t.Holds n
        · exact hrestgone hrest
        · push Not at hrest
          rw [hreststays hrest]
          exact hgone hwithin hnone
      · exact hrestgone ⟨k, hk, hwithin, hnone⟩
    · intro hall
      rw [hreststays fun k hk => hall k (List.mem_cons_of_mem n hk)]
      exact hstays (hall n List.mem_cons_self)

end Several

section Wanted

variable {wanted : List String} (hwanted : QueueName.root ∈ wanted)
include hwanted

/-- Removing the queues that are not wanted comes to edits. -/
theorem WellNamed.edits_stale (h : t.WellNamed) : Edits t ((t.stale wanted).foldl prune t) :=
  h.edits_pruneAll fun _ hn => h.isWithin_of_stale hwanted hn

/-- Removing the queues that are not wanted keeps the seats. -/
theorem WellNamed.seats_stale (h : t.WellNamed) :
    ((t.stale wanted).foldl prune t).root.seats = t.root.seats :=
  h.seats_pruneAll fun _ hn => h.isWithin_of_stale hwanted hn

/-- Names that are wanted, and those within which something is held, stand for what they stood for.
Other names stand for nothing. -/
theorem WellNamed.bare?_stale (h : t.WellNamed)
    (hclosed : ∀ m ∈ wanted, ∀ n, Shape.isWithin m n = true →
      Shape.isWithin n QueueName.root = true → n ∈ wanted) (m : String) :
    (m ∈ wanted ∨ t.Holds m → ((t.stale wanted).foldl prune t).bare? m = t.bare? m) ∧
      (m ∉ wanted → ¬ t.Holds m → ((t.stale wanted).foldl prune t).bare? m = none) := by
  obtain ⟨hgone, hstays⟩ := h.bare?_pruneAll (fun n hn => h.isWithin_of_stale hwanted hn) m
  constructor
  · intro hkeep
    apply hstays
    intro n hn hwithin
    obtain hm | hm := hkeep
    · obtain ⟨hmem, hunwanted⟩ := mem_stale_iff.mp hn
      obtain ⟨r, hr, rfl⟩ := List.mem_map.mp hmem
      have hbelow := h.root.isWithin hr
      rw [h.root_name] at hbelow
      exact absurd (hclosed m hm r.name hwithin hbelow) hunwanted
    · exact hm.of_isWithin hwithin
  · intro hunwanted hnone
    cases hbare : t.bare? m with
    | some b =>
      exact hgone ⟨m, mem_stale_iff.mpr ⟨h.mem_names_iff.mpr ⟨b, hbare⟩, hunwanted⟩,
        isWithin_self m, hnone⟩
    | none =>
      by_cases hsome : ∃ n ∈ t.stale wanted, Shape.isWithin m n = true ∧ ¬ t.Holds n
      · exact hgone hsome
      · push Not at hsome
        rw [hstays hsome, hbare]

end Wanted

end Allotment.QueueTree
