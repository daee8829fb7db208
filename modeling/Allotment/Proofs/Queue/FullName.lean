import Allotment.Proofs.Queue.Indexed
import Allotment.Proofs.Queue.Normal

/-!
# Full names are the normal forms

A name is full if it is the root's or starts there and has nothing empty and no blank between its dots. What
written names are completed to are exactly the full names, and completing one, with or without blanks around
it, gives it back. The keys of every index are full, so a name that was completed is looked up as it stands.
-/

namespace Allotment

namespace QueueName

/-- Whether a name is full: it is the root's or starts there, and no component is empty or has a blank. -/
structure IsFull (full : String) : Prop where
  absolute : full = root ∨ "root.".toList <+: full.toList
  components : ∀ c ∈ components full, c ≠ "" ∧ ∀ x ∈ c.toList, Text.isBlank x = false

theorem isAbsolute_iff {s : String} : isAbsolute s = true ↔ s = root ∨ "root.".toList <+: s.toList := by
  rw [isAbsolute, Bool.or_eq_true, decide_eq_true_eq, List.isPrefixOf_iff_prefix]

theorem isComponent_iff {c : String} :
    isComponent c = true ↔ c ≠ "" ∧ ∀ x ∈ c.toList, Text.isBlank x = false := by
  simp [isComponent, Text.hasBlank]

variable {full relative : String}

/-- Full names are the paths of components from the root. -/
theorem isFull_iff_exists_path :
    IsFull full ↔ ∃ cs : List String, (∀ c ∈ cs, IsPart c) ∧ full = cs.foldl child root := by
  constructor
  · intro h
    refine ⟨(QueueName.components full).tail, fun c hc => ?_,
      (foldl_tail_components (isAbsolute_iff.mpr h.absolute)).symm⟩
    have hmem := List.mem_of_mem_tail hc
    exact ⟨isComponent_iff.mpr (h.components c hmem), Text.not_mem_split hmem⟩
  · rintro ⟨cs, hcs, rfl⟩
    refine ⟨isAbsolute_iff.mp (isAbsolute_foldl_child cs), fun c hc => isComponent_iff.mp ?_⟩
    exact List.all_eq_true.mp (all_isComponent_foldl_child hcs) c hc

/-- What a written name is completed to is full. -/
theorem isFull_of_normalize {name : String} (h : normalize name = .ok full) : IsFull full :=
  ⟨isAbsolute_iff.mp (isAbsolute_of_normalize h),
    fun c hc => isComponent_iff.mp (isPart_of_normalize h c hc).written⟩

/-- Completing a name pays no attention to blanks around it if the name trims to a full one. -/
theorem normalize_of_trim {name : String} (h : IsFull full) (htrim : Text.trim name = full) :
    normalize name = .ok full := by
  obtain ⟨cs, hcs, rfl⟩ := isFull_iff_exists_path.mp h
  dsimp only [normalize]
  rw [htrim, if_pos (isAbsolute_foldl_child cs), if_pos (all_isComponent_foldl_child hcs)]

theorem IsFull.hasBlank (h : IsFull full) : Text.hasBlank full = false := by
  obtain ⟨cs, hcs, rfl⟩ := isFull_iff_exists_path.mp h
  exact hasBlank_foldl_child hcs

/-- Completing a full name gives it back. -/
theorem IsFull.normalize_eq (h : IsFull full) : normalize full = .ok full :=
  normalize_of_trim h (Text.trim_eq_self h.hasBlank)

/-- A name relative to the root is completed to the full name behind whose root it stands. -/
theorem IsFull.normalize_relative (h : IsFull (child root relative)) (hroot : relative ≠ root)
    (hstart : ¬ "root.".toList <+: relative.toList) :
    normalize relative = .ok (child root relative) := by
  obtain ⟨cs, hcs, hpath⟩ := isFull_iff_exists_path.mp h
  have hrelative : isAbsolute relative = false := by
    rw [Bool.eq_false_iff, ne_eq, isAbsolute_iff, not_or]
    exact ⟨hroot, hstart⟩
  rw [QueueName.normalize_relative hcs hpath.symm hrelative, hpath]

end QueueName

namespace Directory

open QueueName

variable {F : Type} {d : Directory F}

/-- The keys of an index are full names. -/
theorem Coherent.isFull_of_mem_keys (hd : d.Coherent) {n : String} (hn : n ∈ d.index.keys) : IsFull n := by
  have hnames : (d.tree.root.all.map Queue.name).Perm d.index.keys := by
    have hperm := hd.traversal.map Prod.fst
    rw [List.map_map] at hperm
    exact hperm
  obtain ⟨q, hq, rfl⟩ := List.mem_map.mp (hnames.mem_iff.mpr hn)
  obtain ⟨cs, hcs, hname⟩ := hd.sound.wellNamed.root.exists_path_name hq
  rw [hd.sound.wellNamed.root_name] at hname
  exact isFull_iff_exists_path.mpr ⟨cs, hcs, hname⟩

end Directory

/-- Completing names is a projection onto the full names. What written names are completed to are exactly the
full names; completing a full name, with any blanks around it, gives it back; and what stands behind the root
in a full name is completed to it, unless it looks like a full name itself. The keys of every index that
comes about are full, and so they are their own normal forms. -/
theorem QueueName.normalize_projects :
    (∀ full, (∃ name, normalize name = .ok full) ↔ IsFull full) ∧
    (∀ full, IsFull full → normalize full = .ok full ∧ ∀ before after : String,
      (∀ x ∈ before.toList ++ after.toList, Text.isBlank x = true) →
        normalize (before ++ full ++ after) = .ok full) ∧
    (∀ relative, IsFull (child root relative) → relative ≠ root →
      ¬ "root.".toList <+: relative.toList → normalize relative = .ok (child root relative)) ∧
    ∀ (F : Type) [Scalar F] (d : Directory F), d.Reachable →
      ∀ n ∈ d.index.keys, IsFull n ∧ normalize n = .ok n := by
  refine ⟨fun full => ⟨fun ⟨name, h⟩ => isFull_of_normalize h, fun h => ⟨full, h.normalize_eq⟩⟩,
    fun full h => ⟨h.normalize_eq, fun before after hblank => ?_⟩,
    fun relative h hroot hstart => h.normalize_relative hroot hstart, fun F _ d hd n hn => ?_⟩
  · rw [List.forall_mem_append] at hblank
    exact normalize_of_trim h (Text.trim_append hblank.1 hblank.2 h.hasBlank)
  · have hfull := hd.coherent.1.isFull_of_mem_keys hn
    exact ⟨hfull, hfull.normalize_eq⟩

/-- A name with blanks of several kinds around it, a relative name that begins with the letters of the root's,
and the keys of an index with queues that were created on demand. -/
theorem QueueName.normalize_projects_of_lookalike :
    normalize " rootx.a\n" = .ok "root.rootx.a" ∧ IsFull "root.rootx.a" ∧
      normalize "\u2003root.rootx.a\u0085" = .ok "root.rootx.a" ∧
      normalize "rootx.a" = .ok "root.rootx.a" ∧
      Directory.twoLeaves.Reachable ∧
      ∀ n ∈ Directory.twoLeaves.index.keys, IsFull n ∧ normalize n = .ok n := by
  obtain ⟨himage, hfixed, hrelative, hkeys⟩ := normalize_projects
  have hwritten : normalize " rootx.a\n" = .ok "root.rootx.a" := by decide +kernel
  have hfull : IsFull "root.rootx.a" := (himage _).mp ⟨_, hwritten⟩
  have hreachable : Directory.twoLeaves.Reachable :=
    .step Directory.oneLeaf _ (.start (.parent "root" [.leaf "a"]) Directory.oneLeaf rfl)
  have hblank : ∀ x ∈ "\u2003".toList ++ "\u0085".toList, Text.isBlank x = true :=
    List.all_eq_true.mp (by decide +kernel)
  exact ⟨hwritten, hfull, (hfixed _ hfull).2 "\u2003" "\u0085" hblank,
    hrelative "rootx.a" hfull (by decide) (by decide +kernel), hreachable, hkeys Float _ hreachable⟩

end Allotment
