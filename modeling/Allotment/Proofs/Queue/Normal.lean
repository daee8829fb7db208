import Allotment.Proofs.Queue.WellNamed
import Allotment.Proofs.Text

/-!
# Full names

A full name writes out the path of components that leads to a queue from the root. It is normal: completing
it gives it back, and so does completing what stands behind the root's name and a dot, unless that looks like
a full name itself. The names in a well named tree below the root are full names.
-/

namespace Allotment

open QueueName

/-! ## The path that a name writes out -/

namespace QueueName

/-- The characters at the end of a path are those of its beginning and of a dot and a component in turn. -/
theorem toList_foldl_child (above : String) (cs : List String) :
    (cs.foldl child above).toList = above.toList ++ cs.flatMap fun c => '.' :: c.toList := by
  induction cs generalizing above with
  | nil => simp
  | cons c rest ih => simp [ih, child, String.toList_append]

/-- A path that starts below a name is what it is from there behind that name and a dot. -/
theorem foldl_child_child (above c : String) (cs : List String) :
    cs.foldl child (child above c) = child above (cs.foldl child c) := by
  apply String.ext
  simp [toList_foldl_child, child, String.toList_append]

/-- A name that starts at the root is the path of its components from there. -/
theorem foldl_tail_components {full : String} (h : isAbsolute full = true) :
    (components full).tail.foldl child root = full := by
  have hfirst : ∃ parts, Text.splitChars '.' full.toList = root.toList :: parts := by
    rw [isAbsolute, Bool.or_eq_true, decide_eq_true_eq] at h
    obtain rfl | hstart := h
    · exact ⟨[], by decide⟩
    · obtain ⟨rest, hrest⟩ := List.isPrefixOf_iff_prefix.mp hstart
      rw [← hrest]
      exact ⟨_, Text.splitChars_append (by decide : '.' ∉ root.toList) rest⟩
  obtain ⟨parts, hparts⟩ := hfirst
  apply String.ext
  rw [toList_foldl_child, components, Text.split, hparts, List.map_cons, List.tail_cons,
    List.flatMap_map, Text.eq_append_of_splitChars hparts]
  simp

variable {cs : List String}

/-- The components of a path from the root are the root and the components below it. -/
theorem components_foldl_child (h : ∀ c ∈ cs, IsPart c) :
    components (cs.foldl child root) = root :: cs := by
  have hundotted : ∀ part ∈ cs.map String.toList, '.' ∉ part := by
    intro part hpart
    obtain ⟨c, hc, rfl⟩ := List.mem_map.mp hpart
    exact (h c hc).undotted
  have hparts := Text.splitChars_append_flatMap (by decide : '.' ∉ root.toList) hundotted
  rw [List.flatMap_map] at hparts
  rw [components, Text.split, toList_foldl_child, hparts, List.map_cons, List.map_map,
    String.ofList_toList]
  simp [Function.comp_def]

/-- A path from the root has no blanks. -/
theorem hasBlank_foldl_child (h : ∀ c ∈ cs, IsPart c) : Text.hasBlank (cs.foldl child root) = false := by
  have hroot : root.toList.any Text.isBlank = false := by decide
  have hdot : Text.isBlank '.' = false := by decide
  have hcs : ∀ c ∈ cs, c.toList.any Text.isBlank = false := by
    intro c hc
    have hwritten := (h c hc).written
    rw [isComponent, Bool.and_eq_true, Bool.not_eq_true'] at hwritten
    exact hwritten.2
  rw [Text.hasBlank, toList_foldl_child, List.any_append, hroot, Bool.false_or, List.any_flatMap,
    List.any_eq_false]
  intro c hc
  rw [List.any_cons, hdot, hcs c hc]
  decide

/-- Below the root a path starts with the root's name and a dot. -/
theorem isAbsolute_foldl_child (cs : List String) : isAbsolute (cs.foldl child root) = true := by
  cases cs with
  | nil => rfl
  | cons c rest =>
    rw [isAbsolute, Bool.or_eq_true, List.isPrefixOf_iff_prefix, toList_foldl_child]
    exact .inr ⟨c.toList ++ rest.flatMap fun d => '.' :: d.toList, by simp [root]⟩

theorem all_isComponent_foldl_child (h : ∀ c ∈ cs, IsPart c) :
    (components (cs.foldl child root)).all isComponent = true := by
  rw [components_foldl_child h, List.all_cons, Bool.and_eq_true, List.all_eq_true]
  exact ⟨by decide, fun c hc => (h c hc).written⟩

/-- A path from the root is normal. -/
theorem normalize_foldl_child (h : ∀ c ∈ cs, IsPart c) :
    normalize (cs.foldl child root) = .ok (cs.foldl child root) := by
  dsimp only [normalize]
  rw [Text.trim_eq_self (hasBlank_foldl_child h), if_pos (isAbsolute_foldl_child cs),
    if_pos (all_isComponent_foldl_child h)]

/-- What stands behind the root's name and a dot is completed to the path, unless it looks like a path from
the root. -/
theorem normalize_relative {relative : String} (h : ∀ c ∈ cs, IsPart c)
    (hpath : cs.foldl child root = child root relative) (hrelative : isAbsolute relative = false) :
    normalize relative = .ok (cs.foldl child root) := by
  have hblank : Text.hasBlank relative = false := by
    have hpath := hpath ▸ hasBlank_foldl_child h
    rw [Text.hasBlank, child, String.toList_append, List.any_append, Bool.or_eq_false_iff] at hpath
    exact hpath.2
  dsimp only [normalize]
  rw [Text.trim_eq_self hblank, hrelative, if_neg Bool.false_ne_true, ← hpath,
    if_pos (all_isComponent_foldl_child h)]

end QueueName

namespace Queue

variable {F : Type} {q r : Queue F}

/-- The names in a well named tree are paths from its top. -/
theorem WellNamed.exists_path_name (h : q.WellNamed) (hr : r ∈ q.all) :
    ∃ cs : List String, (∀ c ∈ cs, IsPart c) ∧ r.name = cs.foldl child q.name := by
  induction q using Queue.induction with
  | leaf info runnable parked =>
    rw [all_leaf, List.mem_singleton] at hr
    rw [hr]
    exact ⟨[], by simp, rfl⟩
  | parent info children ih =>
    rw [all_parent, List.mem_cons] at hr
    obtain rfl | hr := hr
    · exact ⟨[], by simp, rfl⟩
    · obtain ⟨c, hc, hrc⟩ := List.mem_flatMap.mp hr
      obtain ⟨⟨part, hpart, hname⟩, hwell⟩ := (wellNamed_parent_iff.mp h).2 c hc
      obtain ⟨cs, hcs, hr⟩ := ih c hc hwell hrc
      refine ⟨part :: cs, List.forall_mem_cons.mpr ⟨hpart, hcs⟩, ?_⟩
      rw [hr, hname]
      rfl

end Queue

end Allotment
