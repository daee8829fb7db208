import Allotment.Queue.Reload
import Mathlib.Data.List.Basic
import Mathlib.Data.List.Infix

/-!
# Names and the tree order

With a dot put behind every component, a queue lies within another exactly when the characters of the
other's name come first in its own. Two children of one queue share no queue below them, because no
component has a dot in it.
-/

namespace Allotment

namespace QueueName

/-- The characters of a name, with a dot behind the last component too. -/
def dotted (name : String) : List Char := name.toList ++ ['.']

/-- A child's name is its parent's and one component more. -/
theorem dotted_child (parent component : String) :
    dotted (child parent component) = dotted parent ++ dotted component := by
  simp [dotted, child, String.toList_append]

/-- The dot at the end tells no names apart. -/
theorem dotted_injective {a b : String} (h : dotted a = dotted b) : a = b := by
  have hlist : a.toList = b.toList := List.append_cancel_right h
  exact String.ext hlist

/-- The dot at the end comes first in no name without dots unless that is all of it. -/
theorem eq_of_dotted_start {a b : List Char} (ha : '.' ∉ a) (hb : '.' ∉ b) {rest : List Char}
    (hpa : a ++ ['.'] <+: rest) (hpb : b ++ ['.'] <+: rest) : a = b := by
  induction a generalizing b rest with
  | nil =>
    cases b with
    | nil => rfl
    | cons y b =>
      obtain ⟨ra, rfl⟩ := hpa
      obtain ⟨rb, hrb⟩ := hpb
      obtain rfl : y = '.' := by simpa using (List.cons.inj hrb).1
      simp at hb
  | cons x a ih =>
    cases b with
    | nil =>
      obtain ⟨rb, rfl⟩ := hpb
      obtain ⟨ra, hra⟩ := hpa
      obtain rfl : x = '.' := by simpa using (List.cons.inj hra).1
      simp at ha
    | cons y b =>
      obtain ⟨ra, rfl⟩ := hpa
      obtain ⟨rb, hrb⟩ := hpb
      obtain ⟨rfl, htail⟩ := List.cons.inj hrb
      have hrest : a = b := ih (fun h => ha (List.mem_cons_of_mem _ h))
        (fun h => hb (List.mem_cons_of_mem _ h)) ⟨ra, rfl⟩ ⟨rb, htail⟩
      rw [hrest]

/-- Whether a text can be one component of a name. -/
structure IsPart (component : String) : Prop where
  written : isComponent component = true
  undotted : '.' ∉ component.toList

/-- A configured component without a fault is a part of a name. -/
theorem isPart_iff_fault? (component : String) : IsPart component ↔ fault? component = none := by
  constructor
  · rintro ⟨hwritten, hundotted⟩
    simp only [isComponent, Bool.and_eq_true, decide_eq_true_eq, Bool.not_eq_true'] at hwritten
    simp [fault?, hwritten.1, hwritten.2, hundotted]
  · intro h
    unfold fault? at h
    split at h
    · contradiction
    · rename_i hnonempty
      split at h
      · contradiction
      · rename_i hundotted
        split at h
        · contradiction
        · rename_i hblank
          refine ⟨?_, by simpa using hundotted⟩
          simp only [isComponent, Bool.and_eq_true, decide_eq_true_eq, Bool.not_eq_true']
          exact ⟨hnonempty, by simpa using hblank⟩

end QueueName

namespace Shape

open QueueName

/-- One queue is within another exactly when the other's name with its dot comes first. -/
theorem isWithin_iff {name ancestor : String} :
    isWithin name ancestor = true ↔ dotted ancestor <+: dotted name := by
  have hdot : (ancestor ++ ".").toList = dotted ancestor := by
    simp [dotted, String.toList_append]
  simp only [isWithin, Bool.or_eq_true, decide_eq_true_eq, hdot, List.isPrefixOf_iff_prefix]
  constructor
  · rintro (rfl | hstart)
    · exact List.prefix_rfl
    · exact hstart.trans (List.prefix_append _ _)
  · intro hstart
    rcases Nat.lt_or_ge (dotted ancestor).length (dotted name).length with hlt | hge
    · right
      apply List.prefix_of_prefix_length_le hstart (List.prefix_append name.toList ['.'])
      simp only [dotted, List.length_append, List.length_singleton] at hlt ⊢
      omega
    · left
      exact (dotted_injective (hstart.eq_of_length_le hge)).symm

/-- A queue is within itself. -/
@[simp] theorem isWithin_self (name : String) : isWithin name name = true := by
  simp [isWithin]

/-- What is within a queue that is within another is within the other. -/
theorem isWithin_trans {a b c : String} (hab : isWithin a b = true) (hbc : isWithin b c = true) :
    isWithin a c = true := by
  rw [isWithin_iff] at hab hbc ⊢
  exact hbc.trans hab

/-- A child is within its parent. -/
theorem isWithin_child (parent component : String) : isWithin (child parent component) parent = true := by
  rw [isWithin_iff, dotted_child]
  exact List.prefix_append _ _

/-- A parent is not within its child. -/
theorem not_isWithin_child (parent component : String) :
    isWithin parent (child parent component) = false := by
  rw [Bool.eq_false_iff, ne_eq, isWithin_iff, dotted_child]
  intro hstart
  have hlength := hstart.length_le
  simp only [dotted, List.length_append, List.length_singleton] at hlength
  omega

/-- A child is within a queue only if it is that queue or its parent is within it. -/
theorem isWithin_child_iff {parent component ancestor : String} (hpart : IsPart component) :
    isWithin (child parent component) ancestor = true ↔
      ancestor = child parent component ∨ isWithin parent ancestor = true := by
  constructor
  · intro h
    rw [isWithin_iff, dotted_child] at h
    rcases Nat.lt_or_ge (dotted parent).length (dotted ancestor).length with hlt | hge
    · left
      have hparent : dotted parent <+: dotted ancestor :=
        List.prefix_of_prefix_length_le (List.prefix_append _ _) h hlt.le
      obtain ⟨extra, hextra⟩ := hparent
      rw [← hextra, List.prefix_append_right_inj] at h
      -- The extra part ends with a dot, and the component has only the dot at its end.
      have hend : (dotted parent ++ extra).getLast? = some '.' := by
        rw [hextra]
        simp [dotted]
      have hdot : '.' ∈ extra := by
        cases extra with
        | nil => simp [← hextra] at hlt
        | cons x xs =>
          rw [List.getLast?_append_of_ne_nil _ (List.cons_ne_nil x xs)] at hend
          exact List.mem_of_getLast? hend
      have hfull : (dotted component).length ≤ extra.length := by
        by_contra hshort
        have hpre : extra <+: component.toList := by
          apply List.prefix_of_prefix_length_le h (List.prefix_append _ _)
          simp only [dotted, List.length_append, List.length_singleton] at hshort
          omega
        exact hpart.undotted (hpre.subset hdot)
      apply dotted_injective
      rw [dotted_child, ← hextra, h.eq_of_length_le hfull]
    · right
      rw [isWithin_iff]
      exact List.prefix_of_prefix_length_le h (List.prefix_append _ _) hge
  · rintro (rfl | h)
    · exact isWithin_self _
    · exact isWithin_trans (isWithin_child parent component) h

/-- Two children of one queue have nothing in common below them. -/
theorem child_eq_of_isWithin {name parent a b : String} (ha : IsPart a) (hb : IsPart b)
    (hwa : isWithin name (child parent a) = true) (hwb : isWithin name (child parent b) = true) :
    a = b := by
  rw [isWithin_iff, dotted_child] at hwa hwb
  obtain ⟨rest, hrest⟩ := (List.prefix_append _ _).trans hwa
  rw [← hrest, List.prefix_append_right_inj] at hwa hwb
  exact String.ext (eq_of_dotted_start ha.undotted hb.undotted hwa hwb)

end Shape

end Allotment
