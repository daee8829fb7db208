import Allotment.Text.Blank

/-!
# Parts of a text

A text is split into the parts between the occurrences of a separator. No part has the separator in it,
and putting separators between the parts gives the text back.
-/

namespace Allotment.Text

/-- The parts between separators have no separator in them. -/
theorem not_mem_splitChars {separator : Char} {cs part : List Char}
    (h : part ∈ splitChars separator cs) : separator ∉ part := by
  induction cs generalizing part with
  | nil =>
    obtain rfl : part = [] := by simpa [splitChars] using h
    simp
  | cons c rest ih =>
    rw [splitChars] at h
    split at h
    · rcases List.mem_cons.mp h with rfl | h
      · simp
      · exact ih h
    · rename_i hother
      split at h
      · obtain rfl := List.mem_singleton.mp h
        simpa using Ne.symm hother
      · rename_i first parts hparts
        rw [hparts] at ih
        rcases List.mem_cons.mp h with rfl | h
        · have hfirst := ih List.mem_cons_self
          simpa using ⟨Ne.symm hother, hfirst⟩
        · exact ih (List.mem_cons_of_mem first h)

theorem not_mem_split {separator : Char} {s part : String} (h : part ∈ split separator s) :
    separator ∉ part.toList := by
  obtain ⟨cs, hcs, rfl⟩ := List.mem_map.mp h
  rw [String.toList_ofList]
  exact not_mem_splitChars hcs

/-- A text with a separator has more than one part. -/
theorem tail_splitChars_ne_nil {separator : Char} {cs : List Char} (h : separator ∈ cs) :
    (splitChars separator cs).tail ≠ [] := by
  induction cs with
  | nil => simp at h
  | cons c rest ih =>
    rw [splitChars]
    split
    · exact splitChars_ne_nil separator rest
    · rename_i hother
      have hrest : separator ∈ rest := by simpa [Ne.symm hother] using h
      have htail := ih hrest
      split
      · rename_i hnone
        rw [hnone] at htail
        contradiction
      · rename_i first parts hparts
        rw [hparts] at htail
        exact htail

/-- Putting the separator back before all parts but the first gives the text that was split. -/
theorem eq_append_of_splitChars {separator : Char} {cs first : List Char} {parts : List (List Char)}
    (h : splitChars separator cs = first :: parts) : cs = first ++ parts.flatMap (separator :: ·) := by
  induction cs generalizing first parts with
  | nil =>
    obtain ⟨rfl, rfl⟩ := List.cons.inj h
    rfl
  | cons c rest ih =>
    rw [splitChars] at h
    obtain ⟨second, others, hrest⟩ := List.exists_cons_of_ne_nil (splitChars_ne_nil separator rest)
    have hback := ih hrest
    rw [hrest] at h
    split at h
    · rename_i hseparator
      obtain ⟨rfl, rfl⟩ := List.cons.inj h
      rw [hseparator, List.nil_append, List.flatMap_cons, List.cons_append, ← hback]
    · obtain ⟨rfl, rfl⟩ := List.cons.inj h
      rw [List.cons_append, ← hback]

/-- What comes before the first separator is the first part. -/
theorem splitChars_append {separator : Char} {part : List Char} (h : separator ∉ part)
    (rest : List Char) :
    splitChars separator (part ++ separator :: rest) = part :: splitChars separator rest := by
  induction part with
  | nil => rw [List.nil_append, splitChars, if_pos rfl]
  | cons c part ih =>
    rw [List.mem_cons, not_or] at h
    obtain ⟨hother, hpart⟩ := h
    rw [List.cons_append, splitChars, if_neg (Ne.symm hother), ih hpart]

/-- A text without the separator is one part. -/
theorem splitChars_of_not_mem {separator : Char} {part : List Char} (h : separator ∉ part) :
    splitChars separator part = [part] := by
  induction part with
  | nil => rfl
  | cons c rest ih =>
    rw [List.mem_cons, not_or] at h
    rw [splitChars, if_neg (Ne.symm h.1), ih h.2]

/-- Splitting gives back the parts that were put together with separators before all but the first. -/
theorem splitChars_append_flatMap {separator : Char} {first : List Char} {parts : List (List Char)}
    (hfirst : separator ∉ first) (hparts : ∀ part ∈ parts, separator ∉ part) :
    splitChars separator (first ++ parts.flatMap (separator :: ·)) = first :: parts := by
  induction parts generalizing first with
  | nil => rw [List.flatMap_nil, List.append_nil, splitChars_of_not_mem hfirst]
  | cons second others ih =>
    rw [List.flatMap_cons, List.cons_append, splitChars_append hfirst,
      ih (hparts second List.mem_cons_self) fun part hpart => hparts part (List.mem_cons_of_mem second hpart)]

/-- Putting a separator between texts puts it before all but the first. -/
theorem intercalate_cons (separator : Char) (first : List Char) (parts : List (List Char)) :
    [separator].intercalate (first :: parts) = first ++ parts.flatMap (separator :: ·) := by
  induction parts generalizing first with
  | nil => simp
  | cons second others ih => rw [List.intercalate_cons_cons, ih, List.append_assoc]; rfl

/-- Putting separators between the parts gives the text that was split. -/
theorem intercalate_split (separator : Char) (s : String) :
    (String.singleton separator).intercalate (split separator s) = s := by
  obtain ⟨first, parts, hparts⟩ := List.exists_cons_of_ne_nil (splitChars_ne_nil separator s.toList)
  have hback := eq_append_of_splitChars hparts
  apply String.ext
  rw [String.toList_intercalate, split, hparts, List.map_map, hback]
  simpa [Function.comp_def] using intercalate_cons separator first parts

/-- Blanks around a text without blanks are trimmed. -/
theorem trim_append {before s after : String} (hbefore : ∀ c ∈ before.toList, isBlank c = true)
    (hafter : ∀ c ∈ after.toList, isBlank c = true) (h : hasBlank s = false) :
    trim (before ++ s ++ after) = s := by
  have hdrop : ∀ {cs : List Char}, cs.any isBlank = false → cs.dropWhile isBlank = cs := by
    intro cs hcs
    cases cs with
    | nil => rfl
    | cons c rest =>
      rw [List.any_cons, Bool.or_eq_false_iff] at hcs
      rw [List.dropWhile_cons_of_neg (by simp [hcs.1])]
  have hchars : s.toList.any isBlank = false := h
  have hback : s.toList.reverse.dropWhile isBlank = s.toList.reverse :=
    hdrop (by rw [List.any_reverse, hchars])
  -- the blanks before it go first; those after it are the first ones of what is left, reversed
  rw [trim, trimChars, String.toList_append, String.toList_append, List.append_assoc,
    List.dropWhile_append_of_pos hbefore]
  have hfront : (s.toList ++ after.toList).dropWhile isBlank = s.toList ++ after.toList ∨ s = "" := by
    cases hs : s.toList with
    | nil => exact .inr (String.toList_eq_nil_iff.mp hs)
    | cons c rest =>
      rw [hs, List.any_cons, Bool.or_eq_false_iff] at hchars
      rw [List.cons_append, List.dropWhile_cons_of_neg (by simp [hchars.1])]
      exact .inl rfl
  obtain hfront | rfl := hfront
  · rw [hfront, List.reverse_append, List.dropWhile_append_of_pos (by simpa using hafter), hback,
      List.reverse_reverse, String.ofList_toList]
  · have hnone : after.toList.dropWhile isBlank = [] := by
      rw [← List.append_nil after.toList, List.dropWhile_append_of_pos hafter]
      rfl
    rw [String.toList_empty, List.nil_append, hnone]
    rfl

/-- There is nothing to trim from a text without blanks. -/
theorem trim_eq_self {s : String} (h : hasBlank s = false) : trim s = s := by
  have htrim : trim ("" ++ s ++ "") = s := trim_append (by simp) (by simp) h
  simpa using htrim

end Allotment.Text
