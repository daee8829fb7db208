import Allotment.Table
import Mathlib.Data.List.Basic
import Mathlib.Data.List.Forall2
import Mathlib.Data.List.Nodup

/-!
# Looking up in tables

A table has one entry for each of its keys, so looking up a key finds the entry that is there. What
is found after an insertion, after dropping entries, and in the table of a list follows from that.
Entries are often made one by one from the members of a list, which succeeds if each of them can be made.
-/

namespace Allotment

/-- Trying every member of a list gives another list exactly if each member gives its counterpart. -/
theorem mapM_eq_some_iff {α β : Type} {f : α → Option β} {l : List α} {l' : List β} :
    l.mapM f = some l' ↔ List.Forall₂ (fun a b => f a = some b) l l' := by
  induction l generalizing l' with
  | nil => simp [eq_comm]
  | cons a rest ih =>
    rw [List.mapM_cons, List.forall₂_cons_left_iff]
    constructor
    · intro h
      obtain ⟨b, hb, h⟩ := Option.bind_eq_some_iff.mp h
      obtain ⟨rest', hrest, h⟩ := Option.bind_eq_some_iff.mp h
      exact ⟨b, rest', hb, ih.mp hrest, (Option.some.inj h).symm⟩
    · rintro ⟨b, rest', hb, hrest, rfl⟩
      rw [hb, ih.mpr hrest]
      rfl

end Allotment

namespace Allotment.Table

variable {κ α β : Type} [LT κ] [DecidableEq κ]

section Entries

variable [LE κ] [Std.LawfulOrderLT κ]

omit [DecidableEq κ] in
/-- No two entries share a key. -/
theorem nodup_keys (t : Table κ α) : (t.entries.map (·.1)).Nodup := by
  rw [List.Nodup, List.pairwise_map]
  exact t.ascending.imp fun h => Std.ne_of_lt h

/-- Looking up a key finds the entry that is there. -/
theorem get?_eq_some_iff {t : Table κ α} {k : κ} {v : α} :
    t.get? k = some v ↔ (k, v) ∈ t.entries := by
  unfold get?
  rw [Option.map_eq_some_iff]
  constructor
  · rintro ⟨e, hfind, rfl⟩
    have hkey : e.1 = k := by simpa using List.find?_some hfind
    have hmem := List.mem_of_find?_eq_some hfind
    rw [← hkey]
    exact hmem
  · intro hmem
    have hsome : (t.entries.find? fun e => e.1 = k).isSome = true := by
      rw [List.find?_isSome]
      exact ⟨(k, v), hmem, by simp⟩
    obtain ⟨e, he⟩ := Option.isSome_iff_exists.mp hsome
    have hkey : e.1 = k := by simpa using List.find?_some he
    have heq : e = (k, v) := List.inj_on_of_nodup_map t.nodup_keys (List.mem_of_find?_eq_some he)
      hmem hkey
    exact ⟨e, he, by rw [heq]⟩

/-- Two tables that answer every look-up alike are equal. -/
theorem ext_get? {s t : Table κ α} (h : ∀ k, s.get? k = t.get? k) : s = t := by
  have hasymm : ∀ a b : κ × α, a.1 < b.1 → ¬ b.1 < a.1 := fun _ _ => Std.not_gt_of_lt
  have hmem : ∀ e, e ∈ s.entries ↔ e ∈ t.entries := by
    intro e
    have hs : s.get? e.1 = some e.2 ↔ e ∈ s.entries := get?_eq_some_iff
    have ht : t.get? e.1 = some e.2 ↔ e ∈ t.entries := get?_eq_some_iff
    rw [← hs, ← ht, h]
  have hperm : s.entries.Perm t.entries :=
    (List.perm_ext_iff_of_nodup s.nodup_keys.of_map t.nodup_keys.of_map).mpr hmem
  have hentries : s.entries = t.entries :=
    hperm.eq_of_pairwise (fun a b _ _ hab hba => absurd hba (hasymm a b hab)) s.ascending
      t.ascending
  cases s
  cases t
  cases hentries
  rfl

/-- A value is one of a table exactly if some key finds it. -/
theorem mem_values_iff {t : Table κ α} {v : α} : v ∈ t.values ↔ ∃ k, t.get? k = some v := by
  unfold values
  rw [List.mem_map]
  constructor
  · rintro ⟨e, he, hv⟩
    exact ⟨e.1, get?_eq_some_iff.mpr (by rw [← hv]; exact he)⟩
  · rintro ⟨k, hk⟩
    exact ⟨(k, v), get?_eq_some_iff.mp hk, rfl⟩

/-- After a key was erased it finds nothing, and any other key finds what it found before. -/
theorem get?_erase (t : Table κ α) (k k' : κ) :
    (t.erase k).get? k' = if k = k' then none else t.get? k' := by
  apply Option.ext
  intro v
  rw [get?_eq_some_iff]
  change (k', v) ∈ t.entries.filter _ ↔ _
  rw [List.mem_filter, ← get?_eq_some_iff]
  by_cases h : k = k'
  · simp [h]
  · simp [h, Ne.symm h]

/-- A key that finds nothing need not be dropped. -/
theorem erase_of_get?_eq_none {t : Table κ α} {k : κ} (h : t.get? k = none) : t.erase k = t := by
  apply ext_get?
  intro k'
  rw [get?_erase]
  split
  · rename_i hk
    rw [← hk, h]
  · rfl

/-- After entries were changed or dropped, a key finds what became of the value it found. -/
theorem get?_filterMap (f : κ → α → Option β) (t : Table κ α) (k : κ) :
    (t.filterMap f).get? k = (t.get? k).bind (f k) := by
  apply Option.ext
  intro v
  rw [get?_eq_some_iff, Option.bind_eq_some_iff]
  unfold filterMap
  rw [List.mem_filterMap]
  constructor
  · rintro ⟨e, he, hv⟩
    obtain ⟨w, hw, heq⟩ := Option.map_eq_some_iff.mp hv
    obtain ⟨rfl, rfl⟩ := Prod.mk.inj heq
    exact ⟨e.2, get?_eq_some_iff.mpr he, hw⟩
  · rintro ⟨u, hu, hv⟩
    exact ⟨(k, u), get?_eq_some_iff.mp hu, by simp [hv]⟩

end Entries

section Insert

variable [DecidableLT κ]

/-- An inserted entry is found under its key, and any other key finds what it found before. -/
theorem find?_insertEntry (k : κ) (v : α) (l : List (κ × α)) (k' : κ) :
    (insertEntry k v l).find? (fun e => e.1 = k') =
      if k = k' then some (k, v) else l.find? (fun e => e.1 = k') := by
  induction l with
  | nil => by_cases h : k = k' <;> simp [insertEntry, h]
  | cons e rest ih =>
    unfold insertEntry
    split
    · by_cases h : k = k' <;> simp [h]
    · split
      · rename_i hkey
        by_cases h : k = k' <;> simp [← hkey, h]
      · rename_i hkey
        by_cases h : k = k'
        · subst h
          simp [ih, Ne.symm hkey]
        · by_cases he : e.1 = k' <;> simp [he, ih, h]

variable [LE κ] [Std.IsLinearOrder κ] [Std.LawfulOrderLT κ]

/-- A value is found under the key under which it was put. -/
theorem get?_insert (t : Table κ α) (k : κ) (v : α) (k' : κ) :
    (t.insert k v).get? k' = if k = k' then some v else t.get? k' := by
  unfold get? insert
  rw [find?_insertEntry]
  split <;> rfl

/-- The second of two values put under a key replaces the first. -/
theorem insert_insert (t : Table κ α) (k : κ) (v w : α) :
    (t.insert k v).insert k w = t.insert k w := by
  apply ext_get?
  intro k'
  rw [get?_insert, get?_insert, get?_insert]
  split <;> rfl

/-- Putting under a key the value that it has changes nothing. -/
theorem insert_of_get? {t : Table κ α} {k : κ} {v : α} (h : t.get? k = some v) : t.insert k v = t := by
  apply ext_get?
  intro k'
  rw [get?_insert]
  split
  · rename_i hk
    rw [← hk, h]
  · rfl

/-- The entries of a table with a value put under a key are that one and those of other keys. -/
theorem entries_insert_perm (t : Table κ α) (k : κ) (v : α) :
    (t.insert k v).entries.Perm ((k, v) :: (t.erase k).entries) := by
  have hfresh : (k, v) ∉ (t.erase k).entries := by
    rw [← get?_eq_some_iff, get?_erase, if_pos rfl]
    simp
  rw [List.perm_ext_iff_of_nodup (nodup_keys _).of_map
    (List.nodup_cons.mpr ⟨hfresh, (nodup_keys _).of_map⟩)]
  intro e
  rw [List.mem_cons, ← get?_eq_some_iff, ← get?_eq_some_iff, get?_insert, get?_erase]
  by_cases hk : k = e.1
  · simp [hk, Prod.ext_iff, eq_comm]
  · simp [hk, Prod.ext_iff, Ne.symm hk]

/-- The entries of a table are one that a key finds and those of other keys. -/
theorem entries_perm_of_get? {t : Table κ α} {k : κ} {v : α} (h : t.get? k = some v) :
    t.entries.Perm ((k, v) :: (t.erase k).entries) := by
  have hperm := t.entries_insert_perm k v
  rw [insert_of_get? h] at hperm
  exact hperm

/-- The values of a table with one put under a key are that one and those of other keys. -/
theorem values_insert_perm (t : Table κ α) (k : κ) (v : α) :
    (t.insert k v).values.Perm (v :: (t.erase k).values) :=
  (t.entries_insert_perm k v).map Prod.snd

/-- The values of a table are one that a key finds and those of other keys. -/
theorem values_perm_of_get? {t : Table κ α} {k : κ} {v : α} (h : t.get? k = some v) :
    t.values.Perm (v :: (t.erase k).values) :=
  (entries_perm_of_get? h).map Prod.snd

/-- Values may be put under different keys in either order. -/
theorem insert_comm (t : Table κ α) {k k' : κ} (h : k ≠ k') (v w : α) :
    (t.insert k v).insert k' w = (t.insert k' w).insert k v := by
  apply ext_get?
  intro k''
  rw [get?_insert, get?_insert, get?_insert, get?_insert]
  by_cases hk : k = k''
  · rw [if_pos hk, if_pos hk, if_neg fun hk' => h (hk.trans hk'.symm)]
  · rw [if_neg hk, if_neg hk]

/-- Changing the value under a key twice is changing it once. -/
theorem adjust_adjust (t : Table κ α) (k : κ) (default : α) (f g : α → α) :
    (t.adjust k default f).adjust k default g = t.adjust k default fun v => g (f v) := by
  unfold adjust
  rw [get?_insert, if_pos rfl, insert_insert, Option.getD_some]

/-- The values under different keys may be changed in either order. -/
theorem adjust_comm (t : Table κ α) {k k' : κ} (h : k ≠ k') (default default' : α) (f g : α → α) :
    (t.adjust k default f).adjust k' default' g = (t.adjust k' default' g).adjust k default f := by
  unfold adjust
  rw [get?_insert, if_neg h, get?_insert, if_neg (Ne.symm h), insert_comm t h]

/-- After the value of a key was changed, the key finds what became of it, and any other key what it
found before. -/
theorem get?_modify (t : Table κ α) (k : κ) (f : α → α) (k' : κ) :
    (t.modify k f).get? k' = if k = k' then (t.get? k').map f else t.get? k' := by
  unfold modify
  split
  · rename_i v hv
    rw [get?_insert]
    by_cases h : k = k'
    · rw [if_pos h, if_pos h, ← h, hv, Option.map_some]
    · rw [if_neg h, if_neg h]
  · rename_i hnone
    by_cases h : k = k'
    · rw [if_pos h, ← h, hnone, Option.map_none]
    · rw [if_neg h]

/-- The table of a list in which no two pairs share a key has the pairs of the list. -/
theorem get?_ofList_eq_some_iff {l : List (κ × α)} (h : (l.map (·.1)).Nodup) {k : κ} {v : α} :
    (ofList l).get? k = some v ↔ (k, v) ∈ l := by
  have hfold : ∀ (l : List (κ × α)) (t : Table κ α), (l.map (·.1)).Nodup →
      ((l.foldl (fun t e => t.insert e.1 e.2) t).get? k = some v ↔
        (k, v) ∈ l ∨ (k ∉ l.map (·.1) ∧ t.get? k = some v)) := by
    intro l
    induction l with
    | nil => simp
    | cons e rest ih =>
      intro t hnodup
      rw [List.map_cons, List.nodup_cons] at hnodup
      rw [List.foldl_cons, ih _ hnodup.2, get?_insert, List.mem_cons, List.map_cons, List.mem_cons]
      by_cases hk : e.1 = k
      · subst hk
        have hnot : ∀ w, (e.1, w) ∉ rest := fun w hw => hnodup.1 (List.mem_map.mpr ⟨_, hw, rfl⟩)
        simp [hnodup.1, hnot, Prod.ext_iff, eq_comm]
      · have hne : (k, v) ≠ e := fun heq => hk (by rw [← heq])
        simp [hk, hne, Ne.symm hk]
  unfold ofList
  rw [hfold l empty h]
  simp [get?, empty]

/-- The table of an ascending list has that list for its entries. -/
theorem ofList_of_ascending {l : List (κ × α)} (h : l.Pairwise (fun a b => a.1 < b.1)) : ofList l = ⟨l, h⟩ :=
  ext_get? fun _ => Option.ext fun _ => by
    rw [get?_ofList_eq_some_iff (nodup_keys ⟨l, h⟩), get?_eq_some_iff]

end Insert

end Allotment.Table
