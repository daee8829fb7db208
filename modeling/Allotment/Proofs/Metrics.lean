import Allotment.Metrics
import Allotment.Proofs.Table
import Mathlib.Algebra.BigOperators.Group.List.Basic
import Mathlib.Algebra.GroupWithZero.Nat
import Mathlib.Data.List.Induction

/-!
# Setting gauges and adding to counters

A gauge holds the last value it was set to, so readings that are overwritten leave no trace, and
publishing readings a second time changes nothing. Counters are not concerned, and what is added to one
does not concern the others.

Gauges and counters that are published in any order are thus told apart: whatever is published, a gauge holds
the last value that was published for it, and a counter the sum of what was.
-/

namespace Allotment

namespace Metrics

variable {F : Type}

/-- A value for a gauge. -/
structure Reading (F : Type) where
  scope : String
  name : String
  value : F

/-- The gauge for which a reading is. -/
def Reading.key (r : Reading F) : String × String := (r.scope, r.name)

/-- The metrics with a gauge set to a reading. -/
def set (m : Metrics F) (r : Reading F) : Metrics F := m.gauge r.scope r.name r.value

/-- The metrics with gauges set to readings one after another. -/
def setAll (m : Metrics F) (rs : List (Reading F)) : Metrics F := rs.foldl set m

theorem setAll_append (m : Metrics F) (rs rs' : List (Reading F)) :
    m.setAll (rs ++ rs') = (m.setAll rs).setAll rs' :=
  List.foldl_append

/-- Setting a gauge leaves every counter as it is. -/
theorem counter?_set (m : Metrics F) (r : Reading F) (scope name : String) :
    (m.set r).counter? scope name = m.counter? scope name := by
  unfold counter? set gauge Table.adjust
  rw [Table.get?_insert]
  by_cases hscope : r.scope = scope
  · subst hscope
    rw [if_pos rfl]
    cases m.get? r.scope <;> rfl
  · rw [if_neg hscope]

/-- Setting gauges leaves every counter as it is. -/
theorem counter?_setAll (m : Metrics F) (rs : List (Reading F)) (scope name : String) :
    (m.setAll rs).counter? scope name = m.counter? scope name := by
  induction rs generalizing m with
  | nil => rfl
  | cons r rest ih =>
    change ((m.set r).setAll rest).counter? scope name = _
    rw [ih, counter?_set]

/-- Adding to one counter leaves every other counter as it is. -/
theorem counter?_increment (m : Metrics F) (scope name : String) (delta : UInt64) (scope' name' : String) :
    (m.increment scope name delta).counter? scope' name' =
      if scope = scope' ∧ name = name' then
        some (Amount.plus ((m.counter? scope name).getD 0) delta)
      else m.counter? scope' name' := by
  unfold counter? increment Table.adjust
  rw [Table.get?_insert]
  by_cases hscope : scope = scope'
  · subst hscope
    rw [if_pos rfl, Option.bind_some, Table.get?_insert]
    by_cases hname : name = name'
    · subst hname
      rw [if_pos rfl, if_pos ⟨rfl, rfl⟩]
      cases m.get? scope <;> rfl
    · rw [if_neg hname, if_neg fun h => hname h.2]
      cases m.get? scope <;> rfl
  · rw [if_neg hscope, if_neg fun h => hscope h.1]

/-- The second of two readings of a gauge replaces the first. -/
theorem set_set (m : Metrics F) {r r' : Reading F} (h : r.key = r'.key) :
    (m.set r).set r' = m.set r' := by
  obtain ⟨scope, name, value⟩ := r
  obtain ⟨scope', name', value'⟩ := r'
  obtain ⟨rfl, rfl⟩ := Prod.mk.inj h
  simp only [set, gauge, Table.adjust_adjust, Table.insert_insert]

/-- Readings of different gauges may be set in either order. -/
theorem set_comm (m : Metrics F) {r r' : Reading F} (h : r.key ≠ r'.key) :
    (m.set r).set r' = (m.set r').set r := by
  obtain ⟨scope, name, value⟩ := r
  obtain ⟨scope', name', value'⟩ := r'
  by_cases hscope : scope = scope'
  · subst hscope
    have hname : name ≠ name' := fun hname => h (Prod.ext rfl hname)
    simp only [set, gauge, Table.adjust_adjust]
    simp only [Table.insert_comm _ hname]
  · simp only [set, gauge]
    exact Table.adjust_comm m hscope _ _ _ _

/-- A reading that is overwritten later on leaves no trace. -/
theorem setAll_set (m : Metrics F) {r : Reading F} {rs : List (Reading F)}
    (h : r.key ∈ rs.map Reading.key) : (m.set r).setAll rs = m.setAll rs := by
  induction rs generalizing m with
  | nil => simp at h
  | cons r' rest ih =>
    change ((m.set r).set r').setAll rest = (m.set r').setAll rest
    by_cases hkey : r.key = r'.key
    · rw [set_set m hkey]
    · rw [set_comm m hkey]
      refine ih (m.set r') ?_
      simpa [hkey] using h

/-- Readings that are all overwritten later on leave no trace. -/
theorem setAll_setAll_of_subset (m : Metrics F) {rs rs' : List (Reading F)}
    (h : rs.map Reading.key ⊆ rs'.map Reading.key) : (m.setAll rs).setAll rs' = m.setAll rs' := by
  induction rs generalizing m with
  | nil => rfl
  | cons r rest ih =>
    rw [List.map_cons, List.cons_subset] at h
    change ((m.set r).setAll rest).setAll rs' = m.setAll rs'
    rw [ih (m.set r) h.2, setAll_set m h.1]

/-- Publishing readings a second time changes nothing. -/
theorem setAll_setAll (m : Metrics F) (rs : List (Reading F)) :
    (m.setAll rs).setAll rs = m.setAll rs :=
  m.setAll_setAll_of_subset (List.Subset.refl _)

/-! ## Histories -/

/-- Setting a gauge leaves every other gauge as it is. -/
theorem gauge?_set (m : Metrics F) (r : Reading F) (scope name : String) :
    (m.set r).gauge? scope name = if r.key = (scope, name) then some r.value else m.gauge? scope name := by
  have hkey : r.key = (scope, name) ↔ r.scope = scope ∧ r.name = name := Prod.ext_iff
  unfold gauge? set gauge Table.adjust
  rw [Table.get?_insert]
  by_cases hscope : r.scope = scope
  · subst hscope
    rw [if_pos rfl, Option.bind_some, Table.get?_insert]
    by_cases hname : r.name = name
    · rw [if_pos hname, if_pos (hkey.mpr ⟨rfl, hname⟩)]
    · rw [if_neg hname, if_neg fun h => hname (hkey.mp h).2]
      cases m.get? r.scope <;> rfl
  · rw [if_neg hscope, if_neg fun h => hscope (hkey.mp h).1]

/-- Adding to a counter leaves every gauge as it is. -/
theorem gauge?_increment (m : Metrics F) (scope name : String) (delta : UInt64) (scope' name' : String) :
    (m.increment scope name delta).gauge? scope' name' = m.gauge? scope' name' := by
  unfold gauge? increment Table.adjust
  rw [Table.get?_insert]
  by_cases hscope : scope = scope'
  · subst hscope
    rw [if_pos rfl]
    cases m.get? scope <;> rfl
  · rw [if_neg hscope]

/-- What is published: a value for a gauge, or an amount for a counter. -/
inductive Publication (F : Type) where
  | reading (r : Reading F)
  | amount (scope name : String) (delta : UInt64)

/-- The metrics after a publication. -/
def publish (m : Metrics F) : Publication F → Metrics F
  | .reading r => m.set r
  | .amount scope name delta => m.increment scope name delta

/-- The metrics after some publications, the first one first. -/
def ofPublications (ps : List (Publication F)) : Metrics F := ps.foldl publish Table.empty

/-- The value that is published for a gauge. -/
def Publication.value? (scope name : String) : Publication F → Option F
  | .reading r => if r.key = (scope, name) then some r.value else none
  | .amount _ _ _ => none

/-- The amount that is published for a counter. -/
def Publication.amount? (scope name : String) : Publication F → Option ℕ
  | .reading _ => none
  | .amount scope' name' delta => if scope' = scope ∧ name' = name then some delta.toNat else none

/-- The values that are published for a gauge, one after another. -/
def valuesOf (ps : List (Publication F)) (scope name : String) : List F :=
  ps.filterMap (Publication.value? scope name)

/-- The amounts that are published for a counter. -/
def amountsOf (ps : List (Publication F)) (scope name : String) : List ℕ :=
  ps.filterMap (Publication.amount? scope name)

theorem ofPublications_append_singleton (ps : List (Publication F)) (p : Publication F) :
    ofPublications (ps ++ [p]) = (ofPublications ps).publish p :=
  List.foldl_append

theorem valuesOf_append_singleton (ps : List (Publication F)) (p : Publication F) (scope name : String) :
    valuesOf (ps ++ [p]) scope name = valuesOf ps scope name ++ (p.value? scope name).toList := by
  rw [valuesOf, List.filterMap_append, List.filterMap_cons]
  cases p.value? scope name <;> rfl

theorem amountsOf_append_singleton (ps : List (Publication F)) (p : Publication F) (scope name : String) :
    amountsOf (ps ++ [p]) scope name = amountsOf ps scope name ++ (p.amount? scope name).toList := by
  rw [amountsOf, List.filterMap_append, List.filterMap_cons]
  cases p.amount? scope name <;> rfl

/-- A gauge holds the last value that was published for it. -/
theorem gauge?_ofPublications (ps : List (Publication F)) (scope name : String) :
    (ofPublications ps).gauge? scope name = (valuesOf ps scope name).getLast? := by
  induction ps using List.reverseRecOn with
  | nil => rfl
  | append_singleton ps p ih =>
    rw [ofPublications_append_singleton, valuesOf_append_singleton]
    cases p with
    | reading r =>
      rw [publish, gauge?_set, Publication.value?]
      split_ifs with hkey
      · rw [Option.toList_some, List.getLast?_concat]
      · rw [Option.toList_none, List.append_nil, ih]
    | amount scope' name' delta =>
      rw [publish, gauge?_increment, ih, Publication.value?, Option.toList_none, List.append_nil]

/-- A counter is there exactly if something was published for it. -/
theorem counter?_ofPublications_eq_none_iff (ps : List (Publication F)) (scope name : String) :
    (ofPublications ps).counter? scope name = none ↔ amountsOf ps scope name = [] := by
  induction ps using List.reverseRecOn with
  | nil => exact iff_of_true rfl rfl
  | append_singleton ps p ih =>
    rw [ofPublications_append_singleton, amountsOf_append_singleton]
    cases p with
    | reading r =>
      change ((ofPublications ps).set r).counter? scope name = none ↔ _
      rw [counter?_set, ih, Publication.amount?, Option.toList_none, List.append_nil]
    | amount scope' name' delta =>
      rw [publish, counter?_increment, Publication.amount?]
      split_ifs
      · simp
      · rw [ih, Option.toList_none, List.append_nil]

/-- A counter holds the sum of what was published for it, as far as the machine integers reach; one that is
not there counts as zero. -/
theorem toNat_counter?_ofPublications (ps : List (Publication F)) (scope name : String) :
    (((ofPublications ps).counter? scope name).getD 0).toNat =
      min (amountsOf ps scope name).sum (2 ^ 64 - 1) := by
  have hlimit : Amount.limit.toNat = 2 ^ 64 - 1 := rfl
  induction ps using List.reverseRecOn with
  | nil => rfl
  | append_singleton ps p ih =>
    rw [ofPublications_append_singleton, amountsOf_append_singleton]
    cases p with
    | reading r =>
      change ((((ofPublications ps).set r).counter? scope name).getD 0).toNat = _
      rw [counter?_set, ih, Publication.amount?, Option.toList_none, List.append_nil]
    | amount scope' name' delta =>
      rw [publish, counter?_increment, Publication.amount?]
      split_ifs with hkey
      · obtain ⟨rfl, rfl⟩ := hkey
        rw [Option.getD_some, Amount.plus_toNat, ih, hlimit, Option.toList_some, List.sum_append,
          List.sum_singleton]
        omega
      · rw [ih, Option.toList_none, List.append_nil]

end Metrics

end Allotment
