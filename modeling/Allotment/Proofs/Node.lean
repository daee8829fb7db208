import Allotment.Node
import Mathlib.Data.Nat.Basic
import Mathlib.Data.UInt

/-!
# What is allocated of a node

Dimension by dimension and in natural numbers: what is allocated grows by exactly what was asked for
and never beyond the node, as long as it was not beyond it before, and giving back takes off what is
given back.
-/

namespace Allotment

namespace Resource

/-- One resource is at most another when it is in every dimension. -/
theorem le_iff_toNat {a b : Resource} : a ≤ b ↔ ∀ d, (a.get d).toNat ≤ (b.get d).toNat := by
  rw [le_def, UInt64.le_iff_toNat_le, UInt64.le_iff_toNat_le]
  constructor
  · intro h d
    cases d
    · exact h.1
    · exact h.2
  · exact fun h => ⟨h .memory, h .vcores⟩

/-- A sum in one dimension, which stops at the largest amount. -/
theorem toNat_get_add (a b : Resource) (d : Dimension) :
    ((a + b).get d).toNat = min ((a.get d).toNat + (b.get d).toNat) Amount.limit.toNat := by
  rw [add_def]
  cases d <;> exact Amount.plus_toNat _ _

/-- A difference in one dimension, which stops at zero. -/
theorem toNat_get_sub (a b : Resource) (d : Dimension) :
    ((a - b).get d).toNat = (a.get d).toNat - (b.get d).toNat := by
  rw [sub_def]
  cases d <;> exact Amount.minus_toNat _ _

/-- The smaller of two amounts, dimension by dimension. -/
theorem toNat_get_min (a b : Resource) (d : Dimension) :
    ((min a b).get d).toNat = min (a.get d).toNat (b.get d).toNat := by
  have hmin : ∀ x y : Amount, (min x y).toNat = min x.toNat y.toNat := by
    intro x y
    rw [UInt64.min_def]
    split
    · rename_i hle
      rw [Nat.min_eq_left (UInt64.le_iff_toNat_le.mp hle)]
    · rename_i hgt
      rw [UInt64.le_iff_toNat_le, Nat.not_le] at hgt
      rw [Nat.min_eq_right (Nat.le_of_lt hgt)]
  cases d <;> exact hmin _ _

@[simp] theorem toNat_get_zero (d : Dimension) : ((0 : Resource).get d).toNat = 0 := by
  cases d <;> rfl

/-- Nothing is at most any amount. -/
theorem toNat_get_zero_le (r : Resource) (d : Dimension) :
    ((0 : Resource).get d).toNat ≤ (r.get d).toNat := by
  rw [toNat_get_zero]
  exact Nat.zero_le _

/-- A sum in one dimension, which stops at the largest amount. -/
theorem toNat_get_sum (rs : List Resource) (d : Dimension) :
    ((sum rs).get d).toNat = min (rs.map fun r => (r.get d).toNat).sum Amount.limit.toNat := by
  induction rs using List.reverseRecOn with
  | nil =>
    rw [List.map_nil, List.sum_nil, Nat.zero_min]
    exact toNat_get_zero d
  | append_singleton rs r ih =>
    have hstep : sum (rs ++ [r]) = sum rs + r := by
      rw [sum, List.foldl_append]
      rfl
    rw [hstep, toNat_get_add, ih, List.map_append, List.sum_append_nat, List.map_singleton,
      List.sum_singleton]
    omega

/-- Resources with the same amounts are equal. -/
theorem ext_toNat {a b : Resource} (h : ∀ d, (a.get d).toNat = (b.get d).toNat) : a = b := by
  obtain ⟨am, av⟩ := a
  obtain ⟨bm, bv⟩ := b
  obtain rfl : am = bm := UInt64.toNat_inj.mp (h .memory)
  obtain rfl : av = bv := UInt64.toNat_inj.mp (h .vcores)
  rfl

end Resource

namespace Node

variable {n n' : Node} {r : Resource}

/-- What is allocated of a node grows by exactly what was asked for, and stays within the node. -/
theorem of_allocate? (h : n.allocate? r = some n') : n'.id = n.id ∧ n'.total = n.total ∧
    (n.allocated ≤ n.total → n'.allocated ≤ n'.total ∧
      ∀ d, (n'.allocated.get d).toNat = (n.allocated.get d).toNat + (r.get d).toNat) := by
  unfold allocate? at h
  split at h
  · rename_i hroom
    obtain rfl := Option.some.inj h
    refine ⟨rfl, rfl, ?_⟩
    intro hfits
    have hsum : ∀ d, ((n.allocated + r).get d).toNat =
        (n.allocated.get d).toNat + (r.get d).toNat ∧
          (n.allocated.get d).toNat + (r.get d).toNat ≤ (n.total.get d).toNat := by
      intro d
      have hallocated := Resource.le_iff_toNat.mp hfits d
      have hleft := Resource.le_iff_toNat.mp hroom d
      have hlimit := (n.total.get d).toNat_lt
      rw [available, Resource.toNat_get_sub] at hleft
      rw [Resource.toNat_get_add, Amount.limit_toNat]
      omega
    refine ⟨?_, fun d => (hsum d).1⟩
    rw [Resource.le_iff_toNat]
    intro d
    rw [(hsum d).1]
    exact (hsum d).2
  · contradiction

/-- What is left of a node falls by exactly what is allocated, if it was left. -/
theorem toNat_available_allocated (h : r ≤ n.available) (d : Dimension) :
    (({ n with allocated := n.allocated + r } : Node).available.get d).toNat + (r.get d).toNat =
      (n.available.get d).toNat := by
  have hleft := Resource.le_iff_toNat.mp h d
  have hlimit := (n.total.get d).toNat_lt
  rw [available, Resource.toNat_get_sub] at hleft
  change ((n.total - (n.allocated + r)).get d).toNat + _ = ((n.total - n.allocated).get d).toNat
  rw [Resource.toNat_get_sub, Resource.toNat_get_sub, Resource.toNat_get_add, Amount.limit_toNat]
  omega

end Node

end Allotment
