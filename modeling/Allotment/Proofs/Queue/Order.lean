import Allotment.Proofs.Double.Arithmetic
import Allotment.Proofs.Queue.Choice

/-!
# The order of siblings in doubles

A policy compares two siblings by a ratio of each, or by nothing but whether they are in need. In double
precision no such ratio is ever something other than a number, whatever the weights are, so comparing is
a total order in which only siblings of one serial number tie. What a queue does with a node does not
depend on the order that its children were in.
-/

namespace Allotment

open scoped List
open Double

/-! ## Ratios -/

namespace Policy

section Ratios

variable {F : Type} [Scalar F]

/-- Whether a policy counts something as in need. -/
def isNeedy (p : Policy) (s : Standing F) : Bool :=
  match p with
  | fair => Scalar.lt (Scalar.ofUInt64 s.usage.memory : F) (Scalar.ofUInt64 s.wanted.memory)
  | drf => !decide (s.wanted ≤ s.usage)
  | fifo => false

/-- The ratio by which a policy compares something with its like, those in need or those not in need. -/
def ratio? (p : Policy) (cluster : Resource) (s : Standing F) : Option F :=
  match p with
  | fair =>
    let usage : F := Scalar.ofUInt64 s.usage.memory
    some (if fair.isNeedy s then usage / Scalar.max (Scalar.ofUInt64 s.wanted.memory) Scalar.one
      else usage / weightOrOne s.weight)
  | drf =>
    some (if drf.isNeedy s then s.usage.dominantShare s.wanted
      else weighted (s.usage.dominantShare cluster) s.weight)
  | fifo => none

/-- Of two that are both in need, or both not, the ratios of their group are compared. -/
theorem needFirst_ite (needyA needyB : Bool) (needA shareA needB shareB : F) :
    needFirst needyA needyB
      (Scalar.order (if needyA then needA else shareA) (if needyB then needB else shareB))
      (Scalar.order (if needyA then needA else shareA) (if needyB then needB else shareB)) =
    needFirst needyA needyB (Scalar.order needA needB) (Scalar.order shareA shareB) := by
  cases needyA <;> cases needyB <;> rfl

/-- How siblings are compared before their serial numbers are: by who is in need and then by ratio, or by
priority. -/
def keyOrder (p : Policy) (cluster : Resource) (a b : Standing F) : Ordering :=
  match p.ratio? cluster a, p.ratio? cluster b with
  | some x, some y => needFirst (p.isNeedy a) (p.isNeedy b) (Scalar.order x y) (Scalar.order x y)
  | _, _ => compare b.priority a.priority

/-- Ratios and priorities are compared first, and serial numbers after that. -/
theorem order_eq_keyOrder (p : Policy) (cluster : Resource) (a b : Standing F) :
    p.order cluster a b = (p.keyOrder cluster a b).then (compare a.serial b.serial) := by
  cases p with
  | fair => exact congrArg (Ordering.then · _) (needFirst_ite _ _ _ _ _ _).symm
  | drf => exact congrArg (Ordering.then · _) (needFirst_ite _ _ _ _ _ _).symm
  | fifo => rfl

end Ratios

/-! ## Ratios are numbers -/

/-- A share of a total is finite. -/
theorem isFinite_share {r total : Resource} {d : Dimension} {x : Float}
    (h : r.share? total d = some x) : x.isFinite = true := by
  unfold Resource.share? at h
  split_ifs at h with htotal
  cases h
  have hone := one_le_value_ofUInt64 htotal
  have hpos := one_pos.trans_le hone
  have hnonneg := (ofUInt64_nonneg (r.get d)).nonneg
  obtain ⟨hnumber, hvalue⟩ :=
    div_eq (isFinite_ofUInt64 (r.get d)) (isFinite_ofUInt64 (total.get d)) hpos.ne'
  have hquotient : value (Scalar.ofUInt64 (r.get d)) / value (Scalar.ofUInt64 (total.get d)) ≤
      2 ^ (64 : ℤ) :=
    (div_le_self hnonneg hone).trans (value_ofUInt64_le _)
  refine isFinite_of_le hnumber ?_ ?_
  · rw [hvalue]
    exact rounded_nonneg (div_nonneg hnonneg hpos.le)
  · rw [hvalue]
    exact (rounded_le_nearest (div_nonneg hnonneg hpos.le)).trans
      ((isDouble_two_zpow (by norm_num)).nearest_le hquotient)

/-- A dominant share is finite. -/
theorem isFinite_dominantShare (r total : Resource) :
    (r.dominantShare total : Float).isFinite = true := by
  have hfold : ∀ (xs : List Float) (acc : Float), (∀ x ∈ xs, x.isFinite = true) →
      acc.isFinite = true → (xs.foldl Scalar.max acc).isFinite = true := by
    intro xs
    induction xs with
    | nil => exact fun acc _ hacc => hacc
    | cons x xs ih =>
      intro acc hxs hacc
      exact ih _ (fun y hy => hxs y (.tail _ hy)) (isFinite_max hacc (hxs x (.head _)))
  refine hfold _ _ (fun x hx => ?_) exactly_zero.finite
  obtain ⟨d, -, hd⟩ := List.mem_filterMap.mp hx
  exact isFinite_share hd

/-- A weight that counts is a positive number. -/
theorem value_pos_of_lt {w : Float} (h : Scalar.lt Scalar.zero w = true) :
    Scalar.isNaN w = false ∧ 0 < value w := by
  have hnumber := (Scalar.Comparable.isNaN_of_le (Scalar.Comparable.lt_iff.mp h).1).2
  rw [lt_iff_value_lt exactly_zero.number hnumber, exactly_zero.value_eq] at h
  exact ⟨hnumber, h⟩

/-- A finite number divided by what stands for a weight is a number. -/
theorem isNaN_div_weightOrOne {x : Float} (hx : x.isFinite = true) (w : Float) :
    Scalar.isNaN (x / weightOrOne w) = false := by
  unfold weightOrOne
  split_ifs with hw
  · obtain ⟨hnumber, hpos⟩ := value_pos_of_lt hw
    exact isNaN_div hx hnumber hpos.ne'
  · exact isNaN_div hx exactly_one.number (by rw [exactly_one.value_eq]; norm_num)

/-- A weighted finite share is a number. -/
theorem isNaN_weighted {x : Float} (hx : x.isFinite = true) (w : Float) :
    Scalar.isNaN (weighted x w) = false := by
  unfold weighted
  split_ifs with hw
  · obtain ⟨hnumber, hpos⟩ := value_pos_of_lt hw
    exact isNaN_div hx hnumber hpos.ne'
  · exact isNaN_of_isFinite hx

/-- No ratio is something other than a number, whatever the weight is. -/
theorem isNaN_ratio {p : Policy} {cluster : Resource} {s : Standing Float} {x : Float}
    (h : p.ratio? cluster s = some x) : Scalar.isNaN x = false := by
  cases p with
  | fair =>
    cases h
    split_ifs
    · have hwanted := isFinite_ofUInt64 s.wanted.memory
      have hmax := value_max (isNaN_of_isFinite hwanted) exactly_one.number
      refine (div_eq (isFinite_ofUInt64 _) (isFinite_max hwanted exactly_one.finite) ?_).1
      rw [hmax, exactly_one.value_eq]
      exact (lt_max_of_lt_right one_pos).ne'
    · exact isNaN_div_weightOrOne (isFinite_ofUInt64 _) s.weight
  | drf =>
    cases h
    split_ifs
    · exact isNaN_of_isFinite (isFinite_dominantShare _ _)
    · exact isNaN_weighted (isFinite_dominantShare _ _) s.weight
  | fifo => cases h

end Policy

/-! ## The order in which children are asked -/

/-- Amounts may be added in any order. -/
theorem Amount.plus_right_comm (a b c : Amount) : plus (plus a b) c = plus (plus a c) b := by
  apply UInt64.toNat.inj
  simp only [plus_toNat]
  omega

instance : RightCommutative (α := Resource) (β := Resource) (· + ·) where
  right_comm a b c := by
    change Resource.mk _ _ = Resource.mk _ _
    rw [Resource.mk.injEq]
    exact ⟨Amount.plus_right_comm _ _ _, Amount.plus_right_comm _ _ _⟩

/-- Sorting siblings of different serial numbers gives one list, whatever order they were in. -/
theorem Policy.sort_eq_of_perm {F : Type} [Scalar F] [Scalar.Comparable F] {α : Type} (p : Policy)
    (cluster : Resource) (standing : α → Standing F) {xs ys : List α} (h : xs ~ ys)
    (hserials : (xs.map fun x => (standing x).serial).Nodup) :
    p.sort cluster standing xs = p.sort cluster standing ys := by
  have hxs := p.sort_perm cluster standing xs
  have hys := p.sort_perm cluster standing ys
  refine List.Perm.eq_of_pairwise ?_ (p.pairwise_sort cluster standing xs)
    (p.pairwise_sort cluster standing ys) ((hxs.trans h).trans hys.symm)
  intro x y hx hy hxy hyx
  by_contra hne
  have hserial : (standing x).serial ≠ (standing y).serial := fun heq =>
    hne (List.inj_on_of_nodup_map hserials (hxs.mem_iff.mp hx) (h.mem_iff.mpr (hys.mem_iff.mp hy)) heq)
  have hlt := lt_of_isLE hxy hserial
  rw [p.order_swap, hlt] at hyx
  contradiction

namespace Queue

section Generic

variable {F : Type}

/-- The usage of a leaf does not depend on the order of its applications. -/
theorem usage_leaf_eq_of_perm (info : QueueInfo F) {runnable runnable' : List (Attempt F)}
    (parked : List (Attempt F)) (h : runnable ~ runnable') :
    (leaf info runnable parked).usage = (leaf info runnable' parked).usage := by
  unfold usage
  rw [fold_leaf, fold_leaf]
  exact ((h.append_right parked).map _).foldl_eq 0

/-- The usage of a parent does not depend on the order of its children. -/
theorem usage_parent_eq_of_perm (info : QueueInfo F) {children children' : List (Queue F)}
    (h : children ~ children') : (parent info children).usage = (parent info children').usage := by
  unfold usage
  rw [fold_parent, fold_parent, List.map_map, List.map_map]
  exact (h.map _).foldl_eq 0

variable [Scalar F] [Scalar.Comparable F]

/-- A leaf with headroom gives a node to the same application, and ends with its applications in the same
order, whatever order they were in. -/
theorem assign_leaf_eq_of_perm (cluster : Resource) (info : QueueInfo F)
    {runnable runnable' : List (Attempt F)} (parked : List (Attempt F)) (h : runnable ~ runnable')
    (hserials : (runnable.map Attempt.serial).Nodup)
    (headroom : info.settings.hasHeadroom (leaf info runnable parked).usage = true) (p : Placement F) :
    (leaf info runnable parked).assign cluster p = (leaf info runnable' parked).assign cluster p := by
  have headroom' := headroom
  rw [usage_leaf_eq_of_perm info parked h] at headroom'
  rw [assign_leaf, assign_leaf, if_pos headroom, if_pos headroom',
    info.policy.sort_eq_of_perm cluster Attempt.standing h hserials]

/-- A parent with headroom gives a node to the same child, and ends with its children in the same order,
whatever order they were in. -/
theorem assign_parent_eq_of_perm (cluster : Resource) (info : QueueInfo F)
    {children children' : List (Queue F)} (h : children ~ children')
    (hserials : (children.map fun c => c.info.serial).Nodup)
    (headroom : info.settings.hasHeadroom (parent info children).usage = true) (p : Placement F) :
    (parent info children).assign cluster p = (parent info children').assign cluster p := by
  have headroom' := headroom
  rw [usage_parent_eq_of_perm info h] at headroom'
  rw [assign_parent_sorted, assign_parent_sorted, if_pos headroom, if_pos headroom',
    info.policy.sort_eq_of_perm cluster standing h hserials]

end Generic

end Queue

end Allotment
