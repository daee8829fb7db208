import Allotment.Scalar

/-!
# Resources

A resource is an amount of memory and a number of cores. Sums stop at the largest amount and
differences at zero, in each dimension on its own; `plus_toNat` and `minus_toNat` say so in natural
numbers. One resource is at most another when it fits into it in both dimensions.
-/

namespace Allotment

/-- An amount of one dimension of a resource. -/
abbrev Amount := UInt64

namespace Amount

/-- The largest amount. -/
def limit : Amount := 18446744073709551615

/-- The sum of two amounts, at most the largest one. -/
def plus (a b : Amount) : Amount := if a + b < a then limit else a + b

/-- The difference of two amounts, at least zero. -/
def minus (a b : Amount) : Amount := if a < b then 0 else a - b

theorem limit_toNat : limit.toNat = 18446744073709551615 := rfl

theorem plus_toNat (a b : Amount) : (plus a b).toNat = min (a.toNat + b.toNat) limit.toNat := by
  have ha := a.toNat_lt
  have hb := b.toNat_lt
  rw [limit_toNat]
  unfold plus
  split
  · rename_i h
    rw [UInt64.lt_iff_toNat_lt, UInt64.toNat_add] at h
    rw [limit_toNat]
    omega
  · rename_i h
    rw [UInt64.lt_iff_toNat_lt, UInt64.toNat_add] at h
    rw [UInt64.toNat_add]
    omega

theorem minus_toNat (a b : Amount) : (minus a b).toNat = a.toNat - b.toNat := by
  unfold minus
  split
  · rename_i h
    rw [UInt64.lt_iff_toNat_lt] at h
    simp
    omega
  · rename_i h
    exact UInt64.toNat_sub_of_le _ _ (UInt64.not_lt.1 h)

/-- An amount multiplied by a factor, truncated and kept within the range of amounts. -/
def scale {F : Type} [Scalar F] (a : Amount) (factor : F) : Amount :=
  let scaled := Scalar.ofUInt64 a * factor
  if Scalar.le (Scalar.ofUInt64 limit) scaled then limit
  else if Scalar.le scaled Scalar.zero then 0
  else Scalar.toUInt64 scaled

end Amount

/-- The dimensions of a resource. -/
inductive Dimension where
  | memory
  | vcores
  deriving DecidableEq, Repr

/-- An amount of memory, in megabytes, and a number of virtual cores. -/
structure Resource where
  memory : Amount
  vcores : Amount
  deriving DecidableEq, Repr, Inhabited

namespace Resource

/-- The same amount in both dimensions. -/
def uniform (a : Amount) : Resource := ⟨a, a⟩

/-- The largest resource. -/
def unbounded : Resource := uniform Amount.limit

/-- The amount of one dimension. -/
def get (r : Resource) : Dimension → Amount
  | .memory => r.memory
  | .vcores => r.vcores

/-- The resource with the amount of one dimension replaced. -/
def set (r : Resource) : Dimension → Amount → Resource
  | .memory, a => { r with memory := a }
  | .vcores, a => { r with vcores := a }

/-- The resource with a given amount of each dimension. -/
def ofDimensions (f : Dimension → Amount) : Resource := ⟨f .memory, f .vcores⟩

instance : Zero Resource := ⟨uniform 0⟩
instance : Add Resource := ⟨fun a b => ⟨Amount.plus a.memory b.memory, Amount.plus a.vcores b.vcores⟩⟩
instance : Sub Resource :=
  ⟨fun a b => ⟨Amount.minus a.memory b.memory, Amount.minus a.vcores b.vcores⟩⟩
instance : Min Resource := ⟨fun a b => ⟨min a.memory b.memory, min a.vcores b.vcores⟩⟩
instance : Max Resource := ⟨fun a b => ⟨max a.memory b.memory, max a.vcores b.vcores⟩⟩
instance : LE Resource := ⟨fun a b => a.memory ≤ b.memory ∧ a.vcores ≤ b.vcores⟩
instance (a b : Resource) : Decidable (a ≤ b) :=
  inferInstanceAs (Decidable (a.memory ≤ b.memory ∧ a.vcores ≤ b.vcores))

/-- Whether both amounts are zero. -/
def isZero (r : Resource) : Bool := r = 0

/-- Whether a resource is smaller than another in both dimensions. -/
def below (a b : Resource) : Bool := a.memory < b.memory && a.vcores < b.vcores

/-- The sum of a list of resources, added from the left. -/
def sum (rs : List Resource) : Resource := rs.foldl (· + ·) 0

theorem add_def (a b : Resource) :
    a + b = ⟨Amount.plus a.memory b.memory, Amount.plus a.vcores b.vcores⟩ := rfl

theorem sub_def (a b : Resource) :
    a - b = ⟨Amount.minus a.memory b.memory, Amount.minus a.vcores b.vcores⟩ := rfl

theorem le_def {a b : Resource} : a ≤ b ↔ a.memory ≤ b.memory ∧ a.vcores ≤ b.vcores := Iff.rfl

/-- The text of a resource in reports. -/
def text (r : Resource) : String := s!"<memory:{r.memory}, vCores:{r.vcores}>"

section Scalar

variable {F : Type} [Scalar F]

/-- Both dimensions multiplied by a factor. -/
def scale (r : Resource) (factor : F) : Resource :=
  ⟨Amount.scale r.memory factor, Amount.scale r.vcores factor⟩

/-- The share of one dimension of a total, if the total has any of it. -/
def share? (r total : Resource) (d : Dimension) : Option F :=
  if 0 < total.get d then some (Scalar.ofUInt64 (r.get d) / Scalar.ofUInt64 (total.get d)) else none

/-- The largest share of a total over the dimensions of which the total has any. -/
def dominantShare (r total : Resource) : F :=
  ([Dimension.memory, .vcores].filterMap (r.share? total)).foldl Scalar.max Scalar.zero

end Scalar

end Resource

end Allotment
