import Allotment.Policy

/-!
# Division of a share among siblings

A share is divided by water-filling, each dimension on its own. At a ratio every sibling gets the
ratio times its weight, at least its minimum share and at most its cap; the ratio is raised until the
sum reaches what is to be divided, which is found by doubling and then by bisection. Siblings without
a positive weight get their minimum share off the top.

The cap is the maximum share, and for shares of the moment also the demand; then siblings that are
not active get nothing.
-/

namespace Allotment

/-- What a division may know of a sibling. -/
structure Claimant (F : Type) where
  serial : Nat
  weight : F
  minShare : Resource
  maxShare : Resource
  demand : Resource
  active : Bool

/-- Shares of the moment follow demand and activity; steady shares do not. -/
inductive Outlook where
  | moment
  | steady
  deriving DecidableEq, Repr

namespace Division

variable {F : Type} [Scalar F]

/-- How often the ratio's interval is halved. -/
def bisections : Nat := 25

/-- How often the ratio is doubled at most. -/
def doublings : Nat := 64

/-- The most that a claimant can use in a dimension. -/
def cap (o : Outlook) (d : Dimension) (c : Claimant F) : Amount :=
  match o with
  | .steady => c.maxShare.get d
  | .moment => min (c.maxShare.get d) (c.demand.get d)

/-- Whether a claimant takes part. -/
def counts (o : Outlook) (c : Claimant F) : Bool := o = .steady || c.active

/-- Whether a claimant's share is its minimum share, whatever the ratio. -/
def isFixed (c : Claimant F) : Bool := Scalar.le c.weight Scalar.zero

/-- The share of a claimant whose share does not depend on the ratio. -/
def fixedShare (o : Outlook) (d : Dimension) (c : Claimant F) : F :=
  Scalar.min (Scalar.ofUInt64 (c.minShare.get d)) (Scalar.ofUInt64 (cap o d c))

/-- The share of a claimant at a ratio. -/
def shareAt (o : Outlook) (d : Dimension) (ratio : F) (c : Claimant F) : F :=
  Scalar.min (Scalar.max (ratio * c.weight) (Scalar.ofUInt64 (c.minShare.get d)))
    (Scalar.ofUInt64 (cap o d c))

/-- The sum of the shares at a ratio. -/
def usedAt (o : Outlook) (d : Dimension) (free : List (Claimant F)) (ratio : F) : F :=
  Scalar.sum (free.map (shareAt o d ratio))

/-- Doubles a ratio until the shares reach the target, a number of times at most. -/
def double (used : F → F) (target : F) : Nat → F → F
  | 0, ratio => ratio
  | n + 1, ratio =>
    if Scalar.lt (used ratio) target then double used target n (ratio * Scalar.two) else ratio

/-- Halves an interval of ratios a number of times and gives its upper end. -/
def bisect (used : F → F) (target : F) : Nat → F → F → F
  | 0, _, right => right
  | n + 1, left, right =>
    let middle := (left + right) / Scalar.two
    if Scalar.lt (used middle) target then bisect used target n middle right
    else bisect used target n left middle

/-- The ratio at which the shares of claimants with positive weights reach a target. -/
def ratio (used : F → F) (target : F) : F :=
  bisect used target bisections Scalar.zero (double used target doublings Scalar.one)

/-- The shares of one dimension, in the order of the claimants. -/
def dimension (o : Outlook) (total : Amount) (d : Dimension) (claimants : List (Claimant F)) :
    List Amount :=
  let counted := claimants.filter (counts o)
  let fixed := counted.filter isFixed
  let free := counted.filter (!isFixed ·)
  let taken := Scalar.sum (fixed.map (fixedShare o d))
  let caps := Scalar.sum (free.map fun c => (Scalar.ofUInt64 (cap o d c) : F))
  let target := Scalar.min (Scalar.max (Scalar.ofUInt64 total - taken) Scalar.zero) caps
  let level := ratio (usedAt o d free) target
  claimants.map fun c =>
    if !counts o c then 0
    else if isFixed c then Scalar.toUInt64 (fixedShare o d c)
    else Scalar.toUInt64 (shareAt o d level c)

/-- The shares of all dimensions, in the order of the claimants. -/
def fill (o : Outlook) (total : Resource) (claimants : List (Claimant F)) : List Resource :=
  List.zipWith Resource.mk (dimension o total.memory .memory claimants)
    (dimension o total.vcores .vcores claimants)

/-- Everything to the active claimant with the smallest serial number. -/
def eldest (total : Resource) (claimants : List (Claimant F)) : List Resource :=
  let first := ((claimants.filter (·.active)).map (·.serial)).min?
  go first claimants
where
  /-- The total at the first active claimant with the wanted serial number, nothing elsewhere. -/
  go (first : Option Nat) : List (Claimant F) → List Resource
    | [] => []
    | c :: rest =>
      if c.active ∧ some c.serial = first then total :: rest.map fun _ => 0
      else 0 :: go first rest

end Division

/-- The shares of siblings under a policy. -/
def Policy.shares {F : Type} [Scalar F] (p : Policy) (o : Outlook) (total : Resource)
    (claimants : List (Claimant F)) : List Resource :=
  match p, o with
  | .fifo, .moment => Division.eldest total claimants
  | _, _ => Division.fill o total claimants

end Allotment
