import Allotment.Policy

/-!
# The order of siblings

A policy ranks the children of a queue by what is known of each at the time: the child that should be
served first comes first. Every comparison falls back on the serial number, so siblings never tie.
-/

namespace Allotment

/-- What a policy may know of a queue or an application when it ranks it. -/
structure Standing (F : Type) where
  name : String
  serial : Nat
  priority : Nat
  weight : F
  minShare : Resource
  maxShare : Resource
  demand : Resource
  usage : Resource
  fairShare : Resource

namespace Standing

variable {F : Type} [Scalar F]

/-- The standing of something with a usage and otherwise default values. -/
def ofUsage (name : String) (serial : Nat) (usage : Resource) : Standing F where
  name := name
  serial := serial
  priority := 0
  weight := Scalar.one
  minShare := 0
  maxShare := Resource.unbounded
  demand := usage
  usage := usage
  fairShare := 0

/-- The part of the minimum share that is asked for. -/
def wanted (s : Standing F) : Resource := min s.minShare s.demand

end Standing

namespace Policy

variable {F : Type} [Scalar F]

/-- Those below their minimum share come before the others; within each group a ratio decides, the
smaller first. -/
def needFirst (needyA needyB : Bool) (needs shares : Ordering) : Ordering :=
  match needyA, needyB with
  | true, false => .lt
  | false, true => .gt
  | true, true => needs
  | false, false => shares

/-- A positive weight, or one in place of any other. -/
def weightOrOne (weight : F) : F := if Scalar.lt Scalar.zero weight then weight else Scalar.one

/-- A share divided by a positive weight; other weights do not count. -/
def weighted (share weight : F) : F := if Scalar.lt Scalar.zero weight then share / weight else share

/-- The order of fair sharing: memory held over the memory wanted at least, or over the weight. -/
def fairOrder (a b : Standing F) : Ordering :=
  let usageA : F := Scalar.ofUInt64 a.usage.memory
  let usageB : F := Scalar.ofUInt64 b.usage.memory
  let minA : F := Scalar.ofUInt64 a.wanted.memory
  let minB : F := Scalar.ofUInt64 b.wanted.memory
  needFirst (Scalar.lt usageA minA) (Scalar.lt usageB minB)
    (Scalar.order (usageA / Scalar.max minA Scalar.one) (usageB / Scalar.max minB Scalar.one))
    (Scalar.order (usageA / weightOrOne a.weight) (usageB / weightOrOne b.weight))

/-- The order of dominant resource fairness: the dominant share of what is wanted at least, or the
weighted dominant share of the cluster. -/
def drfOrder (cluster : Resource) (a b : Standing F) : Ordering :=
  needFirst (!decide (a.wanted ≤ a.usage)) (!decide (b.wanted ≤ b.usage))
    (Scalar.order (a.usage.dominantShare a.wanted : F) (b.usage.dominantShare b.wanted))
    (Scalar.order (weighted (a.usage.dominantShare cluster) a.weight)
      (weighted (b.usage.dominantShare cluster) b.weight))

/-- The order of siblings under a policy. -/
def order (p : Policy) (cluster : Resource) (a b : Standing F) : Ordering :=
  let primary := match p with
    | fair => fairOrder a b
    | drf => drfOrder cluster a b
    | fifo => compare b.priority a.priority
  primary.then (compare a.serial b.serial)

/-- A list in the order of a policy; what the policy does not separate keeps its place. -/
def sort {α : Type} (p : Policy) (cluster : Resource) (standing : α → Standing F) (xs : List α) :
    List α :=
  xs.mergeSort fun a b => p.order cluster (standing a) (standing b) != .gt

/-- The place of the element that a policy ranks last, the first of equals. -/
def lastRanked? {α : Type} (p : Policy) (cluster : Resource) (standing : α → Standing F) :
    List α → Option Nat
  | [] => none
  | x :: xs => some (go x 0 1 xs)
where
  /-- The place of the last ranked of a candidate and the elements from a place on. -/
  go (best : α) (bestPlace place : Nat) : List α → Nat
    | [] => bestPlace
    | y :: ys =>
      if p.order cluster (standing y) (standing best) = .gt then go y place (place + 1) ys
      else go best bestPlace (place + 1) ys

end Policy

end Allotment
