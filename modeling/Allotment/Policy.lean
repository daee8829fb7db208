import Allotment.Error
import Allotment.Resource

/-!
# Scheduling policies

A policy orders the children of a queue and divides the queue's share among them. There are three:
`fair` looks at memory alone, `drf` at the dominant share over all dimensions, and `fifo` at priority
and age. The last applies to leaf queues only.
-/

namespace Allotment

/-- The scheduling policies. -/
inductive Policy where
  | fair
  | fifo
  | drf
  deriving DecidableEq, Repr, Inhabited

/-- A set of places in the queue tree. -/
structure Depth where
  leaf : Bool
  intermediate : Bool
  root : Bool
  deriving DecidableEq, Repr

namespace Depth

/-- Leaf queues. -/
def leaves : Depth := ⟨true, false, false⟩

/-- Queues between the root and the leaves. -/
def intermediates : Depth := ⟨false, true, false⟩

/-- The root queue. -/
def top : Depth := ⟨false, false, true⟩

/-- Queues that may have children. -/
def parents : Depth := ⟨false, true, true⟩

/-- All queues. -/
def any : Depth := ⟨true, true, true⟩

/-- Whether a set of places includes another. -/
def contains (d other : Depth) : Bool :=
  (!other.leaf || d.leaf) && (!other.intermediate || d.intermediate) && (!other.root || d.root)

end Depth

namespace Policy

/-- The name of a policy in configurations. -/
def name : Policy → String
  | fair => "fair"
  | fifo => "fifo"
  | drf => "drf"

/-- The policy of a name, in letters of either case. -/
def ofName (name : String) : Except Error Policy :=
  let lower := name.map Char.toLower
  if lower = "fair" then .ok fair
  else if lower = "fifo" then .ok fifo
  else if lower = "drf" then .ok drf
  else .error (.unknownPolicy name)

/-- The places to which a policy applies. -/
def depth : Policy → Depth
  | fifo => Depth.leaves
  | fair | drf => Depth.any

/-- Whether a policy applies to some places. -/
def appliesTo (p : Policy) (d : Depth) : Bool := p.depth.contains d

/-- Whether a usage counts as over a fair share: `drf` looks at every dimension, the others at
memory. -/
def isOver : Policy → (usage fairShare : Resource) → Bool
  | drf, usage, fairShare => !decide (usage ≤ fairShare)
  | fair, usage, fairShare | fifo, usage, fairShare => fairShare.memory < usage.memory

end Policy

end Allotment
