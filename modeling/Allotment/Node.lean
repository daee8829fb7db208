import Allotment.Resource

/-!
# Nodes and containers

A node offers a total of resources; containers on it hold parts of the total. Allocating succeeds
only for what fits into the rest.
-/

namespace Allotment

/-- A share of a node held by an application. -/
structure Container where
  id : Nat
  app : String
  queue : String
  node : String
  resource : Resource
  priority : Nat
  deriving DecidableEq, Repr

/-- A machine of the cluster. -/
structure Node where
  id : String
  total : Resource
  allocated : Resource
  deriving DecidableEq, Repr

namespace Node

/-- A node of which nothing is allocated. -/
def new (id : String) (total : Resource) : Node := ⟨id, total, 0⟩

/-- What is left of the node. -/
def available (n : Node) : Resource := n.total - n.allocated

/-- The node with a request allocated, if the request fits. -/
def allocate? (n : Node) (request : Resource) : Option Node :=
  if request ≤ n.available then some { n with allocated := n.allocated + request } else none

/-- The node with a resource given back. -/
def release (n : Node) (r : Resource) : Node := { n with allocated := n.allocated - r }

end Node

end Allotment
