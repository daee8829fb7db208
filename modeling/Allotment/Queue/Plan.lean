import Allotment.Config
import Allotment.Policy
import Allotment.QueueName

/-!
# Plans

A plan lists the queues that a configuration asks for below the root, parents before their children,
each with its full name and its policy. A configuration has a plan only if all its names can stand in
a tree, no two children of a queue share a name, and every policy is known and applies to its place.
-/

namespace Allotment

/-- A queue that a configuration asks for. -/
structure Planned (F : Type) where
  name : String
  parent : String
  config : QueueConfig F
  policy : Policy

namespace QueueConfig

variable {F : Type}

/-- The policy of a configured queue, `fair` unless one is named. -/
def policy (c : QueueConfig F) : Except Error Policy :=
  match c.options.policy with
  | some name => Policy.ofName name
  | none => .ok .fair

/-- The policy of a configured queue, if it applies to its place. -/
def policyAt (c : QueueConfig F) (name : String) (place : Depth) : Except Error Policy := do
  let policy ← c.policy
  if policy.appliesTo place then return policy
  else throw (.policyNotApplicable policy.name name)

/-- The place of a configured queue below the root. -/
def place (c : QueueConfig F) : Depth :=
  match c.kind with
  | .leaf => Depth.leaves
  | .parent => Depth.intermediates

mutual

/-- The plan of a queue and of what is below it, given the names of its elder siblings. -/
def planQueue (parent : String) (seen : List String) :
    QueueConfig F → Except Error (List (Planned F))
  | .node options children => do
    let c := QueueConfig.node options children
    let name := QueueName.child parent c.name
    if let some fault := QueueName.fault? c.name then
      throw (.invalidQueueName name fault)
    if seen.contains c.name then
      throw (.invalidQueueName name .repeated)
    let policy ← c.policyAt name c.place
    let below ← planAll name [] children
    return ⟨name, parent, c, policy⟩ :: below

/-- The plan of the children of a queue. -/
def planAll (parent : String) (seen : List String) :
    List (QueueConfig F) → Except Error (List (Planned F))
  | [] => return []
  | c :: rest => do
    let first ← planQueue parent seen c
    let others ← planAll parent (c.name :: seen) rest
    return first ++ others

end

/-- The plan of a configuration. -/
def plan (c : QueueConfig F) : Except Error (List (Planned F)) := do
  if c.name ≠ QueueName.root then
    throw (.invalidQueueName c.name .notRoot)
  let _ ← c.policyAt QueueName.root Depth.top
  planAll QueueName.root [] c.children

end QueueConfig

end Allotment
