import Allotment.Access
import Allotment.Attempt
import Allotment.Config
import Allotment.QueueName

/-!
# The tree of queues

A leaf queue holds applications, a parent queue holds queues. Applications of a leaf beyond its limit
are parked. Children and applications are kept in the order in which they were last ranked.

Functions on the tree are folds: `fold` gives a queue's result from those of its children, and
`fold_parent` is its equation. `Queue.induction` is the matching principle of proof.
-/

namespace Allotment

/-- The settings of a queue in the tree. -/
structure QueueSettings (F : Type) where
  weight : F
  minShare : Resource
  maxShare : Resource
  limit : Nat
  submitAcl : AccessList
  adminAcl : AccessList

namespace QueueSettings

variable {F : Type}

/-- The limit of a queue for which none is configured. -/
def noLimit : Nat := Amount.limit.toNat

/-- The settings of a configured queue. Where no access list is configured the root lets everyone in
and other queues add no one. -/
def ofOptions (o : QueueOptions F) (isRoot : Bool) : QueueSettings F :=
  let default := if isRoot then AccessList.everyone else AccessList.nobody
  { weight := o.weight
    minShare := o.minShare
    maxShare := o.maxShare.getD Resource.unbounded
    limit := o.maxRunningApps.getD noLimit
    submitAcl := (o.submitAcl.map AccessList.ofText).getD default
    adminAcl := (o.adminAcl.map AccessList.ofText).getD default }

/-- The settings of a queue that is created on demand. -/
def onDemand [Scalar F] : QueueSettings F := ofOptions (.named QueueName.root) false

/-- The access list of a permission. -/
def acl (s : QueueSettings F) : Permission → AccessList
  | .submit => s.submitAcl
  | .administer => s.adminAcl

/-- Whether there is room above a usage in both dimensions. -/
def hasHeadroom (s : QueueSettings F) (usage : Resource) : Bool := usage.below s.maxShare

end QueueSettings

/-- What every queue has. -/
structure QueueInfo (F : Type) where
  name : String
  serial : Nat
  policy : Policy
  settings : QueueSettings F
  fairShare : Resource
  steadyShare : Resource
  demand : Resource

/-- A queue and everything below it. -/
inductive Queue (F : Type) where
  | leaf (info : QueueInfo F) (runnable parked : List (Attempt F))
  | parent (info : QueueInfo F) (children : List (Queue F))

namespace Queue

variable {F β : Type}

mutual

/-- The result of a queue from the results of its children. -/
def fold (onLeaf : QueueInfo F → List (Attempt F) → List (Attempt F) → β)
    (onParent : QueueInfo F → List (Queue F × β) → β) : Queue F → β
  | leaf info runnable parked => onLeaf info runnable parked
  | parent info children => onParent info (foldAll onLeaf onParent children)

/-- Queues with their results. -/
def foldAll (onLeaf : QueueInfo F → List (Attempt F) → List (Attempt F) → β)
    (onParent : QueueInfo F → List (Queue F × β) → β) : List (Queue F) → List (Queue F × β)
  | [] => []
  | q :: rest => (q, fold onLeaf onParent q) :: foldAll onLeaf onParent rest

end

section

variable (onLeaf : QueueInfo F → List (Attempt F) → List (Attempt F) → β)
  (onParent : QueueInfo F → List (Queue F × β) → β)

theorem foldAll_eq_map (qs : List (Queue F)) :
    foldAll onLeaf onParent qs = qs.map fun q => (q, q.fold onLeaf onParent) := by
  induction qs with
  | nil => simp [foldAll]
  | cons q rest ih => simp [foldAll, ih]

@[simp] theorem fold_leaf (info : QueueInfo F) (runnable parked : List (Attempt F)) :
    (leaf info runnable parked).fold onLeaf onParent = onLeaf info runnable parked := by
  simp [fold]

@[simp] theorem fold_parent (info : QueueInfo F) (children : List (Queue F)) :
    (parent info children).fold onLeaf onParent =
      onParent info (children.map fun q => (q, q.fold onLeaf onParent)) := by
  simp [fold, foldAll_eq_map]

end

/-- What holds of leaves, and of a parent whenever it holds of the children, holds of every queue. -/
theorem induction {motive : Queue F → Prop}
    (leaf : ∀ info runnable parked, motive (leaf info runnable parked))
    (parent : ∀ info children, (∀ q ∈ children, motive q) → motive (parent info children)) :
    ∀ q, motive q :=
  fun q => Queue.rec (motive_1 := motive) (motive_2 := fun qs => ∀ q ∈ qs, motive q) leaf parent
    (by simp) (fun _ _ hq hqs => by simpa using ⟨hq, hqs⟩) q

/-- What every queue has. -/
def info : Queue F → QueueInfo F
  | leaf info _ _ => info
  | parent info _ => info

/-- The queue with its common part changed. -/
def withInfo (f : QueueInfo F → QueueInfo F) : Queue F → Queue F
  | leaf info runnable parked => leaf (f info) runnable parked
  | parent info children => parent (f info) children

/-- The full name of a queue. -/
def name (q : Queue F) : String := q.info.name

/-- The kind of a queue. -/
def kind : Queue F → QueueKind
  | leaf _ _ _ => .leaf
  | parent _ _ => .parent

/-- Whether a queue holds applications. -/
def isLeaf (q : Queue F) : Bool := q.kind = .leaf

/-- The queues directly below a queue. -/
def children : Queue F → List (Queue F)
  | leaf _ _ _ => []
  | parent _ children => children

/-- The queue itself and all queues below it, parents before their children. -/
def all : Queue F → List (Queue F) :=
  fold (fun info runnable parked => [leaf info runnable parked])
    (fun info entries => parent info (entries.map (·.1)) :: (entries.map (·.2)).flatten)

/-- All queues below a queue. -/
def descendants (q : Queue F) : List (Queue F) := q.all.tail

/-- The applications of a leaf itself, the runnable ones first. -/
def ownAttempts : Queue F → List (Attempt F)
  | leaf _ runnable parked => runnable ++ parked
  | parent _ _ => []

/-- The applications in a queue, leaf by leaf, the runnable ones of a leaf first. -/
def attempts (q : Queue F) : List (Attempt F) := q.all.flatMap ownAttempts

/-- How many applications may run. -/
def runnableCount : Queue F → Nat :=
  fold (fun _ runnable _ => runnable.length) (fun _ entries => entries.foldr (fun e n => e.2 + n) 0)

/-- Whether an application may run. -/
def isActive (q : Queue F) : Bool := 0 < q.runnableCount

/-- Whether a queue and those below it hold no applications. -/
def isVacant (q : Queue F) : Bool := q.attempts.isEmpty

/-- The first queue with a name, from the top. -/
def find? (q : Queue F) (name : String) : Option (Queue F) := q.all.find? fun r => r.name = name

/-- The tree with the queues of a name changed. -/
def modify (name : String) (f : Queue F → Queue F) : Queue F → Queue F :=
  fold
    (fun info runnable parked =>
      if info.name = name then f (leaf info runnable parked) else leaf info runnable parked)
    (fun info entries =>
      if info.name = name then f (parent info (entries.map (·.1)))
      else parent info (entries.map (·.2)))

/-- The tree without the first child of a name under any parent. -/
def remove (name : String) : Queue F → Queue F :=
  fold leaf (fun info entries =>
    parent info ((entries.eraseP fun e => e.1.name = name).map (·.2)))

/-- The queue with a child more, behind the others. -/
def addChild (child : Queue F) : Queue F → Queue F
  | leaf info runnable parked => leaf info runnable parked
  | parent info children => parent info (children ++ [child])

/-- The tree with every application changed. -/
def mapAttempts (f : Attempt F → Attempt F) : Queue F → Queue F :=
  fold (fun info runnable parked => leaf info (runnable.map f) (parked.map f))
    (fun info entries => parent info (entries.map (·.2)))

/-- The queues from the top down to the first queue with a name. -/
def path? (name : String) : Queue F → Option (List (QueueInfo F)) :=
  fold (fun info _ _ => if info.name = name then some [info] else none)
    (fun info entries =>
      if info.name = name then some [info]
      else (entries.findSome? (·.2)).map (info :: ·))

/-- What the queue directly above the first queue with a name has. -/
def parentOf? (name : String) (q : Queue F) : Option (QueueInfo F) :=
  (q.path? name).bind fun path => path.dropLast.getLast?

/-! ## Places and policies -/

/-- The place of a queue of a kind, at the top of the tree or below it. -/
def place (isRoot : Bool) : QueueKind → Depth
  | .leaf => Depth.leaves
  | .parent => if isRoot then Depth.top else Depth.intermediates

/-- A queue without applications and children, if its policy applies to its place. -/
def new? (kind : QueueKind) (isRoot : Bool) (name : String) (settings : QueueSettings F)
    (policy : Policy) (serial : Nat) : Except Error (Queue F) :=
  if policy.appliesTo (place isRoot kind) then
    let info : QueueInfo F := ⟨name, serial, policy, settings, 0, 0, 0⟩
    match kind with
    | .leaf => .ok (leaf info [] [])
    | .parent => .ok (parent info [])
  else .error (.policyNotApplicable policy.name name)

/-- The queue with another policy, if that applies to its place. -/
def setPolicy (q : Queue F) (isRoot : Bool) (policy : Policy) : Except Error (Queue F) :=
  if policy.appliesTo (place isRoot q.kind) then .ok (q.withInfo ({ · with policy := policy }))
  else .error (.policyNotApplicable policy.name q.name)

end Queue

end Allotment
