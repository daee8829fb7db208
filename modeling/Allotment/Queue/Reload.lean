import Allotment.Queue.Leaf
import Allotment.Queue.Tree

/-!
# Reloading a configuration

A reload brings the tree in line with a new configuration. What happens to each planned queue is
decided first, on the shape of the tree alone: a queue of the wanted kind is updated, one of the other
kind is kept if it holds applications and replaced if not, and one that is not there is created. Only
then is the tree changed. At last the queues that the configuration does not name and that hold no
applications are removed, the deepest first.
-/

namespace Allotment

/-- What a reload does to a planned queue. -/
inductive ReloadStep where
  | update
  | replace
  | keep
  | create
  deriving DecidableEq, Repr

/-- The names and kinds of the queues that a tree has or will have. -/
abbrev Shape := Table String QueueKind

namespace Shape

/-- Whether a queue is another or lies below it. -/
def isWithin (name ancestor : String) : Bool :=
  name = ancestor || (ancestor ++ ".").toList.isPrefixOf name.toList

/-- The shape of a tree. -/
def ofTree {F : Type} (t : QueueTree F) : Shape :=
  Table.ofList (t.root.all.map fun q => (q.name, q.kind))

/-- The shape with a new queue in place of whatever had its name. -/
def put (s : Shape) (name : String) (kind : QueueKind) : Shape :=
  (s.filterMap fun n k => if isWithin n name then none else some k).insert name kind

end Shape

namespace QueueTree

variable {F : Type}

/-- What is to happen to a planned queue, given the shape at that point. -/
def stepFor (t : QueueTree F) (s : Shape) (p : Planned F) : ReloadStep :=
  match s.get? p.name, t.find? p.name with
  | none, _ => .create
  | some kind, some q =>
    if kind = p.config.kind then .update else if q.isVacant then .replace else .keep
  | some _, none => .replace

/-- The steps of a reload, or the reason why some queue cannot be placed. -/
def resolve (t : QueueTree F) : Shape → List (Planned F) → Except Error (List ReloadStep)
  | _, [] => .ok []
  | s, p :: rest =>
    match t.stepFor s p with
    | .update => (resolve t s rest).map (.update :: ·)
    | .keep => (resolve t s rest).map (.keep :: ·)
    | step => match s.get? p.parent with
      | some .parent => (resolve t (s.put p.name p.config.kind) rest).map (step :: ·)
      | some .leaf => .error (.wrongQueueType p.parent .parent)
      | none => .error (.queueNotFound p.parent)

/-- The tree with new settings and a new policy for the queue of a name. -/
def reconfigure (t : QueueTree F) (name : String) (isRoot : Bool) (settings : QueueSettings F)
    (policy : Policy) : QueueTree F × Except Error Unit :=
  let t := t.modify name fun q => q.withInfo ({ · with settings := settings })
  match t.find? name with
  | none => (t, .ok ())
  | some q => match q.setPolicy isRoot policy with
    | .ok _ => (t.modify name fun q => q.withInfo ({ · with policy := policy }), .ok ())
    | .error e => (t, .error e)

/-- The tree without a queue and what is below it. -/
def detach (t : QueueTree F) (name : String) : QueueTree F := { t with root := t.root.remove name }

/-- Carries out one step. -/
def applyStep (t : QueueTree F) (p : Planned F) : ReloadStep → QueueTree F × Except Error Unit
  | .update => match t.reconfigure p.name false (.ofOptions p.config.options false) p.policy with
    | (t, .ok ()) => (t.modify p.name Queue.promoteParked, .ok ())
    | (t, .error e) => (t, .error e)
  | .replace => (t.detach p.name).createPlanned p
  | .keep => (t, .ok ())
  | .create => t.createPlanned p

/-- Carries out steps one after another, up to the first that is refused. -/
def applySteps (t : QueueTree F) : List (Planned F × ReloadStep) → QueueTree F × Except Error Unit
  | [] => (t, .ok ())
  | (p, step) :: rest => match t.applyStep p step with
    | (t, .ok ()) => t.applySteps rest
    | (t, .error e) => (t, .error e)

/-- The names of queues that are not wanted, the deepest first. -/
def stale (t : QueueTree F) (wanted : List String) : List String :=
  (t.names.filter fun n => !wanted.contains n).mergeSort fun a b =>
    decide (QueueName.depth b ≤ QueueName.depth a)

/-- Removes a queue if nothing in it holds applications. -/
def prune (t : QueueTree F) (name : String) : QueueTree F :=
  match t.find? name with
  | some q => if q.isVacant then t.detach name else t
  | none => t

/-- Brings the tree in line with a configuration. -/
def reload (t : QueueTree F) (c : QueueConfig F) : QueueTree F × Except Error Unit :=
  let resolved := do
    let planned ← c.plan
    let policy ← c.policy
    let steps ← t.resolve (Shape.ofTree t) planned
    return (planned, policy, steps)
  match resolved with
  | .error e => (t, .error e)
  | .ok (planned, policy, steps) =>
    match t.reconfigure QueueName.root true (.ofOptions c.options true) policy with
    | (t, .error e) => (t, .error e)
    | (t, .ok ()) => match t.applySteps (planned.zip steps) with
      | (t, .error e) => (t, .error e)
      | (t, .ok ()) =>
        let wanted := QueueName.root :: planned.map (·.name)
        ((t.stale wanted).foldl prune t, .ok ())

end QueueTree

end Allotment
