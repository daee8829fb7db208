import Allotment.Queue.Reload

/-!
# The index of the queues

Queues are found through an index of their full names, and a queue knows the one above it. Index and
links are kept beside the tree: a queue enters the index when it is created under its parent, and
leaves it, with all below it, when its parent lets go of it. An entry refers to the queue itself,
which is told apart from all others by its serial number.
-/

namespace Allotment

variable {F : Type}

/-- A reference to a queue. -/
structure Handle where
  serial : Nat
  kind : QueueKind
  deriving DecidableEq, Repr

namespace Queue

/-- The reference to a queue. -/
def handle (q : Queue F) : Handle := ⟨q.info.serial, q.kind⟩

/-- The queue of a serial number. -/
def at? (q : Queue F) (serial : Nat) : Option (Queue F) :=
  q.all.find? fun r => r.info.serial = serial

/-- The tree with the queues of a serial number changed. -/
def modifyAt (serial : Nat) (f : Queue F → Queue F) : Queue F → Queue F :=
  fold
    (fun info runnable parked =>
      if info.serial = serial then f (leaf info runnable parked) else leaf info runnable parked)
    (fun info entries =>
      if info.serial = serial then f (parent info (entries.map (·.1)))
      else parent info (entries.map (·.2)))

/-- The queue without its first child of a name. -/
def removeChild (name : String) : Queue F → Queue F
  | leaf info runnable parked => leaf info runnable parked
  | parent info children => parent info (children.eraseP fun q => q.name = name)

end Queue

/-- A tree with an index of its queues, and the serial number of the queue above each. -/
structure Directory (F : Type) where
  tree : QueueTree F
  index : Table String Handle
  above : Table Nat Nat

/-- What a reload does to a planned queue, with the queue that was found when it was decided. -/
inductive Measure where
  | update (found : Handle)
  | replace
  | keep (found : Handle)
  | create
  deriving DecidableEq, Repr

namespace Directory

/-- The reference to the root. -/
def top (d : Directory F) : Handle := ⟨d.tree.root.info.serial, .parent⟩

/-- The directory with a queue changed. -/
def change (d : Directory F) (h : Handle) (f : Queue F → Queue F) : Directory F :=
  { d with tree := { d.tree with root := d.tree.root.modifyAt h.serial f } }

/-- The directory with the queue of a name changed, if the index has it. -/
def act (d : Directory F) (name : String) (f : Queue F → Queue F) : Directory F :=
  match d.index.get? name with
  | some h => d.change h f
  | none => d

/-- Whether a queue and those below it hold no applications. -/
def isVacant (d : Directory F) (h : Handle) : Bool :=
  (d.tree.root.at? h.serial).all Queue.isVacant

/-- The reference to the queue that a written name stands for. -/
def lookup? (d : Directory F) (name : String) : Option Handle :=
  match QueueName.normalize name with
  | .ok full => d.index.get? full
  | .error _ => none

/-! ## Creating queues -/

/-- Puts a new queue behind the children of a parent and into the index. -/
def create (d : Directory F) (kind : QueueKind) (parent : Handle) (name : String)
    (settings : QueueSettings F) (policy : Policy) : Directory F × Except Error Handle :=
  match Queue.new? kind false name settings policy d.tree.nextSerial with
  | .error e => (d, .error e)
  | .ok q =>
    let grown := d.change parent (Queue.addChild q)
    ({ tree := { grown.tree with nextSerial := d.tree.nextSerial + 1 }
       index := d.index.insert name q.handle
       above := d.above.insert q.info.serial parent.serial }, .ok q.handle)

/-- Creates a planned queue under its parent. -/
def createPlanned (d : Directory F) (p : Planned F) : Directory F × Except Error Unit :=
  match d.index.get? p.parent with
  | none => (d, .error (.queueNotFound p.parent))
  | some parent => match parent.kind with
    | .leaf => (d, .error (.wrongQueueType p.parent .parent))
    | .parent =>
      let (d, made) :=
        d.create p.config.kind parent p.name (.ofOptions p.config.options false) p.policy
      (d, made.map fun _ => ())

/-- Creates planned queues one after another, up to the first that is refused. -/
def createAll (d : Directory F) : List (Planned F) → Directory F × Except Error Unit
  | [] => (d, .ok ())
  | p :: rest => match d.createPlanned p with
    | (d, .ok ()) => d.createAll rest
    | (d, .error e) => (d, .error e)

/-- The directory of a root alone. -/
def ofRoot (root : Queue F) : Directory F :=
  ⟨⟨root, 1⟩, Table.empty.insert QueueName.root root.handle, Table.empty⟩

/-- The directory of a configuration. -/
def ofConfig (c : QueueConfig F) : Except Error (Directory F) := do
  let planned ← c.plan
  let policy ← c.policy
  let root ← Queue.new? .parent true QueueName.root (.ofOptions c.options true) policy 0
  match createAll (ofRoot root) planned with
  | (d, .ok ()) => return d
  | (_, .error e) => throw e

section OnDemand

variable [Scalar F]

/-- Follows components from a parent queue downwards and creates what is missing. -/
def descend (kind : QueueKind) : Directory F → (parent : Handle) → (path : String) →
    List String → Directory F × Except Error Handle
  | d, parent, _, [] => (d, .ok parent)
  | d, parent, path, c :: rest =>
    let path := QueueName.child path c
    let wanted : QueueKind := if rest = [] then kind else .parent
    match d.index.get? path with
    | some found =>
      if found.kind = wanted then descend kind d found path rest
      else (d, .error (.wrongQueueType path wanted))
    | none => match d.create wanted parent path .onDemand .fair with
      | (d, .ok made) => descend kind d made path rest
      | (d, .error e) => (d, .error e)

/-- The queue of a kind that a written name stands for. What is missing on the path to it is created
if that is wanted. -/
def locate (d : Directory F) (name : String) (create : Bool) (kind : QueueKind) :
    Directory F × Except Error Handle :=
  match QueueName.normalize name with
  | .error e => (d, .error e)
  | .ok full => match d.index.get? full with
    | some found =>
      (d, if found.kind = kind then .ok found else .error (.wrongQueueType full kind))
    | none =>
      if create then descend kind d d.top QueueName.root (QueueName.components full).tail
      else (d, .error (.queueNotFound full))

end OnDemand

/-! ## Reloading a configuration -/

/-- The names and kinds in the index. -/
def shape (d : Directory F) : Shape := d.index.map fun _ h => h.kind

/-- What is to happen to a planned queue, given the shape at that point. -/
def measureFor (d : Directory F) (s : Shape) (p : Planned F) : Measure :=
  match s.get? p.name, d.index.get? p.name with
  | none, _ => .create
  | some kind, some found =>
    if kind = p.config.kind then .update found
    else if d.isVacant found then .replace else .keep found
  | some _, none => .replace

/-- The measures of a reload, or the reason why some queue cannot be placed. -/
def resolve (d : Directory F) : Shape → List (Planned F) → Except Error (List Measure)
  | _, [] => .ok []
  | s, p :: rest =>
    match d.measureFor s p with
    | .update found => (resolve d s rest).map (.update found :: ·)
    | .keep found => (resolve d s rest).map (.keep found :: ·)
    | measure => match s.get? p.parent with
      | some .parent => (resolve d (s.put p.name p.config.kind) rest).map (measure :: ·)
      | some .leaf => .error (.wrongQueueType p.parent .parent)
      | none => .error (.queueNotFound p.parent)

/-- The directory with new settings and a new policy for a queue. -/
def reconfigure (d : Directory F) (h : Handle) (isRoot : Bool) (settings : QueueSettings F)
    (policy : Policy) : Directory F × Except Error Unit :=
  let d := d.change h fun q => q.withInfo ({ · with settings := settings })
  match d.tree.root.at? h.serial with
  | none => (d, .ok ())
  | some q => match q.setPolicy isRoot policy with
    | .ok _ => (d.change h fun q => q.withInfo ({ · with policy := policy }), .ok ())
    | .error e => (d, .error e)

/-- The directory without the queue of a name and what is below it: the queue above lets go of it,
and the index of all names within its own. -/
def detach (d : Directory F) (name : String) : Directory F :=
  let unlinked := match (d.index.get? name).bind fun h => d.above.get? h.serial with
    | some parent => d.change ⟨parent, .parent⟩ (Queue.removeChild name)
    | none => d
  { unlinked with
    index := d.index.filterMap fun n h => if Shape.isWithin n name then none else some h }

/-- Carries out one measure. -/
def applyMeasure (d : Directory F) (p : Planned F) : Measure → Directory F × Except Error Unit
  | .update found =>
    match d.reconfigure found false (.ofOptions p.config.options false) p.policy with
    | (d, .ok ()) => (if found.kind = .leaf then d.change found Queue.promoteParked else d, .ok ())
    | (d, .error e) => (d, .error e)
  | .replace => (d.detach p.name).createPlanned p
  | .keep _ => (d, .ok ())
  | .create => d.createPlanned p

/-- Carries out measures one after another, up to the first that is refused. -/
def applyMeasures (d : Directory F) : List (Planned F × Measure) → Directory F × Except Error Unit
  | [] => (d, .ok ())
  | (p, measure) :: rest => match d.applyMeasure p measure with
    | (d, .ok ()) => d.applyMeasures rest
    | (d, .error e) => (d, .error e)

/-- The indexed names that are not wanted, the deepest first. -/
def stale (d : Directory F) (wanted : List String) : List String :=
  (d.index.keys.filter fun n => !wanted.contains n).mergeSort fun a b =>
    decide (QueueName.depth b ≤ QueueName.depth a)

/-- Removes a queue if nothing in it holds applications. -/
def prune (d : Directory F) (name : String) : Directory F :=
  match d.index.get? name with
  | some h => if d.isVacant h then d.detach name else d
  | none => d

/-- Brings the directory in line with a configuration. -/
def reload (d : Directory F) (c : QueueConfig F) : Directory F × Except Error Unit :=
  let resolved := do
    let planned ← c.plan
    let policy ← c.policy
    let measures ← d.resolve d.shape planned
    return (planned, policy, measures)
  match resolved with
  | .error e => (d, .error e)
  | .ok (planned, policy, measures) =>
    match d.reconfigure d.top true (.ofOptions c.options true) policy with
    | (d, .error e) => (d, .error e)
    | (d, .ok ()) => match d.applyMeasures (planned.zip measures) with
      | (d, .error e) => (d, .error e)
      | (d, .ok ()) =>
        let wanted := QueueName.root :: planned.map (·.name)
        ((d.stale wanted).foldl prune d, .ok ())

end Directory

end Allotment
