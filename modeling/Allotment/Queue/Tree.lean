import Allotment.Queue.Basic
import Allotment.Queue.Plan

/-!
# Building and growing the tree

A tree is built from a configuration, and grows when a queue is asked for that is not there: the
missing part of the path to it is then created. Every queue gets the next serial number.

Operations that may be refused give the tree as it then is together with the outcome.
-/

namespace Allotment

/-- A root queue with everything below it, and the next serial number. -/
structure QueueTree (F : Type) where
  root : Queue F
  nextSerial : Nat

namespace QueueTree

variable {F : Type}

/-- The queue of a full name. -/
def find? (t : QueueTree F) (name : String) : Option (Queue F) := t.root.find? name

/-- The queue that a written name stands for. -/
def lookup? (t : QueueTree F) (name : String) : Option (Queue F) :=
  match QueueName.normalize name with
  | .ok full => t.find? full
  | .error _ => none

/-- The tree with the queue of a full name changed. -/
def modify (t : QueueTree F) (name : String) (f : Queue F → Queue F) : QueueTree F :=
  { t with root := t.root.modify name f }

/-- Texts in order. -/
def sorted (names : List String) : List String := names.mergeSort fun a b => decide (a ≤ b)

/-- The full names of all queues, in order. -/
def names (t : QueueTree F) : List String := sorted (t.root.all.map Queue.name)

/-- The full names of all leaf queues, in order. -/
def leafNames (t : QueueTree F) : List String :=
  sorted ((t.root.all.filter Queue.isLeaf).map Queue.name)

/-- Puts a new queue behind the children of a parent. -/
def create (t : QueueTree F) (kind : QueueKind) (parent name : String)
    (settings : QueueSettings F) (policy : Policy) : QueueTree F × Except Error Unit :=
  match Queue.new? kind false name settings policy t.nextSerial with
  | .error e => (t, .error e)
  | .ok q => (⟨t.root.modify parent (Queue.addChild q), t.nextSerial + 1⟩, .ok ())

/-- Creates a planned queue under its parent. -/
def createPlanned (t : QueueTree F) (p : Planned F) : QueueTree F × Except Error Unit :=
  match (t.find? p.parent).map Queue.kind with
  | some .parent =>
    t.create p.config.kind p.parent p.name (.ofOptions p.config.options false) p.policy
  | some .leaf => (t, .error (.wrongQueueType p.parent .parent))
  | none => (t, .error (.queueNotFound p.parent))

/-- Creates planned queues one after another, up to the first that is refused. -/
def createAll (t : QueueTree F) : List (Planned F) → QueueTree F × Except Error Unit
  | [] => (t, .ok ())
  | p :: rest => match t.createPlanned p with
    | (t, .ok ()) => t.createAll rest
    | (t, .error e) => (t, .error e)

/-- The tree of a configuration. -/
def ofConfig (c : QueueConfig F) : Except Error (QueueTree F) := do
  let planned ← c.plan
  let policy ← c.policy
  let root ← Queue.new? .parent true QueueName.root (.ofOptions c.options true) policy 0
  match createAll ⟨root, 1⟩ planned with
  | (t, .ok ()) => return t
  | (_, .error e) => throw e

section OnDemand

variable [Scalar F]

/-- Follows components from a parent queue downwards and creates what is missing. -/
def descend (kind : QueueKind) : QueueTree F → (parent : String) → List String →
    QueueTree F × Except Error String
  | t, parent, [] => (t, .ok parent)
  | t, parent, c :: rest =>
    let path := QueueName.child parent c
    let wanted : QueueKind := if rest = [] then kind else .parent
    match (t.find? path).map Queue.kind with
    | some found =>
      if found = wanted then descend kind t path rest
      else (t, .error (.wrongQueueType path wanted))
    | none => match t.create wanted parent path .onDemand .fair with
      | (t, .ok ()) => descend kind t path rest
      | (t, .error e) => (t, .error e)

/-- The full name of the queue of a kind that a written name stands for. What is missing on the path
to it is created if that is wanted. -/
def locate (t : QueueTree F) (name : String) (create : Bool) (kind : QueueKind) :
    QueueTree F × Except Error String :=
  match QueueName.normalize name with
  | .error e => (t, .error e)
  | .ok full => match (t.find? full).map Queue.kind with
    | some found =>
      (t, if found = kind then .ok full else .error (.wrongQueueType full kind))
    | none =>
      if create then descend kind t QueueName.root (QueueName.components full).tail
      else (t, .error (.queueNotFound full))

end OnDemand

end QueueTree

end Allotment
