import Allotment.CallQueue.Fair

/-!
# Registered kinds of call queue

A configuration names the kind of its call queue, and a registry knows how to build queues of each
kind. A kind may have a constructor that sees the whole configuration, one that sees the capacity and
one that sees nothing; the one that sees most is used.
-/

namespace Allotment

/-- A call queue: in order of arrival, or fair between callers. -/
inductive CallQueue (F E : Type) where
  | fifo (q : Fifo E)
  | fair (q : FairQueue (DecayRanking F) E)

namespace CallQueue

variable {F E : Type} [Scalar F] [Ranked E]

/-- The name that the queue goes by. -/
def name : CallQueue F E → String
  | fifo q => q.name
  | fair _ => FairQueue.kind

/-- How many elements are queued. -/
def size : CallQueue F E → Nat
  | fifo q => q.size
  | fair q => q.size

/-- How many elements can be queued. -/
def capacity : CallQueue F E → Nat
  | fifo q => q.capacity
  | fair q => q.capacity

/-- Whether nothing is queued. -/
def isEmpty (q : CallQueue F E) : Bool := q.size = 0

/-- Inserts an element, or hands it back. -/
def offer (q : CallQueue F E) (now : Nat) (e : E) : CallQueue F E × Except E Unit :=
  match q with
  | fifo q => match q.push? e with
    | some q => (fifo q, .ok ())
    | none => (fifo q, .error e)
  | fair q => ((fair (q.offer now e).1), (q.offer now e).2)

/-- Takes an element, if there is one. -/
def poll (q : CallQueue F E) : CallQueue F E × Option E :=
  match q with
  | fifo q => match q.pop? with
    | some (e, q) => (fifo q, some e)
    | none => (fifo q, none)
  | fair q => (fair q.poll.1, q.poll.2)

end CallQueue

/-- The constructors of one kind of call queue. The fullest one also sees the time. -/
structure Constructors (F E : Type) where
  full : Option (Nat → CallQueueConfig F → Except Error (CallQueue F E))
  sized : Option (Nat → Except Error (CallQueue F E))
  default : Option (Except Error (CallQueue F E))

/-- The kinds of call queue that can be built. -/
abbrev Registry (F E : Type) := Table String (Constructors F E)

namespace Registry

variable {F E : Type} [Scalar F] [Ranked E]

/-- A kind without constructors. -/
def noConstructors : Constructors F E := ⟨none, none, none⟩

/-- Registers a constructor that sees the time and the whole configuration. -/
def registerFull (r : Registry F E) (kind : String)
    (make : Nat → CallQueueConfig F → Except Error (CallQueue F E)) : Registry F E :=
  r.adjust kind noConstructors fun c => { c with full := some make }

/-- Registers a constructor that sees the capacity. -/
def registerSized (r : Registry F E) (kind : String)
    (make : Nat → Except Error (CallQueue F E)) : Registry F E :=
  r.adjust kind noConstructors fun c => { c with sized := some make }

/-- Registers a constructor that sees nothing. -/
def registerDefault (r : Registry F E) (kind : String) (made : Except Error (CallQueue F E)) :
    Registry F E :=
  r.adjust kind noConstructors fun c => { c with default := some made }

/-- The name under which queues in order of arrival are registered. -/
def fifoKind : String := "fifo"

/-- The registry that knows queues in order of arrival. -/
def withFifo : Registry F E :=
  registerSized Table.empty fifoKind fun capacity => .ok (.fifo (Fifo.new fifoKind capacity))

/-- The registry that knows queues in order of arrival and fair queues. -/
def withDefaults : Registry F E :=
  registerFull withFifo FairQueue.kind fun now c =>
    (FairQueue.ofConfig c.capacity c.scope c.fair now).map .fair

/-- Builds the call queue of a configuration. -/
def build (r : Registry F E) (now : Nat) (c : CallQueueConfig F) : Except Error (CallQueue F E) :=
  match r.get? c.kind with
  | none => .error (.unknownQueueKind c.kind)
  | some k => match k.full, k.sized, k.default with
    | some make, _, _ => make now c
    | none, some make, _ => make c.capacity
    | none, none, some made => made
    | none, none, none => .error (.unknownQueueKind c.kind)

end Registry

end Allotment
