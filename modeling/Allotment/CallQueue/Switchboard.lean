import Allotment.CallQueue.Registry
import Allotment.Metrics

/-!
# Switchboards

A switchboard stands between those who make calls and those who handle them. Its call queue can be
swapped while it works: new calls go to the new queue at once, and calls are taken from the old one
until it was seen empty often enough in a row.

Many parties work at a switchboard at the same time. An operation is therefore a task that goes on in
small steps, each of which looks at or changes one thing; `step?` carries out one step. A task that
cannot insert or take now goes back to its beginning, and may try again. The steps of different tasks
may follow each other in any order.
-/

namespace Allotment

/-- What an operation at a switchboard has come to. -/
inductive Outcome (E : Type) where
  | done
  | taken (e : E)
  | nothing
  | refused (e : E)
  | failed (cause : Error)

/-- A switchboard. Every queue that was ever built is kept, and queues are named by their places: new
calls go to `putRef`, and calls are taken from `takeRef`. -/
structure Switchboard (F E : Type) where
  scope : String
  registry : Registry F E
  queues : List (CallQueue F E)
  putRef : Nat
  takeRef : Nat
  clientBackoff : Bool
  pollMs : Nat
  swapping : Bool
  shutdown : Bool
  metrics : Metrics F

/-- An operation at a switchboard and how far it has come. -/
inductive Task (F E : Type) where
  | put (e : E)
  | insert (queue : Nat) (e : E)
  | inserting (queue : Nat) (e : E)
  | offer (counted : Bool) (e : E)
  | offerOpen (counted : Bool) (e : E)
  | offering (counted : Bool) (queue : Nat) (e : E)
  | add (e : E)
  | addOpen (e : E)
  | take
  | takeOpen
  | taking (queue : Nat)
  | poll (deadline : Nat)
  | pollOpen (deadline : Nat)
  | polling (queue deadline remaining : Nat)
  | swap (c : CallQueueConfig F)
  | swapLocked (c : CallQueueConfig F)
  | swapOpen (c : CallQueueConfig F)
  | swapBuilt (c : CallQueueConfig F) (new : Nat)
  | swapPut (c : CallQueueConfig F) (old new : Nat)
  | swapKnobs (c : CallQueueConfig F) (old new : Nat)
  | draining (c : CallQueueConfig F) (old new seen : Nat)
  | sleeping (c : CallQueueConfig F) (old new seen : Nat)
  | swapTake (new : Nat)
  | swapCount
  | finished (o : Outcome E)

namespace Switchboard

variable {F E : Type} [Scalar F] [Ranked E]

/-- The switchboard of a configuration. -/
def ofConfig (registry : Registry F E) (now : Nat) (c : CallQueueConfig F) :
    Except Error (Switchboard F E) := do
  c.drain.validate
  let queue ← registry.build now c
  return {
    scope := c.scope
    registry := registry
    queues := [queue]
    putRef := 0
    takeRef := 0
    clientBackoff := c.clientBackoff
    pollMs := c.pollIntervalMs
    swapping := false
    shutdown := false
    metrics := Table.empty }

/-! ## Views -/

/-- The queue to which new calls go. -/
def putQueue? (m : Switchboard F E) : Option (CallQueue F E) := m.queues[m.putRef]?

/-- How many elements a queue holds. -/
def sizeOf (m : Switchboard F E) (queue : Nat) : Nat := (m.queues[queue]?.map CallQueue.size).getD 0

/-- How many elements wait, in the queue that is drained as well as in the new one. -/
def size (m : Switchboard F E) : Nat :=
  if m.takeRef = m.putRef then m.sizeOf m.takeRef else m.sizeOf m.takeRef + m.sizeOf m.putRef

/-- How many elements the queue for new calls can hold. -/
def capacity (m : Switchboard F E) : Nat := (m.putQueue?.map CallQueue.capacity).getD 0

/-- The kind of the queue for new calls. -/
def kind (m : Switchboard F E) : String := (m.putQueue?.map CallQueue.name).getD ""

/-- Whether an old queue is drained. -/
def isDraining (m : Switchboard F E) : Bool := m.takeRef ≠ m.putRef

/-- Publishes the size, the capacity and whether a queue is drained. -/
def publish (m : Switchboard F E) : Switchboard F E :=
  let metrics := m.metrics.gauge m.scope "size" (Scalar.ofUInt64 m.size.toUInt64)
  let metrics := metrics.gauge m.scope "capacity" (Scalar.ofUInt64 m.capacity.toUInt64)
  { m with
    metrics := metrics.gauge m.scope "draining" (if m.isDraining then Scalar.one else Scalar.zero) }

/-- Refuses all further work. -/
def shutDown (m : Switchboard F E) : Switchboard F E := { m with shutdown := true }

/-! ## Steps -/

/-- Inserts an element into a queue, or hands it back. -/
def offerTo (m : Switchboard F E) (now queue : Nat) (e : E) : Switchboard F E × Except E Unit :=
  match m.queues[queue]? with
  | none => (m, .error e)
  | some q => ({ m with queues := m.queues.set queue (q.offer now e).1 }, (q.offer now e).2)

/-- Takes an element from a queue, if it has one. -/
def takeFrom (m : Switchboard F E) (queue : Nat) : Switchboard F E × Option E :=
  match m.queues[queue]? with
  | none => (m, none)
  | some q => ({ m with queues := m.queues.set queue q.poll.1 }, q.poll.2)

/-- The end of an offer that was refused: the element is handed back, or the refusal is counted as
an overflow. -/
def refuse (m : Switchboard F E) (counted : Bool) (e : E) : Switchboard F E × Task F E :=
  if counted then
    ({ m with metrics := m.metrics.increment m.scope "overflows" 1 },
      .finished (.failed .queueOverflow))
  else (m, .finished (.refused e))

/-- The end of a swap, which lets the next one begin. -/
def endSwap (m : Switchboard F E) (o : Outcome E) : Switchboard F E × Task F E :=
  ({ m with swapping := false }, .finished o)

/-- The next step of a task at a time in nanoseconds. A finished task has none, and neither has a
swap that waits for another one to end. -/
def step? (m : Switchboard F E) (now : Nat) : Task F E → Option (Switchboard F E × Task F E)
  | .put e => some (m, .insert m.putRef e)
  | .insert queue e =>
    if m.shutdown then some (m, .finished (.failed .shutdown)) else some (m, .inserting queue e)
  | .inserting queue e => match m.offerTo now queue e with
    | (m, .ok ()) => some (m, .finished .done)
    | (m, .error e) => some (m, .insert queue e)
  | .offer counted e =>
    if m.shutdown then some (m.refuse counted e) else some (m, .offerOpen counted e)
  | .offerOpen counted e => some (m, .offering counted m.putRef e)
  | .offering counted queue e => match m.offerTo now queue e with
    | (m, .ok ()) => some (m, .finished .done)
    | (m, .error e) => some (m.refuse counted e)
  | .add e => some (m, if m.clientBackoff then .addOpen e else .put e)
  | .addOpen e =>
    if m.shutdown then some (m, .finished (.failed .shutdown)) else some (m, .offer true e)
  | .take => if m.shutdown then some (m, .finished (.failed .shutdown)) else some (m, .takeOpen)
  | .takeOpen => some (m, .taking m.takeRef)
  | .taking queue => match m.takeFrom queue with
    | (m, some e) => some (m, .finished (.taken e))
    | (m, none) => some (m, .take)
  | .poll deadline =>
    if m.shutdown then some (m, .finished .nothing) else some (m, .pollOpen deadline)
  | .pollOpen deadline => some (m, .polling m.takeRef deadline (deadline - now))
  | .polling queue deadline remaining => match m.takeFrom queue with
    | (m, some e) => some (m, .finished (.taken e))
    | (m, none) =>
      if remaining = 0 then some (m, .finished .nothing) else some (m, .poll deadline)
  | .swap c => if m.swapping then none else some ({ m with swapping := true }, .swapLocked c)
  | .swapLocked c =>
    if m.shutdown then some (m.endSwap (.failed .shutdown)) else some (m, .swapOpen c)
  | .swapOpen c => match c.drain.validate, m.registry.build now c with
    | .error e, _ => some (m.endSwap (.failed e))
    | .ok (), .error e => some (m.endSwap (.failed e))
    | .ok (), .ok q =>
      some ({ m with queues := m.queues ++ [q] }, .swapBuilt c m.queues.length)
  | .swapBuilt c new => some (m, .swapPut c m.putRef new)
  | .swapPut c old new => some ({ m with putRef := new }, .swapKnobs c old new)
  | .swapKnobs c old new =>
    some ({ m with clientBackoff := c.clientBackoff, pollMs := c.pollIntervalMs },
      .draining c old new 0)
  | .draining c old new seen =>
    if c.drain.checks ≤ seen then some (m, .swapTake new)
    else if m.shutdown then some (m.endSwap (.failed .shutdown))
    else some (m, .sleeping c old new seen)
  | .sleeping c old new seen =>
    some (m, .draining c old new (if m.sizeOf old = 0 then seen + 1 else 0))
  | .swapTake new => some ({ m with takeRef := new }, .swapCount)
  | .swapCount =>
    some (endSwap { m with metrics := m.metrics.increment m.scope "swaps" 1 } .done)
  | .finished _ => none

end Switchboard

end Allotment
