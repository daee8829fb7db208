import Allotment.CallQueue.Switchboard

/-!
# Timelines

A timeline lets several parties work at one switchboard on a simulated clock. Whoever can get on does
so at once, those who came first before the others; only when nobody can, the clock moves on to the
end of the next wait. A party waits while it finds no space or no call, for one poll interval at a
time, and between two looks at a queue that is drained.

A wait that has ended takes a moment to be noticed by the one who waits. A swap that looks at its old
queue without pause does not wait at all, so it sees the queue empty before anyone else gets on.
-/

namespace Allotment

/-- A party at a switchboard: its name, its task, the time at which its wait ends, in milliseconds,
and how many waits have ended in vain. -/
structure Party (F E : Type) where
  handle : String
  task : Task F E
  wake : Nat
  timeouts : Nat

/-- A switchboard, the parties at it in the order in which they came, and the time in
milliseconds. -/
structure Timeline (F E : Type) where
  board : Switchboard F E
  parties : List (Party F E)
  now : Nat

/-- How long a task may wait before its next step, in milliseconds. -/
def Task.wait? {F E : Type} (m : Switchboard F E) : Task F E → Option Nat
  | .inserting _ _ | .taking _ => some m.pollMs
  | .polling _ _ remaining => some (min (remaining / 1000000) m.pollMs)
  | .sleeping c _ _ _ => some (max c.drain.intervalMs 1)
  | _ => none

/-- Whether a task is a drain without pauses that has something to notice now. -/
def Task.isUrgent {F E : Type} (m : Switchboard F E) : Task F E → Bool
  | .draining c _ _ _ => c.drain.intervalMs = 0
  | .sleeping c old _ _ => c.drain.intervalMs = 0 && m.sizeOf old = 0
  | _ => false

/-- What a task has come to, if it is finished. -/
def Task.outcome? {F E : Type} : Task F E → Option (Outcome E)
  | .finished o => some o
  | _ => none

namespace Timeline

variable {F E : Type} [Scalar F] [Ranked E]

/-- The time in nanoseconds. -/
def nanos (t : Timeline F E) : Nat := t.now * 1000000

/-- Whether a waiting task finds now what it waits for. -/
def prospers (t : Timeline F E) : Task F E → Bool
  | .inserting queue e => match (t.board.offerTo t.nanos queue e).2 with
    | .ok () => true
    | .error _ => false
  | .taking queue | .polling queue _ _ => (t.board.takeFrom queue).2.isSome
  | _ => false

/-- Whether a task that finds nothing has waited in vain. -/
def isVain (t : Timeline F E) : Task F E → Bool
  | .inserting queue e => !t.prospers (.inserting queue e)
  | .taking queue => !t.prospers (.taking queue)
  | _ => false

/-- Whether a party need not wait any longer. -/
def isReady (t : Timeline F E) (p : Party F E) : Bool :=
  (p.task.wait? t.board).isNone || p.task.isUrgent t.board || t.prospers p.task || p.wake ≤ t.now

/-- The timeline after the party at a place has made a step, if it can make one now. -/
def moveAt? (t : Timeline F E) (place : Nat) : Option (Timeline F E) := do
  let p ← t.parties[place]?
  if !t.isReady p then none
  let (board, task) ← t.board.step? t.nanos p.task
  let wake := t.now + (task.wait? board).getD 0
  let timeouts := if t.isVain p.task then p.timeouts + 1 else p.timeouts
  return { t with
    board := board
    parties := t.parties.set place { p with task := task, wake := wake, timeouts := timeouts } }

/-- The places of the parties in the order in which they may get on, urgent ones first. -/
def turns (t : Timeline F E) : List Nat :=
  let isUrgentAt (place : Nat) := (t.parties[place]?.map (·.task.isUrgent t.board)).getD false
  let (urgent, others) := (List.range t.parties.length).partition isUrgentAt
  urgent ++ others

/-- The timeline after the first party that can make a step has made it. -/
def move? (t : Timeline F E) : Option (Timeline F E) := t.turns.findSome? t.moveAt?

/-- The timeline at the end of the next wait, if a party waits. -/
def jump? (t : Timeline F E) : Option (Timeline F E) :=
  let wakes := (t.parties.filter fun p => (p.task.wait? t.board).isSome).map (·.wake)
  wakes.min?.map fun wake => { t with now := max t.now wake }

/-- Lets the parties work until a condition holds or nothing can happen any more, for a number of
steps at most. -/
def runUntil (stop : Timeline F E → Bool) : Nat → Timeline F E → Timeline F E
  | 0, t => t
  | fuel + 1, t =>
    if stop t then t
    else match t.move? with
      | some t => runUntil stop fuel t
      | none => match t.jump? with
        | some t => runUntil stop fuel t
        | none => t

/-- Lets the parties do what they can without time passing. -/
def settle : Nat → Timeline F E → Timeline F E
  | 0, t => t
  | fuel + 1, t => match t.move? with
    | some t => settle fuel t
    | none => t

/-- The most steps that are made for one operation. -/
def stepLimit : Nat := 100000000

/-- What the party at a place has come to, if its task is finished. -/
def outcomeAt? (t : Timeline F E) (place : Nat) : Option (Outcome E) :=
  t.parties[place]?.bind fun p => p.task.outcome?

/-- The timeline without the party at a place, and what that party has come to; a party that is not
finished stays. -/
def leave (t : Timeline F E) (place : Nat) : Timeline F E × Option (Outcome E) :=
  match t.outcomeAt? place with
  | none => (settle stepLimit t, none)
  | some o => (settle stepLimit { t with parties := t.parties.eraseIdx place }, some o)

/-- Starts a task and follows it to its end, or until a condition on the timeline and on its party
leaves it to itself. There is no outcome in the second case. -/
def follow (t : Timeline F E) (handle : String) (task : Task F E)
    (isLeft : Timeline F E → Party F E → Bool) : Timeline F E × Option (Outcome E) :=
  let place := t.parties.length
  let started := { t with parties := t.parties ++ [⟨handle, task, t.now, 0⟩] }
  let stop (t : Timeline F E) := match t.parties[place]? with
    | none => true
    | some p => p.task.outcome?.isSome || isLeft t p
  (runUntil stop stepLimit started).leave place

/-- Follows a task to its end. -/
def await (t : Timeline F E) (task : Task F E) : Timeline F E × Option (Outcome E) :=
  t.follow "" task fun _ _ => false

/-- Follows a task until it has waited once in vain. -/
def tryOnce (t : Timeline F E) (handle : String) (task : Task F E) :
    Timeline F E × Option (Outcome E) :=
  t.follow handle task fun _ p => 0 < p.timeouts

/-- Follows a swap until a queue is drained, and unless the swap is left alone anyway, until there is
something to drain. -/
def trySwap (t : Timeline F E) (handle : String) (c : CallQueueConfig F) (alone : Bool) :
    Timeline F E × Option (Outcome E) :=
  t.follow handle (.swap c) fun t _ =>
    !t.board.shutdown && t.board.isDraining && (alone || 0 < t.board.size)

/-- Waits for the party of a name that came last. -/
def join (t : Timeline F E) (handle : String) : Timeline F E × Option (Outcome E) :=
  match (t.parties.zipIdx.filter fun e => e.1.handle = handle).getLast? with
  | none => (t, none)
  | some (_, place) =>
    (runUntil (fun t => (t.outcomeAt? place).isSome) stepLimit t).leave place

/-- Refuses all further work. -/
def shutDown (t : Timeline F E) : Timeline F E :=
  settle stepLimit { t with board := t.board.shutDown }

end Timeline

end Allotment
