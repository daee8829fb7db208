import Allotment.CallQueue.Switchboard
import Allotment.Proofs.CallQueue.Contents
import Allotment.Scalar.Double
import Mathlib.Data.List.Basic

/-!
# Runs of a switchboard

Any number of tasks share a switchboard, each at its own place, and at every moment any one of them
may make its next step. A run is such a sequence of steps in any order, with new tasks beginning and
with the switchboard shut down at any time, and the clock may show anything at a step. One step of a
task reads a reference or does one operation on one queue.

The history of a run lists what its steps did to the queues and to the two references, the newest
event first. It is read off the switchboard and the task before the step.
-/

namespace Allotment

/-- What a step did: a queue came into being with what it held, an element went into a queue or out
of it at the hands of the party at a place, new calls were sent from an old queue to a new one that
is to be watched for a number of looks, the old queue was looked at, or calls began to be taken from
a new queue. -/
inductive Event (E : Type) where
  | opened (queue : ℕ) (held : Multiset E)
  | inserted (party queue : ℕ) (e : E)
  | removed (party queue : ℕ) (e : E)
  | turned (old new checks : ℕ)
  | looked (old new : ℕ) (empty : Bool)
  | moved (new : ℕ)

namespace Task

variable {F E : Type}

/-- Whether a task stands at the beginning of an operation. -/
def IsFirst : Task F E → Prop
  | put _ | offer false _ | add _ | take | poll _ | swap _ => True
  | _ => False

/-- Whether an operation has ended. -/
def IsFinished (task : Task F E) : Prop := ∃ o, task = finished o

/-- Whether a task is a swap that has begun, and keeps other swaps waiting. -/
def InSwap : Task F E → Prop
  | swapLocked _ | swapOpen _ | swapBuilt _ _ | swapPut _ _ _ | swapKnobs _ _ _ => True
  | draining _ _ _ _ | sleeping _ _ _ _ | swapTake _ | swapCount => True
  | _ => False

/-- The queue from which a task is about to take. -/
def source? : Task F E → Option ℕ
  | taking queue | polling queue _ _ => some queue
  | _ => none

/-- The queue that a swap has built and not yet sent calls to. -/
def built? : Task F E → Option ℕ
  | swapBuilt _ new | swapPut _ _ new => some new
  | _ => none

end Task

namespace Switchboard

variable {F E : Type}

/-- The elements in the queue at a place. -/
def contentsAt (m : Switchboard F E) (queue : ℕ) : Multiset E :=
  (m.queues[queue]?.map CallQueue.contents).getD 0

/-- What the history lists when the party at a place looks for an element in a queue. -/
def removal? (m : Switchboard F E) (party queue : ℕ) : Option (Event E) :=
  (m.takeFrom queue).2.map (.removed party queue)

variable [Scalar F] [Ranked E]

/-- What the history lists when the party at a place tries to insert an element into a queue. -/
def insertion? (m : Switchboard F E) (now party queue : ℕ) (e : E) : Option (Event E) :=
  m.queues[queue]?.bind fun q => match (q.offer now e).2 with
    | .ok () => some (.inserted party queue (q.kept now e))
    | .error _ => none

/-- What the next step of the party at a place does, if it does something that the history lists. -/
def event? (m : Switchboard F E) (now party : ℕ) : Task F E → Option (Event E)
  | .inserting queue e | .offering _ queue e => m.insertion? now party queue e
  | .taking queue | .polling queue _ _ => m.removal? party queue
  | .swapOpen c => match c.drain.validate, m.registry.build now c with
    | .ok (), .ok q => some (.opened m.queues.length q.contents)
    | _, _ => none
  | .swapPut c old new => some (.turned old new c.drain.checks)
  | .sleeping _ old new _ => some (.looked old new (decide (m.sizeOf old = 0)))
  | .swapTake new => some (.moved new)
  | _ => none

end Switchboard

/-- A switchboard and the tasks at it, each at its place. -/
structure Traffic (F E : Type) where
  board : Switchboard F E
  tasks : List (Task F E)

namespace Traffic

variable {F E : Type} [Scalar F] [Ranked E]

/-- One step: a task begins, the task at a place goes on, or the switchboard is shut down. -/
inductive Step : Traffic F E → Option (Event E) → Traffic F E → Prop where
  | begin (m : Switchboard F E) (tasks : List (Task F E)) (task : Task F E) (hfirst : task.IsFirst) :
      Step ⟨m, tasks⟩ none ⟨m, tasks ++ [task]⟩
  | advance (m m' : Switchboard F E) (tasks : List (Task F E)) (now place : ℕ) (task task' : Task F E)
      (hplace : tasks[place]? = some task) (hstep : m.step? now task = some (m', task')) :
      Step ⟨m, tasks⟩ (m.event? now place task) ⟨m', tasks.set place task'⟩
  | shutDown (m : Switchboard F E) (tasks : List (Task F E)) :
      Step ⟨m, tasks⟩ none ⟨m.shutDown, tasks⟩

/-- The histories and the states of the runs that begin with the switchboard of a configuration. -/
inductive Run : List (Event E) → Traffic F E → Prop where
  | start (registry : Registry F E) (now : ℕ) (c : CallQueueConfig F) (m : Switchboard F E)
      (hmade : Switchboard.ofConfig registry now c = .ok m) :
      Run [.opened 0 (m.contentsAt 0)] ⟨m, []⟩
  | step (log : List (Event E)) (t t' : Traffic F E) (ev : Option (Event E)) (hrun : Run log t)
      (hstep : Step t ev t') : Run (ev.toList ++ log) t'

omit [Scalar F] [Ranked E] in
/-- Whether no operation is in progress. -/
def AtRest (t : Traffic F E) : Prop := ∀ task ∈ t.tasks, task.IsFinished

/-- A history and the traffic after the task at a place has gone on, if it can. -/
def advance (now : ℕ) (s : List (Event E) × Traffic F E) (place : ℕ) :
    List (Event E) × Traffic F E :=
  match s.2.tasks[place]? with
  | none => s
  | some task => match s.2.board.step? now task with
    | none => s
    | some (m, task') =>
      ((s.2.board.event? now place task).toList ++ s.1, ⟨m, s.2.tasks.set place task'⟩)

/-- Tasks that begin before anything else make a run. -/
theorem Run.begin_all {log : List (Event E)} {t : Traffic F E} (h : Run log t)
    (tasks : List (Task F E)) (hfirst : ∀ task ∈ tasks, task.IsFirst) :
    Run log ⟨t.board, t.tasks ++ tasks⟩ := by
  induction tasks generalizing t with
  | nil => simpa using h
  | cons task rest ih =>
    have hnext : Run log ⟨t.board, t.tasks ++ [task]⟩ :=
      .step log t _ none h (.begin t.board t.tasks task (hfirst task List.mem_cons_self))
    simpa using ih hnext fun task' htask' => hfirst task' (List.mem_cons_of_mem task htask')

/-- Tasks that go on one after another make a run. -/
theorem Run.advance_all {s : List (Event E) × Traffic F E} (h : Run s.1 s.2) (now : ℕ)
    (places : List ℕ) : Run (places.foldl (advance now) s).1 (places.foldl (advance now) s).2 := by
  induction places generalizing s with
  | nil => exact h
  | cons place rest ih =>
    apply ih
    unfold advance
    split
    · exact h
    · rename_i task hplace
      split
      · exact h
      · rename_i m task' hstep
        exact .step s.1 s.2 _ _ h (.advance s.2.board m s.2.tasks now place task task' hplace hstep)

/-- A queue with space for one element, and swaps that look once at the old queue. -/
def narrow : CallQueueConfig Float :=
  { CallQueueConfig.default with capacity := 1, drain := ⟨1, 0⟩ }

/-- A switchboard with space for one element. -/
def narrowBoard : Switchboard Float String where
  scope := narrow.scope
  registry := .withFifo
  queues := [.fifo (Fifo.new Registry.fifoKind 1)]
  putRef := 0
  takeRef := 0
  clientBackoff := narrow.clientBackoff
  pollMs := narrow.pollIntervalMs
  swapping := false
  shutdown := false
  metrics := Table.empty

/-- The history and the traffic after some tasks began where there is space for one element, and then
went on in the order of their places. -/
def narrowRun (tasks : List (Task Float String)) (places : List ℕ) :
    List (Event String) × Traffic Float String :=
  places.foldl (advance 0) ([.opened 0 0], ⟨narrowBoard, tasks⟩)

/-- Tasks that go on where there is space for one element make a run. -/
theorem run_narrowRun (tasks : List (Task Float String)) (hfirst : ∀ task ∈ tasks, task.IsFirst)
    (places : List ℕ) : Run (narrowRun tasks places).1 (narrowRun tasks places).2 := by
  have hstart : Run [.opened 0 (narrowBoard.contentsAt 0)] ⟨narrowBoard, []⟩ :=
    .start .withFifo 0 narrow narrowBoard rfl
  have hbegun := hstart.begin_all tasks hfirst
  exact hbegun.advance_all 0 places

end Traffic

/-! ## Reading a history -/

section History

variable {E : Type}

/-- The elements that an event brings into a queue. -/
def Event.cameTo (queue : ℕ) : Event E → Multiset E
  | .opened q held => if q = queue then held else 0
  | .inserted _ q e => if q = queue then {e} else 0
  | _ => 0

/-- The elements that an event takes out of a queue. -/
def Event.leftFrom (queue : ℕ) : Event E → Multiset E
  | .removed _ q e => if q = queue then {e} else 0
  | _ => 0

/-- The elements that ever came into a queue. -/
def entered (queue : ℕ) (log : List (Event E)) : Multiset E := (log.map (Event.cameTo queue)).sum

/-- The elements that were ever taken out of a queue. -/
def departed (queue : ℕ) (log : List (Event E)) : Multiset E := (log.map (Event.leftFrom queue)).sum

/-- Whether everything that came into a queue has been taken out again. -/
def Balanced (queue : ℕ) (log : List (Event E)) : Prop := entered queue log = departed queue log

/-- Whether calls have ever been taken from a queue. -/
def InService (log : List (Event E)) (queue : ℕ) : Prop := queue = 0 ∨ .moved queue ∈ log

/-- Looks at old queues: the old queue, the new one, and whether the old one was empty. -/
def looks (log : List (Event E)) : List (ℕ × ℕ × Bool) :=
  log.filterMap fun
    | .looked old new empty => some (old, new, empty)
    | _ => none

/-- Whether an event sends calls elsewhere or is a look. -/
def Event.IsWatch : Event E → Prop
  | .turned _ _ _ | .looked _ _ _ => True
  | _ => False

/-- Whether an event concerns the two references or is a look. -/
def Event.IsSwap : Event E → Prop
  | .inserted _ _ _ | .removed _ _ _ => False
  | _ => True

@[simp] theorem entered_cons (queue : ℕ) (ev : Event E) (log : List (Event E)) :
    entered queue (ev :: log) = ev.cameTo queue + entered queue log := by
  simp [entered]

@[simp] theorem departed_cons (queue : ℕ) (ev : Event E) (log : List (Event E)) :
    departed queue (ev :: log) = ev.leftFrom queue + departed queue log := by
  simp [departed]

@[simp] theorem entered_append (queue : ℕ) (later earlier : List (Event E)) :
    entered queue (later ++ earlier) = entered queue later + entered queue earlier := by
  simp [entered]

@[simp] theorem departed_append (queue : ℕ) (later earlier : List (Event E)) :
    departed queue (later ++ earlier) = departed queue later + departed queue earlier := by
  simp [departed]

end History

end Allotment
