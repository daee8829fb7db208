import Allotment.Error
import Allotment.Resource

/-!
# Configurations

What an operator sets: the tree of queues with weights, limits, policies and access lists, how
heartbeats assign, and how the call queue is built, drained and shared between callers. Everything
has a default.

A fair call queue that leaves its weights unset gives each level twice the weight of the next, and
one that leaves its thresholds unset puts the last at one half and each before it at half of the
next.
-/

namespace Allotment

/-- The settings of one configured queue. -/
structure QueueOptions (F : Type) where
  name : String
  weight : F
  minShare : Resource
  maxShare : Option Resource
  policy : Option String
  maxRunningApps : Option Nat
  submitAcl : Option String
  adminAcl : Option String
  forceParent : Bool

/-- A configured queue and those below it. -/
inductive QueueConfig (F : Type) where
  | node (options : QueueOptions F) (children : List (QueueConfig F))

namespace QueueConfig

variable {F : Type}

/-- The settings of a configured queue. -/
def options : QueueConfig F → QueueOptions F
  | node o _ => o

/-- The queues configured directly below a queue. -/
def children : QueueConfig F → List (QueueConfig F)
  | node _ cs => cs

/-- The name of a configured queue. -/
def name (c : QueueConfig F) : String := c.options.name

/-- Whether a queue is to have children: it has some, or is said to be a parent. -/
def isParent (c : QueueConfig F) : Bool := c.options.forceParent || !c.children.isEmpty

/-- The kind of queue that is configured. -/
def kind (c : QueueConfig F) : QueueKind := if c.isParent then .parent else .leaf

end QueueConfig

section Defaults

variable {F : Type} [Scalar F]

/-- The settings of a queue of which only the name is configured. -/
def QueueOptions.named (name : String) : QueueOptions F where
  name := name
  weight := Scalar.one
  minShare := 0
  maxShare := none
  policy := none
  maxRunningApps := none
  submitAcl := none
  adminAcl := none
  forceParent := false

/-- A queue that holds applications. -/
def QueueConfig.leaf (name : String) : QueueConfig F := .node (.named name) []

/-- A queue that holds queues. -/
def QueueConfig.parent (name : String) (children : List (QueueConfig F)) : QueueConfig F :=
  .node { QueueOptions.named name with forceParent := true } children

/-- The queue that is configured where nothing is said. -/
def QueueConfig.default : QueueConfig F := .leaf "root"

instance : Inhabited (QueueConfig F) := ⟨.default⟩

end Defaults

/-- The configuration of the scheduler. -/
structure SchedulerConfig (F : Type) where
  updateIntervalMs : Nat
  assignMultiple : Bool
  maxAssign : Option Nat
  queues : QueueConfig F

/-- The scheduler's configuration where nothing is said. -/
def SchedulerConfig.default {F : Type} [Scalar F] : SchedulerConfig F :=
  ⟨500, false, none, QueueConfig.default⟩

/-- How a replaced call queue is watched until it is empty. -/
structure DrainConfig where
  checks : Nat
  intervalMs : Nat
  deriving DecidableEq, Repr

namespace DrainConfig

/-- Twenty looks, ten milliseconds apart. -/
def default : DrainConfig := ⟨20, 10⟩

/-- Refuses to replace a queue without a look at it. -/
def validate (c : DrainConfig) : Except Error Unit :=
  if c.checks = 0 then .error .noDrainChecks else .ok ()

end DrainConfig

/-- How callers are ranked and how levels are drained in a fair call queue. -/
structure FairConfig (F : Type) where
  levels : Nat
  weights : Option (List Nat)
  thresholds : Option (List F)
  decayFactor : F
  decayPeriodMs : Nat

namespace FairConfig

variable {F : Type} [Scalar F]

/-- Four levels, counts halved every five seconds. -/
def default : FairConfig F where
  levels := 4
  weights := none
  thresholds := none
  decayFactor := Scalar.one / Scalar.two
  decayPeriodMs := 5000

/-- The weights of the levels, in powers of two unless they are set. -/
def resolvedWeights (c : FairConfig F) : List Nat :=
  c.weights.getD ((List.range c.levels).map fun level => Nat.pow 2 (min (c.levels - 1 - level) 63))

/-- The thresholds between the levels, in powers of one half unless they are set. -/
def resolvedThresholds (c : FairConfig F) : List F :=
  c.thresholds.getD ((List.range (max c.levels 1 - 1)).map fun i =>
    Scalar.one / Scalar.pow Scalar.two (max c.levels 1 - (i + 1)))

end FairConfig

/-- The configuration of a call queue. -/
structure CallQueueConfig (F : Type) where
  kind : String
  capacity : Nat
  scope : String
  clientBackoff : Bool
  takePollIntervalMs : Nat
  drain : DrainConfig
  fair : FairConfig F

namespace CallQueueConfig

variable {F : Type} [Scalar F]

/-- A queue for a thousand calls in order of arrival. -/
def default : CallQueueConfig F where
  kind := "fifo"
  capacity := 1000
  scope := "ipc"
  clientBackoff := false
  takePollIntervalMs := 10
  drain := DrainConfig.default
  fair := FairConfig.default

/-- How long one wait for a call or for space lasts, at least a millisecond. -/
def pollIntervalMs (c : CallQueueConfig F) : Nat := max c.takePollIntervalMs 1

end CallQueueConfig

/-- The whole configuration. -/
structure Config (F : Type) where
  scheduler : SchedulerConfig F
  callQueue : CallQueueConfig F

/-- The configuration where nothing is said. -/
def Config.default {F : Type} [Scalar F] : Config F :=
  ⟨SchedulerConfig.default, CallQueueConfig.default⟩

end Allotment
