/-!
# Causes of failure

An operation that cannot be carried out says why. Each cause carries what it is about, and one
function gives the words for all of them. Finding nothing to schedule is no failure.
-/

namespace Allotment

/-- Why a text is not a queue name. -/
inductive NameFault where
  | emptyOrBlank
  | empty
  | dotted
  | blank
  | repeated
  | notRoot
  deriving DecidableEq, Repr

/-- Why a call queue could not be built. -/
inductive ConstructionFault where
  | noLevels
  | zeroWeight
  | levelMismatch (chooser queue : Nat)
  | thresholdCount (levels given : Nat)
  | thresholdOrder
  | decayFactor (shown : String)
  | other (reason : String)
  deriving DecidableEq, Repr

/-- The two kinds of queue in the tree. -/
inductive QueueKind where
  | leaf
  | parent
  deriving DecidableEq, Repr

/-- Why an operation was refused. -/
inductive Error where
  | unknownQueueKind (kind : String)
  | queueConstruction (kind : String) (fault : ConstructionFault)
  | unknownPolicy (name : String)
  | policyNotApplicable (policy queue : String)
  | invalidQueueName (name : String) (fault : NameFault)
  | queueNotFound (name : String)
  | wrongQueueType (name : String) (expected : QueueKind)
  | appNotFound (app : String)
  | accessDenied (user queue : String)
  | queueOverflow
  | shutdown
  | noDrainChecks
  | unreadableFile
  | malformedDocument
  deriving DecidableEq, Repr

/-- The words for a fault in a queue name. -/
def NameFault.message : NameFault → String
  | .emptyOrBlank => "empty component or whitespace"
  | .empty => "empty name component"
  | .dotted => "configured names must not contain '.'"
  | .blank => "whitespace in name"
  | .repeated => "defined twice"
  | .notRoot => "top-level queue must be 'root'"

/-- The words for a fault in building a call queue. -/
def ConstructionFault.message : ConstructionFault → String
  | .noLevels => "at least one priority level is required"
  | .zeroWeight => "level weights must be positive"
  | .levelMismatch chooser queue => s!"scheduler has {chooser} levels, queue has {queue}"
  | .thresholdCount levels given =>
    s!"expected {levels - 1} thresholds for {levels} levels, got {given}"
  | .thresholdOrder => "thresholds must be ascending"
  | .decayFactor shown => s!"decay factor {shown} outside (0, 1)"
  | .other reason => reason

/-- The word for a kind of queue. -/
def QueueKind.word : QueueKind → String
  | .leaf => "leaf"
  | .parent => "parent"

/-- The words for a failure. -/
def Error.message : Error → String
  | .unknownQueueKind kind => s!"no call queue registered under '{kind}'"
  | .queueConstruction kind fault => s!"failed to construct call queue '{kind}': {fault.message}"
  | .unknownPolicy name => s!"unknown scheduling policy '{name}'"
  | .policyNotApplicable policy queue =>
    s!"policy '{policy}' is not applicable to queue '{queue}'"
  | .invalidQueueName name fault => s!"invalid queue name '{name}': {fault.message}"
  | .queueNotFound name => s!"queue '{name}' not found"
  | .wrongQueueType name expected => s!"queue '{name}' is not a {expected.word} queue"
  | .appNotFound app => s!"application '{app}' not found"
  | .accessDenied user queue => s!"user '{user}' cannot submit to queue '{queue}'"
  | .queueOverflow => "call queue is full"
  | .shutdown => "call queue manager shut down"
  | .noDrainChecks =>
    "invalid configuration 'drain.checks': at least one empty observation is required"
  | .unreadableFile => "failed to read configuration"
  | .malformedDocument => "failed to parse configuration"

end Allotment
