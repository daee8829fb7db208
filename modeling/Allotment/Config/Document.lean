import Allotment.Config
import Allotment.Json.Record

/-!
# Configurations in documents

Every record of a configuration may be written as an object or as a list, and a field that is not
given has its default. Only a resource needs both of its fields.
-/

namespace Allotment

open Json (Value)
open Json.Value

/-- Reads a resource. -/
def Resource.ofValue? : Nat → Value → Option Resource
  | 0, _ => none
  | _ + 1, v => match record? ["memory_mb", "vcores"] v with
    | some [memory, vcores] => do
      let memory ← field? nat? memory
      let vcores ← field? nat? vcores
      return ⟨memory.toUInt64, vcores.toUInt64⟩
    | _ => none

/-- The fields of a configured queue, in the order in which a list gives them. -/
def QueueOptions.fields : List String :=
  ["name", "weight", "min_share", "max_share", "policy", "max_running_apps", "acl_submit_apps",
    "acl_administer_queue", "parent", "children"]

/-- Reads a configured queue and those below it. -/
def QueueConfig.ofValue? : Nat → Value → Option (QueueConfig Float)
  | 0, _ => none
  | depth + 1, v => match record? QueueOptions.fields v with
    | some [name, weight, minShare, maxShare, policy, maxRunningApps, submitAcl, adminAcl, parent,
        children] => do
      let d : QueueOptions Float := .named "root"
      let options : QueueOptions Float := {
        name := ← fieldOr d.name string? name
        weight := ← fieldOr d.weight float? weight
        minShare := ← fieldOr d.minShare (Resource.ofValue? depth) minShare
        maxShare := ← fieldOr d.maxShare (orNull? (Resource.ofValue? depth)) maxShare
        policy := ← fieldOr d.policy (orNull? string?) policy
        maxRunningApps := ← fieldOr d.maxRunningApps (orNull? nat?) maxRunningApps
        submitAcl := ← fieldOr d.submitAcl (orNull? string?) submitAcl
        adminAcl := ← fieldOr d.adminAcl (orNull? string?) adminAcl
        forceParent := ← fieldOr d.forceParent bool? parent }
      let children ← match children, depth with
        | none, _ => some []
        | some (.array items), below + 1 => items.mapM (QueueConfig.ofValue? below)
        | some _, _ => none
      return .node options children
    | _ => none

/-- Reads the configuration of the scheduler. -/
def SchedulerConfig.ofValue? : Nat → Value → Option (SchedulerConfig Float)
  | 0, _ => none
  | depth + 1, v =>
    match record? ["update_interval_ms", "assign_multiple", "max_assign", "queues"] v with
    | some [interval, multiple, most, queues] => do
      let d : SchedulerConfig Float := .default
      return {
        updateIntervalMs := ← fieldOr d.updateIntervalMs nat? interval
        assignMultiple := ← fieldOr d.assignMultiple bool? multiple
        maxAssign := ← fieldOr d.maxAssign (orNull? nat?) most
        queues := ← fieldOr d.queues (QueueConfig.ofValue? depth) queues }
    | _ => none

/-- Reads how a replaced call queue is watched. -/
def DrainConfig.ofValue? : Nat → Value → Option DrainConfig
  | 0, _ => none
  | _ + 1, v => match record? ["checks", "interval_ms"] v with
    | some [checks, interval] => do
      return {
        checks := ← fieldOr DrainConfig.default.checks nat? checks
        intervalMs := ← fieldOr DrainConfig.default.intervalMs nat? interval }
    | _ => none

/-- Reads the configuration of a fair call queue. -/
def FairConfig.ofValue? : Nat → Value → Option (FairConfig Float)
  | 0, _ => none
  | depth + 1, v =>
    match record? ["levels", "weights", "thresholds", "decay_factor", "decay_period_ms"] v with
    | some [levels, weights, thresholds, factor, period] => do
      let d : FairConfig Float := .default
      return {
        levels := ← fieldOr d.levels nat? levels
        weights := ← fieldOr d.weights (orNull? (list? (fun _ => nat?) depth)) weights
        thresholds := ← fieldOr d.thresholds (orNull? (list? (fun _ => float?) depth)) thresholds
        decayFactor := ← fieldOr d.decayFactor float? factor
        decayPeriodMs := ← fieldOr d.decayPeriodMs nat? period }
    | _ => none

/-- The fields of a call queue's configuration, in the order in which a list gives them. -/
def CallQueueConfig.fields : List String :=
  ["kind", "capacity", "namespace", "client_backoff", "take_poll_interval_ms", "drain", "fair"]

/-- Reads the configuration of a call queue. -/
def CallQueueConfig.ofValue? : Nat → Value → Option (CallQueueConfig Float)
  | 0, _ => none
  | depth + 1, v => match record? CallQueueConfig.fields v with
    | some [kind, capacity, scope, backoff, interval, drain, fair] => do
      let d : CallQueueConfig Float := .default
      return {
        kind := ← fieldOr d.kind string? kind
        capacity := ← fieldOr d.capacity nat? capacity
        scope := ← fieldOr d.scope string? scope
        clientBackoff := ← fieldOr d.clientBackoff bool? backoff
        takePollIntervalMs := ← fieldOr d.takePollIntervalMs nat? interval
        drain := ← fieldOr d.drain (DrainConfig.ofValue? depth) drain
        fair := ← fieldOr d.fair (FairConfig.ofValue? depth) fair }
    | _ => none

namespace Config

/-- Reads a whole configuration. -/
def ofValue? : Nat → Value → Option (Config Float)
  | 0, _ => none
  | depth + 1, v => match record? ["scheduler", "call_queue"] v with
    | some [scheduler, callQueue] => do
      let d : Config Float := .default
      return {
        scheduler := ← fieldOr d.scheduler (SchedulerConfig.ofValue? depth) scheduler
        callQueue := ← fieldOr d.callQueue (CallQueueConfig.ofValue? depth) callQueue }
    | _ => none

/-- The configuration that a text is. -/
def ofText (s : String) : Except Error (Config Float) :=
  match (Value.ofText? s).bind (ofValue? Json.depthLimit) with
  | some c => .ok c
  | none => .error .malformedDocument

/-- The configuration in a file, given what is stored under its path. -/
def ofFile (stored : Option ByteArray) : Except Error (Config Float) :=
  match stored.bind String.fromUTF8? with
  | some s => ofText s
  | none => .error .unreadableFile

end Config

end Allotment
