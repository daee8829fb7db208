import Allotment.Queue.Basic

/-!
# Usage and demand of queues

A queue uses what its applications hold. Its demand is what they hold and wait for, up to the queue's
maximum share; the walk that brings demands up to date stops at a queue as soon as its maximum is
reached, and what lies behind keeps the demand it had.
-/

namespace Allotment.Queue

variable {F : Type} [Scalar F]

/-- The resources held by the applications of a queue. -/
def usage : Queue F → Resource :=
  fold (fun _ runnable parked => Resource.sum ((runnable ++ parked).map Attempt.used))
    (fun _ entries => Resource.sum (entries.map (·.2)))

/-- What a policy may know of a queue. -/
def standing (q : Queue F) : Standing F where
  name := q.name
  serial := q.info.serial
  priority := 0
  weight := q.info.settings.weight
  minShare := q.info.settings.minShare
  maxShare := q.info.settings.maxShare
  demand := q.info.demand
  usage := q.usage
  fairShare := q.info.fairShare

/-- What a division may know of a queue. -/
def claimant (q : Queue F) : Claimant F :=
  ⟨q.info.serial, q.info.settings.weight, q.info.settings.minShare, q.info.settings.maxShare,
    q.info.demand, q.isActive⟩

/-- Takes renewed members and adds up their demands until a maximum is reached; the members behind
stay as they were. -/
def renewUntil {α : Type} (demandOf : α → Resource) (most : Resource) :
    Resource → List (α × α) → List α × Resource
  | sum, [] => ([], sum)
  | sum, (_, renewed) :: rest =>
    let sum := min (sum + demandOf renewed) most
    if sum = most then (renewed :: rest.map (·.1), sum)
    else
      let (members, total) := renewUntil demandOf most sum rest
      (renewed :: members, total)

/-- The queue with its demand brought up to date. -/
def updateDemand : Queue F → Queue F :=
  fold
    (fun info runnable parked =>
      let (members, demand) := renewUntil Attempt.demand info.settings.maxShare 0
        ((runnable ++ parked).map fun a => (a, a.updateDemand))
      leaf { info with demand := demand } (members.take runnable.length)
        (members.drop runnable.length))
    (fun info entries =>
      let (members, demand) := renewUntil (fun q : Queue F => q.info.demand)
        info.settings.maxShare 0 entries
      parent { info with demand := demand } members)

end Allotment.Queue
