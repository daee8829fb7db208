import Allotment.Queue.Usage

/-!
# Shares of queues

A queue passes its share on to its children by its policy. The fair share follows demand and reaches
the applications; the steady share follows the settings alone and stops at the leaves. Both are
published as gauges under the name of the queue.
-/

namespace Allotment.Queue

variable {F : Type} [Scalar F]

/-- The queue with a fair share, passed on to everything below. -/
def giveFair : Queue F → Resource → Queue F :=
  fold
    (fun info runnable parked share =>
      let shares := info.policy.shares .moment share (runnable.map Attempt.claimant)
      leaf { info with fairShare := share }
        (List.zipWith (fun a s => { a with fairShare := s }) runnable shares) parked)
    (fun info entries share =>
      let shares := info.policy.shares .moment share (entries.map fun e => e.1.claimant)
      parent { info with fairShare := share } (List.zipWith (fun e s => e.2 s) entries shares))

/-- The queue with a steady share, passed on to the queues below. -/
def giveSteady : Queue F → Resource → Queue F :=
  fold
    (fun info runnable parked share => leaf { info with steadyShare := share } runnable parked)
    (fun info entries share =>
      let shares := info.policy.shares .steady share (entries.map fun e => e.1.claimant)
      parent { info with steadyShare := share } (List.zipWith (fun e s => e.2 s) entries shares))

/-- Fair shares computed anew below a queue. -/
def recomputeFair (q : Queue F) : Queue F := q.giveFair q.info.fairShare

/-- Steady shares computed anew below a queue. -/
def recomputeSteady (q : Queue F) : Queue F := q.giveSteady q.info.steadyShare

/-- An amount as the value of a gauge. -/
def gaugeOf (a : Amount) : F := Scalar.ofUInt64 a

/-- Publishes the shares of one queue. -/
def publish (m : Metrics F) (info : QueueInfo F) : Metrics F :=
  let m := m.gauge info.name "fair_share_mb" (gaugeOf info.fairShare.memory)
  let m := m.gauge info.name "fair_share_vcores" (gaugeOf info.fairShare.vcores)
  let m := m.gauge info.name "steady_fair_share_mb" (gaugeOf info.steadyShare.memory)
  m.gauge info.name "steady_fair_share_vcores" (gaugeOf info.steadyShare.vcores)

/-- Publishes the shares of all queues below a queue. -/
def publishBelow (q : Queue F) (m : Metrics F) : Metrics F :=
  q.descendants.foldl (fun m r => publish m r.info) m

end Allotment.Queue
