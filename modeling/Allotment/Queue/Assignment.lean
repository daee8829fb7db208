import Allotment.Queue.Usage

/-!
# Assignment and preemption

A queue with room below its maximum share offers a node to its children in the order of its policy,
and the first that can use the node gets it. Asking a container back goes the other way: at each
queue the child that the policy ranks last is asked, down to a leaf whose usage its parent's policy
judges to be over the leaf's fair share.
-/

namespace Allotment.Queue

variable {F : Type} [Scalar F]

/-- Counts a container assigned in a leaf, if something was placed. -/
def countAssigned (name : String) (resource : Resource) (p : Placement F) : Placement F :=
  if resource.isZero then p
  else { p with metrics := p.metrics.increment name "containers_assigned" 1 }

/-- Offers a node to the applications of a queue and places at most one container that is not
empty. -/
def assign (cluster : Resource) : Queue F → Placement F → Served F (Queue F) :=
  fold
    (fun info runnable parked p =>
      let q := leaf info runnable parked
      if info.settings.hasHeadroom q.usage then
        let ranked := info.policy.sort cluster Attempt.standing runnable
        let s := serveFirst (ranked.map fun a => (a, a.assign)) p
        ⟨leaf info s.subject parked, countAssigned info.name s.resource s.placement, s.resource⟩
      else ⟨q, p, 0⟩)
    (fun info entries p =>
      let q := parent info (entries.map (·.1))
      if info.settings.hasHeadroom q.usage then
        let ranked := info.policy.sort cluster (fun e => e.1.standing) entries
        let s := serveFirst ranked p
        ⟨parent info s.subject, s.placement, s.resource⟩
      else ⟨q, p, 0⟩)

/-- Asks the element at a place, and puts back what became of it. -/
def askAt {α : Type} (ask : α → α × Option Container) (place : Option Nat) (xs : List α) :
    List α × Option Container :=
  match place.bind (xs[·]?), place with
  | some x, some i => (xs.set i (ask x).1, (ask x).2)
  | _, _ => (xs, none)

/-- Asks a container back. The second argument judges whether a usage is over a fair share, by the
policy of the queue above. -/
def preempt (cluster : Resource) :
    Queue F → (Resource → Resource → Bool) → Queue F × Option Container :=
  fold
    (fun info runnable parked isOver =>
      let q := leaf info runnable parked
      if isOver q.usage info.fairShare then
        let last := info.policy.lastRanked? cluster Attempt.standing runnable
        let (runnable, victim) := askAt Attempt.preempt last runnable
        (leaf info runnable parked, victim)
      else (q, none))
    (fun info entries _ =>
      let last := info.policy.lastRanked? cluster (fun e => e.1.standing) entries
      let asked := entries.map fun e => (e.1, e.2 info.policy.isOver)
      match last.bind (asked[·]?), last with
      | some (_, (child, victim)), some i => (parent info ((entries.map (·.1)).set i child), victim)
      | _, _ => (parent info (entries.map (·.1)), none))

/-- How many containers the runnable applications of a queue ask for. -/
def pendingCount : Queue F → Nat :=
  fold (fun _ runnable _ => runnable.foldr (fun a n => a.pendingCount + n) 0)
    (fun _ entries => entries.foldr (fun e n => e.2 + n) 0)

end Allotment.Queue
