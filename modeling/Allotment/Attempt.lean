import Allotment.Metrics
import Allotment.Node
import Allotment.Policy.Division
import Allotment.Policy.Order
import Allotment.Usage

/-!
# Application attempts

An application asks for containers, a number of equal ones for each priority, and holds those it was
given. Requests are served in the order of their priority numbers, and a container asked back is the
newest of the largest priority number. What it uses and waits for is accounted under the label `ANY`.
-/

namespace Allotment

/-- A wish for a number of equal containers. -/
structure Request where
  priority : Nat
  capability : Resource
  count : Nat
  deriving DecidableEq, Repr

/-- The resources for which a request waits, multiplied in the number type of ratios. -/
def Request.outstanding (F : Type) [Scalar F] (r : Request) : Resource :=
  r.capability.scale (Scalar.ofUInt64 r.count.toUInt64 : F)

/-- A running application. -/
structure Attempt (F : Type) where
  id : String
  user : String
  queue : String
  serial : Nat
  priority : Nat
  weight : F
  usage : Usage
  requests : Table Nat Request
  live : List Container
  preempting : List Nat
  demand : Resource
  fairShare : Resource

/-- A node in the course of being filled, the number of the next container, and the metrics. -/
structure Placement (F : Type) where
  node : Node
  nextContainer : Nat
  metrics : Metrics F

/-- What was asked to serve a node, what became of the node, and what was placed on it. -/
structure Served (F α : Type) where
  subject : α
  placement : Placement F
  resource : Resource

namespace Attempt

variable {F : Type} [Scalar F]

/-- An application that asks for nothing yet. -/
def new (id user queue : String) (priority serial : Nat) : Attempt F where
  id := id
  user := user
  queue := queue
  serial := serial
  priority := priority
  weight := Scalar.one
  usage := Table.empty
  requests := Table.empty
  live := []
  preempting := []
  demand := 0
  fairShare := 0

/-- The resources held. -/
def used (a : Attempt F) : Resource := a.usage.used

/-- What a policy may know of the application. -/
def standing (a : Attempt F) : Standing F where
  name := a.id
  serial := a.serial
  priority := a.priority
  weight := a.weight
  minShare := 0
  maxShare := Resource.unbounded
  demand := a.demand
  usage := a.used
  fairShare := a.fairShare

/-- What a division may know of the application. -/
def claimant (a : Attempt F) : Claimant F :=
  ⟨a.serial, a.weight, 0, Resource.unbounded, a.demand, true⟩

/-- Replaces the request of a priority; a request for nothing only takes the old one back. -/
def ask (a : Attempt F) (r : Request) : Attempt F :=
  let usage := match a.requests.get? r.priority with
    | some previous => a.usage.dropPending (previous.outstanding F)
    | none => a.usage
  let requests := a.requests.erase r.priority
  if r.count = 0 then { a with usage := usage, requests := requests }
  else
    { a with usage := usage.addPending (r.outstanding F), requests := requests.insert r.priority r }

/-- Whether containers are asked for. -/
def hasPending (a : Attempt F) : Bool := a.requests.values.any fun r => 0 < r.count

/-- How many containers are asked for. -/
def pendingCount (a : Attempt F) : Nat := a.requests.values.foldr (fun r n => r.count + n) 0

/-- The demand brought up to date with what is held and waited for. -/
def updateDemand (a : Attempt F) : Attempt F := { a with demand := a.usage.used + a.usage.pending }

/-- The first request that fits. -/
def eligible? (a : Attempt F) (available : Resource) : Option Request :=
  a.requests.values.find? fun r => 0 < r.count && decide (r.capability ≤ available)

/-- The application with one container less to ask for. -/
def takeOne (a : Attempt F) (r : Request) : Attempt F :=
  if r.count = 1 then { a with requests := a.requests.erase r.priority }
  else { a with requests := a.requests.insert r.priority { r with count := r.count - 1 } }

/-- The application with a container more. -/
def hold (a : Attempt F) (c : Container) : Attempt F :=
  { a with
    live := a.live ++ [c]
    usage := (a.usage.dropPending c.resource).addUsed c.resource }

/-- The container that a request gets on a node. -/
def container (a : Attempt F) (r : Request) (node : String) (id : Nat) : Container :=
  ⟨id, a.id, a.queue, node, r.capability, r.priority⟩

/-- Places one container of the first request that fits on a node. -/
def assign (a : Attempt F) (p : Placement F) : Served F (Attempt F) :=
  match a.eligible? p.node.available with
  | none => ⟨a, p, 0⟩
  | some r =>
    match p.node.allocate? r.capability with
    | none => ⟨a, p, 0⟩
    | some node =>
      ⟨(a.takeOne r).hold (a.container r node.id p.nextContainer),
        { p with node := node, nextContainer := p.nextContainer + 1 }, r.capability⟩

/-- Whether a container is asked back no earlier than another: its priority number is larger, or
equal and it is newer. -/
def laterThan (c d : Container) : Bool :=
  d.priority < c.priority || (d.priority = c.priority && d.id ≤ c.id)

/-- The container to be asked back next. -/
def victim? (a : Attempt F) : Option Container :=
  (a.live.filter fun c => !a.preempting.contains c.id).foldl
    (fun best c => match best with
      | none => some c
      | some b => if laterThan c b then some c else some b)
    none

/-- Asks a container back and remembers it, so that it is asked back once. -/
def preempt (a : Attempt F) : Attempt F × Option Container :=
  match a.victim? with
  | none => (a, none)
  | some c => ({ a with preempting := c.id :: a.preempting }, some c)

/-- Gives a container back. -/
def release (a : Attempt F) (id : Nat) : Attempt F × Option Container :=
  match a.live.find? (fun c => c.id = id) with
  | none => (a, none)
  | some c =>
    ({ a with
        live := a.live.eraseP fun c => c.id = id
        preempting := a.preempting.filter (· ≠ id)
        usage := a.usage.dropUsed c.resource }, some c)

/-- Gives all containers back. -/
def releaseAll (a : Attempt F) : Attempt F × List Container :=
  ({ a with
      live := []
      preempting := []
      usage := a.live.foldl (fun u c => u.dropUsed c.resource) a.usage }, a.live)

/-- Gives all containers on a node back. -/
def releaseNode (a : Attempt F) (node : String) : Attempt F :=
  (a.live.filter fun c => c.node = node).foldl (fun a c => (a.release c.id).1) a

end Attempt

/-- Asks one after another to serve a node until one places something on it. -/
def serveFirst {F α : Type} :
    List (α × (Placement F → Served F α)) → Placement F → Served F (List α)
  | [], p => ⟨[], p, 0⟩
  | (_, serve) :: rest, p =>
    let s := serve p
    if s.resource.isZero then
      let t := serveFirst rest s.placement
      ⟨s.subject :: t.subject, t.placement, t.resource⟩
    else ⟨s.subject :: rest.map (·.1), s.placement, s.resource⟩

end Allotment
