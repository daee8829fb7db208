import Allotment.Queue.Assignment
import Allotment.Queue.Permissions
import Allotment.Queue.Reload
import Allotment.Queue.Shares

/-!
# The scheduler

Nodes come and go, applications are submitted to leaf queues and ask for containers, and a node that
reports in is filled with containers from the top of the queue tree. The shares of the queues are
brought up to date from time to time, and steady shares whenever the cluster or the configuration
changes.

An application is indexed by its id. The index names the application by its serial number; the
application itself is in the tree.
-/

namespace Allotment

/-- The state of the scheduler. -/
structure Scheduler (F : Type) where
  assignMultiple : Bool
  maxAssign : Option Nat
  tree : QueueTree F
  nodes : Table String Node
  apps : Table String Nat
  cluster : Resource
  nextContainer : Nat
  metrics : Metrics F
  running : Bool

namespace Scheduler

variable {F : Type} [Scalar F]

/-- The scheduler of a configuration, without nodes and applications. -/
def ofConfig (c : SchedulerConfig F) : Except Error (Scheduler F) := do
  let tree ← QueueTree.ofConfig c.queues
  return {
    assignMultiple := c.assignMultiple
    maxAssign := c.maxAssign
    tree := tree
    nodes := Table.empty
    apps := Table.empty
    cluster := 0
    nextContainer := 1
    metrics := Table.empty
    running := false }

/-- The scheduler with another root queue. -/
def withRoot (s : Scheduler F) (root : Queue F) : Scheduler F :=
  { s with tree := { s.tree with root := root } }

/-! ## Nodes -/

/-- Steady shares computed anew from the cluster's resource. -/
def refreshSteady (s : Scheduler F) : Scheduler F :=
  let root := s.tree.root.giveSteady s.cluster
  { s.withRoot root with metrics := root.publishBelow s.metrics }

/-- The cluster's resource added up anew, and the steady shares with it. -/
def refreshCluster (s : Scheduler F) : Scheduler F :=
  refreshSteady { s with cluster := Resource.sum (s.nodes.values.map Node.total) }

/-- Registers a node, in place of any node with its id. -/
def addNode (s : Scheduler F) (id : String) (total : Resource) : Scheduler F :=
  refreshCluster { s with nodes := s.nodes.insert id (Node.new id total) }

/-- Takes a node away, and its containers from the indexed applications. -/
def removeNode (s : Scheduler F) (id : String) : Scheduler F × Option Node :=
  match s.nodes.get? id with
  | none => (s, none)
  | some node =>
    let indexed := s.apps.values
    let root := s.tree.root.mapAttempts fun a =>
      if indexed.contains a.serial then a.releaseNode id else a
    (refreshCluster { s.withRoot root with nodes := s.nodes.erase id }, some node)

/-- Gives the resource of a container back to its node, if the node is registered. -/
def freeContainer (nodes : Table String Node) (c : Container) : Table String Node :=
  nodes.modify c.node fun n => n.release c.resource

/-! ## Applications -/

/-- The indexed application of an id. -/
def app? (s : Scheduler F) (id : String) : Option (Attempt F) :=
  (s.apps.get? id).bind fun serial => s.tree.root.attempts.find? fun a => a.serial = serial

/-- The scheduler with the application of a serial number changed. -/
def modifyApp (s : Scheduler F) (serial : Nat) (f : Attempt F → Attempt F) : Scheduler F :=
  s.withRoot (s.tree.root.mapAttempts fun a => if a.serial = serial then f a else a)

/-- Submits an application to a leaf queue, which is created if need be. -/
def submit (s : Scheduler F) (id queue user : String) (priority : Nat) :
    Scheduler F × Except Error (Attempt F) :=
  match s.tree.locate queue true .leaf with
  | (tree, .error e) => ({ s with tree := tree }, .error e)
  | (tree, .ok leaf) =>
    if tree.root.hasAccess leaf .submit user then
      let a : Attempt F := Attempt.new id user leaf priority tree.nextSerial
      let tree := tree.modify leaf (Queue.addAttempt a)
      ({ s with
          tree := { tree with nextSerial := tree.nextSerial + 1 }
          apps := s.apps.insert id a.serial }, .ok a)
    else ({ s with tree := tree }, .error (.accessDenied user leaf))

/-- Takes an application away: its id from the index and from its leaf, and its containers from
their nodes. -/
def removeApp (s : Scheduler F) (id : String) : Scheduler F × Except Error Unit :=
  match s.app? id with
  | none => (s, .error (.appNotFound id))
  | some a =>
    let freed := s.modifyApp a.serial fun a => a.releaseAll.1
    ({ freed with
        apps := s.apps.erase id
        tree := freed.tree.modify a.queue (Queue.removeAttempt id)
        nodes := a.releaseAll.2.foldl freeContainer s.nodes }, .ok ())

/-- Asks for containers in the name of an application. -/
def request (s : Scheduler F) (id : String) (r : Request) : Scheduler F :=
  match s.apps.get? id with
  | none => s
  | some serial => s.modifyApp serial (·.ask r)

/-- Gives a container of an application back. -/
def release (s : Scheduler F) (id : String) (container : Nat) :
    Scheduler F × Except Error (Option Container) :=
  match s.app? id with
  | none => (s, .error (.appNotFound id))
  | some a => match a.release container with
    | (_, none) => (s, .ok none)
    | (b, some c) =>
      ({ s.modifyApp a.serial fun _ => b with nodes := freeContainer s.nodes c }, .ok (some c))

/-! ## Heartbeats and updates -/

/-- What has become of a scheduler and of a node that was offered to one of its queues, and the resource
that the queue has told. -/
structure Offered (F : Type) where
  scheduler : Scheduler F
  node : Node
  resource : Resource

/-- The queue of a full name offered a node, which may be any. The registry is not concerned. -/
def offer (s : Scheduler F) (queue : String) (node : Node) : Offered F :=
  match s.tree.find? queue with
  | none => ⟨s, node, 0⟩
  | some q =>
    let served := q.assign s.cluster ⟨node, s.nextContainer, s.metrics⟩
    { scheduler :=
        { s with
          tree := s.tree.modify queue fun _ => served.subject
          nextContainer := served.placement.nextContainer
          metrics := served.placement.metrics }
      node := served.placement.node
      resource := served.resource }

/-- The registry after a node has become another. A node that is not registered as it is stays out of it. -/
def keepNode (s : Scheduler F) (node node' : Node) : Table String Node :=
  if s.nodes.get? node.id = some node then s.nodes.insert node.id node' else s.nodes

/-- The queue of a full name offered a node, of which the registry keeps track if it is registered. -/
def assignOnce (s : Scheduler F) (queue : String) (node : Node) : Scheduler F × Resource :=
  let offered := s.offer queue node
  ({ offered.scheduler with nodes := s.keepNode node offered.node }, offered.resource)

/-- Whether a heartbeat that has placed a number of containers goes on. -/
def goesOn (s : Scheduler F) (placed : Nat) : Bool :=
  s.assignMultiple && s.maxAssign.all fun most => placed < most

/-- Fills a node from the root queue, a number of times at most. -/
def fill (id : String) : Nat → Scheduler F → (placed : Nat) → Resource → Scheduler F × Resource
  | 0, s, _, total => (s, total)
  | fuel + 1, s, placed, total =>
    match s.nodes.get? id with
    | none => (s, total)
    | some node =>
      let (s, resource) := s.assignOnce QueueName.root node
      if resource.isZero then (s, total)
      else if s.goesOn (placed + 1) then fill id fuel s (placed + 1) (total + resource)
      else (s, total + resource)

/-- A node reports in and is filled with one container, or with several if the configuration says
so. No heartbeat places more containers than are asked for. -/
def heartbeat (s : Scheduler F) (node : String) : Scheduler F × Resource :=
  fill node (s.tree.root.pendingCount + 1) s 0 0

/-- Demands and fair shares brought up to date, and the metrics of the cluster published. -/
def update (s : Scheduler F) : Scheduler F :=
  let root := s.tree.root.updateDemand.giveFair s.cluster
  let metrics := Queue.publish (root.publishBelow s.metrics) root.info
  let metrics := metrics.gauge "cluster" "memory_mb" (Scalar.ofUInt64 s.cluster.memory)
  let metrics := metrics.gauge "cluster" "vcores" (Scalar.ofUInt64 s.cluster.vcores)
  let metrics := metrics.gauge "cluster" "apps" (Scalar.ofUInt64 s.apps.entries.length.toUInt64)
  { s.withRoot root with metrics := metrics }

/-- Begins to bring demands and fair shares up to date at intervals. -/
def start (s : Scheduler F) : Scheduler F := { s with running := true }

/-- Ends the updates at intervals. -/
def stop (s : Scheduler F) : Scheduler F := { s with running := false }

/-- Asks a container back. -/
def preempt (s : Scheduler F) : Scheduler F × Option Container :=
  let (root, victim) := s.tree.root.preempt s.cluster s.tree.root.info.policy.isOver
  match victim with
  | none => (s.withRoot root, none)
  | some c =>
    ({ s.withRoot root with metrics := s.metrics.increment c.queue "preemptions" 1 }, some c)

/-- Brings the scheduler in line with a configuration. -/
def reload (s : Scheduler F) (c : SchedulerConfig F) : Scheduler F × Except Error Unit :=
  match s.tree.reload c.queues with
  | (tree, .error e) => ({ s with tree := tree }, .error e)
  | (tree, .ok ()) =>
    (refreshSteady
      { s with tree := tree, assignMultiple := c.assignMultiple, maxAssign := c.maxAssign }, .ok ())

/-! ## Single queues -/

/-- Sets the policy of the queue of a full name. -/
def setPolicy (s : Scheduler F) (queue : String) (policy : Policy) :
    Scheduler F × Except Error Unit :=
  match s.tree.find? queue with
  | none => (s, .error (.queueNotFound queue))
  | some q => match q.setPolicy (queue = QueueName.root) policy with
    | .ok changed => ({ s with tree := s.tree.modify queue fun _ => changed }, .ok ())
    | .error e => (s, .error e)

/-- Brings the demand of one queue up to date. -/
def updateDemand (s : Scheduler F) (queue : String) : Scheduler F :=
  { s with tree := s.tree.modify queue Queue.updateDemand }

/-- Sets the fair share of one queue without passing it on. -/
def setFairShare (s : Scheduler F) (queue : String) (share : Resource) : Scheduler F :=
  { s with tree := s.tree.modify queue fun q => q.withInfo ({ · with fairShare := share }) }

/-- Computes the fair and steady shares below one queue anew. -/
def recompute (s : Scheduler F) (queue : String) : Scheduler F :=
  match s.tree.find? queue with
  | none => s
  | some q =>
    let renewed := q.recomputeFair.recomputeSteady
    { s with
      tree := s.tree.modify queue fun _ => renewed
      metrics := renewed.publishBelow s.metrics }

/-- Asks one queue for a container back. -/
def preemptIn (s : Scheduler F) (queue : String) : Scheduler F × Option Container :=
  match s.tree.find? queue with
  | none => (s, none)
  | some q =>
    let judge := (s.tree.root.parentOf? queue).getD q.info
    let (asked, victim) := q.preempt s.cluster judge.policy.isOver
    ({ s with tree := s.tree.modify queue fun _ => asked }, victim)

end Scheduler

end Allotment
