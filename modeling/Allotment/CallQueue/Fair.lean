import Allotment.CallQueue.Call
import Allotment.CallQueue.Fifo
import Allotment.CallQueue.Ranking
import Allotment.CallQueue.RoundRobin

/-!
# Fair call queues

A fair queue is a row of bounded queues, one for each priority level. An element goes to the level
that its caller's ranking chooses, and keeps that level however often it is refused. Elements are
taken from the levels in weighted round robin; a level without elements gives its turn to the next.

Every accepted element leaves a token, and a taker spends a token before it looks at the levels. The
operations are made of the steps `placeAt?`, `accept`, `spendToken?`, `nextStart` and `takeAt?`, each
of which touches one part of the queue.
-/

namespace Allotment

/-- A queue with a bounded queue for each level. -/
structure FairQueue (σ E : Type) where
  scope : String
  levels : List (Fifo E)
  ranking : σ
  turn : RoundRobin
  tokens : Nat

namespace FairQueue

variable {σ E : Type} [Ranking σ] [Ranked E]

/-- The name under which fair queues are registered. -/
def kind : String := "fair"

/-- An empty queue whose levels share a capacity, if the settings agree with each other. -/
def new (capacity : Nat) (scope : String) (weights : List Nat) (ranking : σ) :
    Except Error (FairQueue σ E) :=
  let refuse (fault : ConstructionFault) := Except.error (Error.queueConstruction kind fault)
  if weights = [] then refuse .noLevels
  else if weights.contains 0 then refuse .zeroWeight
  else if Ranking.levels ranking ≠ weights.length then
    refuse (.levelMismatch (Ranking.levels ranking) weights.length)
  else
    let perLevel := max (capacity / weights.length) 1
    .ok ⟨scope, weights.map fun _ => Fifo.new kind perLevel, ranking, RoundRobin.new weights, 0⟩

/-- How many elements each level holds. -/
def sizes (q : FairQueue σ E) : List Nat := q.levels.map Fifo.size

/-- How many elements are queued. -/
def size (q : FairQueue σ E) : Nat := q.levels.foldr (fun level n => level.size + n) 0

/-- How many elements the levels can hold together. -/
def capacity (q : FairQueue σ E) : Nat := q.levels.foldr (fun level n => level.capacity + n) 0

/-! ## Insertion -/

/-- The level of an element: the one it remembers, or the one that is now chosen for its caller and
remembered. -/
def levelFor (q : FairQueue σ E) (now : Nat) (e : E) : Nat × E × FairQueue σ E :=
  let last := q.levels.length - 1
  match Ranked.level? e with
  | some level => (min level last, e, q)
  | none =>
    let (level, ranking) := Ranking.rank q.ranking now (Ranked.caller e)
    (min level last, Ranked.withLevel e (min level last), { q with ranking := ranking })

/-- The queue with an element at the end of a level, if the level has space. -/
def placeAt? (q : FairQueue σ E) (level : Nat) (e : E) : Option (FairQueue σ E) :=
  match q.levels[level]? with
  | none => none
  | some fifo => (fifo.push? e).map fun fifo => { q with levels := q.levels.set level fifo }

/-- The queue after a caller was charged for an element, with a token for it. -/
def accept (q : FairQueue σ E) (now : Nat) (caller : String) : FairQueue σ E :=
  { q with ranking := Ranking.charge q.ranking now caller, tokens := q.tokens + 1 }

/-- Inserts an element, or hands it back with its level. -/
def offer (q : FairQueue σ E) (now : Nat) (e : E) : FairQueue σ E × Except E Unit :=
  let (level, e, q) := q.levelFor now e
  match q.placeAt? level e with
  | some q => (q.accept now (Ranked.caller e), .ok ())
  | none => (q, .error e)

/-! ## Removal -/

/-- The queue with one token less. -/
def spendToken? (q : FairQueue σ E) : Option (FairQueue σ E) :=
  match q.tokens with
  | 0 => none
  | n + 1 => some { q with tokens := n }

/-- The level at which a search starts, and the queue with the turn moved on. -/
def nextStart (q : FairQueue σ E) : Nat × FairQueue σ E :=
  (q.turn.next.1, { q with turn := q.turn.next.2 })

/-- The oldest element of a level, and the queue without it. -/
def takeAt? (q : FairQueue σ E) (level : Nat) : Option (E × FairQueue σ E) :=
  match q.levels[level]? with
  | none => none
  | some fifo => fifo.pop?.map fun (e, fifo) => (e, { q with levels := q.levels.set level fifo })

/-- The oldest element of the first level that has one, looking at every level once. -/
def scan? (q : FairQueue σ E) (start : Nat) : Option (E × FairQueue σ E) :=
  (List.range q.levels.length).findSome? fun offset => q.takeAt? ((start + offset) % q.levels.length)

/-- Spends tokens until a search finds an element, a number of times at most. -/
def pollTokens : Nat → FairQueue σ E → FairQueue σ E × Option E
  | 0, q => (q, none)
  | n + 1, q => match q.spendToken? with
    | none => (q, none)
    | some q =>
      let (start, q) := q.nextStart
      match q.scan? start with
      | some (e, q) => (q, some e)
      | none => pollTokens n q

/-- Takes the element whose turn it is, if there is one. -/
def poll (q : FairQueue σ E) : FairQueue σ E × Option E := pollTokens q.tokens q

end FairQueue

/-- The fair queue of a configuration, its callers ranked by recent traffic. -/
def FairQueue.ofConfig {F E : Type} [Scalar F] [Ranked E] (capacity : Nat) (scope : String)
    (c : FairConfig F) (now : Nat) : Except Error (FairQueue (DecayRanking F) E) := do
  let ranking ← DecayRanking.ofConfig c now
  FairQueue.new capacity scope c.resolvedWeights ranking

end Allotment
