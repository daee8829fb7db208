import Allotment.Config
import Allotment.Table

/-!
# Ranking of callers

A ranking chooses a priority level for a caller, level zero being the best, and is told of every call
that a queue accepts. Three are here: one level for all, levels fixed by a table, and levels by how
much of the recent traffic a caller makes.

The last counts calls and lets the counts decay: after each period every count is multiplied by a
factor, and a caller whose count falls below one half is forgotten. Time is given in nanoseconds.
-/

namespace Allotment

/-- A way to choose levels for callers. -/
class Ranking (σ : Type) where
  /-- How many levels there are. -/
  levels : σ → Nat
  /-- The level of a caller at a time. -/
  rank : σ → (now : Nat) → (caller : String) → Nat × σ
  /-- The ranking after a call of a caller was accepted. -/
  charge : σ → (now : Nat) → (caller : String) → σ

/-- The best level for every caller. -/
structure UniformRanking where
  levels : Nat
  deriving DecidableEq, Repr

instance : Ranking UniformRanking where
  levels := UniformRanking.levels
  rank r _ _ := (0, r)
  charge r _ _ := r

/-- A fixed level for each caller of a table, the best for all others. -/
structure TableRanking where
  levels : Nat
  table : Table String Nat

instance : Ranking TableRanking where
  levels := TableRanking.levels
  rank r _ caller := ((r.table.get? caller).getD 0, r)
  charge r _ _ := r

/-- Levels by a caller's part of the recent calls. -/
structure DecayRanking (F : Type) where
  levels : Nat
  thresholds : List F
  factor : F
  periodNs : Nat
  counts : Table String F
  total : F
  lastDecay : Nat

namespace DecayRanking

variable {F : Type} [Scalar F]

/-- The count below which a caller is forgotten. -/
def forgetBelow : F := Scalar.one / Scalar.two

/-- Whether a threshold is greater than the one after it. -/
def descends : List F → Bool
  | a :: b :: rest => Scalar.lt b a || descends (b :: rest)
  | _ => false

/-- Whether a factor lies strictly between zero and one. -/
def isFraction (factor : F) : Bool :=
  Scalar.lt Scalar.zero factor && Scalar.lt factor Scalar.one

/-- A ranking without counts, if its settings agree with each other. -/
def new (levels : Nat) (thresholds : List F) (factor : F) (periodNs now : Nat) :
    Except Error (DecayRanking F) :=
  let refuse (fault : ConstructionFault) := Except.error (Error.queueConstruction "fair" fault)
  if levels = 0 then refuse .noLevels
  else if thresholds.length ≠ levels - 1 then refuse (.thresholdCount levels thresholds.length)
  else if descends thresholds then refuse .thresholdOrder
  else if !isFraction factor then refuse (.decayFactor (Scalar.text factor))
  else .ok ⟨levels, thresholds, factor, periodNs, Table.empty, Scalar.zero, now⟩

/-- The ranking of a configuration. -/
def ofConfig (c : FairConfig F) (now : Nat) : Except Error (DecayRanking F) :=
  new c.levels c.resolvedThresholds c.decayFactor (c.decayPeriodMs * 1000000) now

/-- The count of a caller. -/
def count (r : DecayRanking F) (caller : String) : F := (r.counts.get? caller).getD Scalar.zero

/-- Whether a factor is zero. -/
def isZero (factor : F) : Bool := Scalar.le factor Scalar.zero && Scalar.le Scalar.zero factor

/-- The counts multiplied by a factor, small ones forgotten. -/
def decayCounts (counts : Table String F) (factor : F) : Table String F :=
  if isZero factor then Table.empty
  else counts.filterMap fun _ c =>
    if Scalar.le forgetBelow (c * factor) then some (c * factor) else none

/-- The ranking with its counts multiplied by a factor. -/
def decayBy (r : DecayRanking F) (factor : F) : DecayRanking F :=
  let counts := decayCounts r.counts factor
  { r with counts := counts, total := Scalar.sum counts.values }

/-- One decay out of turn; the next is due a whole period later. -/
def decay (r : DecayRanking F) (now : Nat) : DecayRanking F :=
  { r.decayBy r.factor with lastDecay := now }

/-- The most periods that are made up for by a power of the factor. -/
def maxPower : Nat := 0x7FFFFFFF

/-- The most periods by which the time of the last decay is moved on. -/
def maxPeriods : Nat := 0xFFFFFFFF

/-- The factor of a number of periods. -/
def factorOf (r : DecayRanking F) (periods : Nat) : F :=
  if periods ≤ maxPower then Scalar.pow r.factor periods else Scalar.zero

/-- The ranking with the decay of all whole periods since the last one. -/
def catchUp (r : DecayRanking F) (now : Nat) : DecayRanking F :=
  let periods := (now - r.lastDecay) / r.periodNs
  if periods = 0 then r
  else
    { r.decayBy (r.factorOf periods) with
      lastDecay := if periods ≤ maxPeriods then r.lastDecay + periods * r.periodNs else now }

/-- One more than the place of the last threshold that a share reaches, zero if it reaches none. -/
def levelOf (share : F) : List F → Nat
  | [] => 0
  | t :: rest =>
    match levelOf share rest with
    | 0 => if Scalar.le t share then 1 else 0
    | n + 1 => n + 2

/-- The level of a caller by its part of the counted calls. -/
def levelFor (r : DecayRanking F) (caller : String) : Nat :=
  if Scalar.le r.total Scalar.zero then 0 else levelOf (r.count caller / r.total) r.thresholds

/-- One more call counted. -/
def addCall (r : DecayRanking F) (caller : String) : DecayRanking F :=
  { r with
    counts := r.counts.adjust caller Scalar.zero (· + Scalar.one)
    total := r.total + Scalar.one }

instance : Ranking (DecayRanking F) where
  levels := DecayRanking.levels
  rank r now caller := ((r.catchUp now).levelFor caller, r.catchUp now)
  charge r now caller := (r.catchUp now).addCall caller

end DecayRanking

end Allotment
