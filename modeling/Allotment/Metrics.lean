import Allotment.Resource
import Allotment.Table

/-!
# Metrics

Gauges and counters, by name within a scope. A gauge holds the last value set, a counter the sum of
its increments up to the largest machine integer.
-/

namespace Allotment

/-- The gauges and counters of one scope. -/
structure Metrics.Scope (F : Type) where
  gauges : Table String F
  counters : Table String UInt64
  deriving DecidableEq

/-- Gauges and counters by scope. -/
abbrev Metrics (F : Type) := Table String (Metrics.Scope F)

namespace Metrics

variable {F : Type}

/-- The scope without gauges and counters. -/
def Scope.empty : Scope F := ⟨Table.empty, Table.empty⟩

/-- Sets a gauge. -/
def gauge (m : Metrics F) (scope name : String) (value : F) : Metrics F :=
  m.adjust scope Scope.empty fun s => { s with gauges := s.gauges.insert name value }

/-- Adds to a counter that starts at zero. -/
def increment (m : Metrics F) (scope name : String) (delta : UInt64) : Metrics F :=
  m.adjust scope Scope.empty fun s =>
    { s with counters := s.counters.adjust name 0 (Amount.plus · delta) }

/-- The value of a gauge. -/
def gauge? (m : Metrics F) (scope name : String) : Option F :=
  (m.get? scope).bind (·.gauges.get? name)

/-- The value of a counter. -/
def counter? (m : Metrics F) (scope name : String) : Option UInt64 :=
  (m.get? scope).bind (·.counters.get? name)

end Metrics

end Allotment
