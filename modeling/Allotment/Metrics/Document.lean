import Allotment.Error
import Allotment.Json.Record
import Allotment.Metrics

/-!
# Metrics in documents

The metrics of all scopes are written as one document, scopes and names in order and the gauges of a
scope before its counters. A gauge without a finite value is written as `null`, which does not read
back. A scope that is read may leave out its gauges or its counters.
-/

namespace Allotment.Metrics

open Json (Value Number)
open Json.Value

/-- A gauge as a value. -/
def gaugeValue (x : Float) : Value :=
  match Number.ofFloat? x with
  | some n => .number n
  | none => .null

/-- A table as an object. -/
def tableValue {α : Type} (f : α → Value) (t : Table String α) : Value :=
  ofFields (t.entries.map fun e => (e.1, f e.2))

/-- The gauges and counters of a scope as a value. -/
def Scope.toValue (s : Scope Float) : Value :=
  ofFields [("gauges", tableValue gaugeValue s.gauges),
    ("counters", tableValue (fun c => ofNat c.toNat) s.counters)]

/-- The metrics of all scopes as a value. -/
def toValue (m : Metrics Float) : Value := ofFields [("scopes", tableValue Scope.toValue m)]

/-- The metrics of all scopes as a text. -/
def toText (m : Metrics Float) : String := m.toValue.render

/-- Reads the gauges and counters of a scope. -/
def Scope.ofValue? : Nat → Value → Option (Scope Float)
  | 0, _ => none
  | depth + 1, v => match record? ["gauges", "counters"] v with
    | some [gauges, counters] => do
      return {
        gauges := ← fieldOr Table.empty (table? (fun _ => float?) depth) gauges
        counters := ← fieldOr Table.empty
          (table? (fun _ v => v.nat?.map Nat.toUInt64) depth) counters }
    | _ => none

/-- Reads the metrics of all scopes. -/
def ofValue? : Nat → Value → Option (Metrics Float)
  | 0, _ => none
  | depth + 1, v => match record? ["scopes"] v with
    | some [scopes] => field? (table? Scope.ofValue? depth) scopes
    | _ => none

/-- The metrics that a text describes. -/
def ofText (s : String) : Except Error (Metrics Float) :=
  match (Value.ofText? s).bind (ofValue? Json.depthLimit) with
  | some m => .ok m
  | none => .error .malformedDocument

end Allotment.Metrics
