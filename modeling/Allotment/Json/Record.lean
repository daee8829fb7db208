import Allotment.Json.Value
import Allotment.Table

/-!
# Reading typed values

A record is written as an object or as the list of its fields. Unknown fields of an object are
skipped and a known field may be given once; a list may stop early but not go on too long. Values
that are read may nest 127 deep; what is skipped may nest as deep as it likes.

Each reader of something that nests takes the depth that is left.
-/

namespace Allotment.Json

/-- How deep values that are read may nest. -/
def depthLimit : Nat := 127

namespace Value

/-- A machine integer. -/
def nat? : Value → Option Nat
  | number n => n.toNat?
  | _ => none

/-- A double. -/
def float? : Value → Option Float
  | number n => n.toFloat?
  | _ => none

/-- A truth value. -/
def bool? : Value → Option Bool
  | bool b => some b
  | _ => none

/-- A text. -/
def string? : Value → Option String
  | string s => s
  | _ => none

/-- A value or `null`. -/
def orNull? {α : Type} (read : Value → Option α) : Value → Option (Option α)
  | null => some none
  | v => (read v).map some

/-- A list of values. -/
def list? {α : Type} (read : Nat → Value → Option α) : Nat → Value → Option (List α)
  | depth + 1, array items => items.mapM (read depth)
  | _, _ => none

/-- The named entries of an object. -/
def entries? (fields : List (Option String × Value)) : Option (List (String × Value)) :=
  fields.mapM fun f => f.1.map fun k => (k, f.2)

/-- A table whose keys may be given again, the last value counting. -/
def table? {α : Type} (read : Nat → Value → Option α) : Nat → Value → Option (Table String α)
  | depth + 1, object fields => do
    let entries ← entries? fields
    let entries ← entries.mapM fun e => (read depth e.2).map fun v => (e.1, v)
    return Table.ofList entries
  | _, _ => none

/-- The values of a record's fields, in the order of their names. -/
def record? (names : List String) : Value → Option (List (Option Value))
  | array items =>
    if items.length ≤ names.length then
      some (items.map some ++ List.replicate (names.length - items.length) none)
    else none
  | object fields => do
    let entries ← entries? fields
    if names.all fun n => (entries.filter fun e => e.1 = n).length ≤ 1 then
      return names.map fun n => (entries.find? fun e => e.1 = n).map (·.2)
    else none
  | _ => none

/-- The value of a field that has a default. -/
def fieldOr {α : Type} (default : α) (read : Value → Option α) : Option Value → Option α
  | none => some default
  | some v => read v

/-- The value of a field that has no default. -/
def field? {α : Type} (read : Value → Option α) (v : Option Value) : Option α := v.bind read

end Value

end Allotment.Json
