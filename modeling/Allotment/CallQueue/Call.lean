/-!
# Calls

A call belongs to the user who made it and remembers the priority level that was chosen for it. A
queue may hold other things than calls, as long as each belongs to someone.
-/

namespace Allotment

/-- A call waiting to be handled. -/
structure Call where
  id : Nat
  user : String
  method : String
  level : Option Nat
  deriving DecidableEq, Repr

/-- What can be queued by priority: it belongs to a caller and may remember a level. -/
class Ranked (E : Type) where
  /-- The caller. -/
  caller : E → String
  /-- The level chosen before, if it is remembered. -/
  level? : E → Option Nat
  /-- The element with a chosen level, if it remembers one. -/
  withLevel : E → Nat → E

instance : Ranked Call where
  caller := Call.user
  level? := Call.level
  withLevel c level := { c with level := some level }

/-- A name alone remembers no level. -/
instance : Ranked String where
  caller s := s
  level? _ := none
  withLevel s _ := s

end Allotment
