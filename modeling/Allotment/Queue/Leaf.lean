import Allotment.Queue.Basic

/-!
# Applications of a leaf

A leaf runs as many applications as its limit allows and parks the others in the order of their
submission. A place that becomes free goes to the application that was parked first.
-/

namespace Allotment.Queue

variable {F : Type}

/-- Parked applications moved up while there is space among the runnable ones. -/
def promote (limit : Nat) (runnable parked : List (Attempt F)) :
    List (Attempt F) × List (Attempt F) :=
  let free := limit - runnable.length
  (runnable ++ parked.take free, parked.drop free)

/-- The leaf with an application more, parked if there is no space for it. -/
def addAttempt (a : Attempt F) : Queue F → Queue F
  | leaf info runnable parked =>
    if runnable.length < info.settings.limit then leaf info (runnable ++ [a]) parked
    else leaf info runnable (parked ++ [a])
  | parent info children => parent info children

/-- The leaf with parked applications moved up into free space. -/
def promoteParked : Queue F → Queue F
  | leaf info runnable parked =>
    let (runnable, parked) := promote info.settings.limit runnable parked
    leaf info runnable parked
  | parent info children => parent info children

/-- The leaf without the first application of an id, and parked ones moved up. -/
def removeAttempt (id : String) : Queue F → Queue F
  | leaf info runnable parked =>
    if runnable.any (·.id = id) then
      (leaf info (runnable.eraseP (·.id = id)) parked).promoteParked
    else (leaf info runnable (parked.eraseP (·.id = id))).promoteParked
  | parent info children => parent info children

end Allotment.Queue
