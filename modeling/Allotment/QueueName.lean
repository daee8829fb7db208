import Allotment.Error
import Allotment.Text.Blank

/-!
# Names of queues

A queue is named by the path that leads to it from the root: `root`, or `root.` and components
without dots or blanks. A name may be written relative to the root; `normalize` completes it.
-/

namespace Allotment.QueueName

/-- The name of the root queue. -/
def root : String := "root"

/-- The name of a child of the queue called `parent`. -/
def child (parent component : String) : String := parent ++ "." ++ component

/-- The components of a name. -/
def components (name : String) : List String := Text.split '.' name

/-- Whether a text may stand between two dots of a full name. -/
def isComponent (s : String) : Bool := s ≠ "" && !Text.hasBlank s

/-- Whether a trimmed name starts at the root already. -/
def isAbsolute (s : String) : Bool := s = root || "root.".toList.isPrefixOf s.toList

/-- The full name that a written name stands for. -/
def normalize (name : String) : Except Error String :=
  let trimmed := Text.trim name
  let full := if isAbsolute trimmed then trimmed else child root trimmed
  if (components full).all isComponent then .ok full
  else .error (.invalidQueueName name .emptyOrBlank)

/-- The fault of a configured component, if it has one. -/
def fault? (component : String) : Option NameFault :=
  if component = "" then some .empty
  else if component.toList.contains '.' then some .dotted
  else if Text.hasBlank component then some .blank
  else none

/-- How many dots a name has. -/
def depth (name : String) : Nat := name.toList.count '.'

end Allotment.QueueName
