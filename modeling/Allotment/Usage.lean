import Allotment.Resource
import Allotment.Table

/-!
# Usage by node label

What an application holds and waits for is accounted under labels of nodes, in four accounts each.
A label that was never touched has empty accounts; callers that do not care about labels use the
label `ANY`.
-/

namespace Allotment

/-- What is accounted under a label: resources held, waited for, set aside, and held by the
application's master. -/
structure Account where
  used : Resource
  pending : Resource
  reserved : Resource
  master : Resource
  deriving DecidableEq, Repr

namespace Account

/-- The parts of an account. -/
inductive Part where
  | used
  | pending
  | reserved
  | master
  deriving DecidableEq, Repr

/-- The empty account. -/
def empty : Account := ⟨0, 0, 0, 0⟩

/-- One part of an account. -/
def get (a : Account) : Part → Resource
  | .used => a.used
  | .pending => a.pending
  | .reserved => a.reserved
  | .master => a.master

/-- The account with one part changed. -/
def modify (a : Account) (p : Part) (f : Resource → Resource) : Account :=
  match p with
  | .used => { a with used := f a.used }
  | .pending => { a with pending := f a.pending }
  | .reserved => { a with reserved := f a.reserved }
  | .master => { a with master := f a.master }

end Account

/-- The accounts of an application by label. -/
abbrev Usage := Table String Account

namespace Usage

/-- The label of callers that do not care about labels. -/
def anyLabel : String := "ANY"

/-- One part of the account under a label, zero if the label was never touched. -/
def part (u : Usage) (p : Account.Part) (label : String) : Resource :=
  (((u.get? label).map (·.get p)).getD 0)

/-- The usage with one part under a label changed. -/
def change (u : Usage) (p : Account.Part) (label : String) (f : Resource → Resource) : Usage :=
  u.adjust label Account.empty (·.modify p f)

/-- The resources held without regard to labels. -/
def used (u : Usage) : Resource := part u .used anyLabel

/-- The resources waited for without regard to labels. -/
def pending (u : Usage) : Resource := part u .pending anyLabel

/-- More resources held. -/
def addUsed (u : Usage) (r : Resource) : Usage := change u .used anyLabel (· + r)

/-- Fewer resources held. -/
def dropUsed (u : Usage) (r : Resource) : Usage := change u .used anyLabel (· - r)

/-- More resources waited for. -/
def addPending (u : Usage) (r : Resource) : Usage := change u .pending anyLabel (· + r)

/-- Fewer resources waited for. -/
def dropPending (u : Usage) (r : Resource) : Usage := change u .pending anyLabel (· - r)

end Usage

end Allotment
