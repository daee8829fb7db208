import Allotment.Text.Blank

/-!
# Access lists

An access list names the users who may do something with a queue, or lets everyone do it. It is
written as `*` or as user names with commas between them; blanks around a name do not count.
-/

namespace Allotment

/-- What a user may be allowed to do with a queue. -/
inductive Permission where
  | submit
  | administer
  deriving DecidableEq, Repr

/-- Both permissions, in the order in which reports list them. -/
def Permission.all : List Permission := [.submit, .administer]

/-- The users who have a permission. -/
inductive AccessList where
  | everyone
  | only (users : List String)
  deriving DecidableEq, Repr

namespace AccessList

/-- The list that lets no one in. -/
def nobody : AccessList := .only []

/-- Whether a user is on the list. -/
def allows : AccessList → String → Bool
  | everyone, _ => true
  | only users, user => users.contains user

/-- Reads an access list. -/
def ofText (text : String) : AccessList :=
  let text := Text.trim text
  if text = "*" then everyone
  else only (((Text.split ',' text).map Text.trim).filter (· ≠ ""))

end AccessList

end Allotment
