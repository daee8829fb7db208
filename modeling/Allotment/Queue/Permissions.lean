import Allotment.Queue.Basic

/-!
# Permissions on queues

A permission on a queue extends to every queue below it: a user has it where the queue or one of the
queues above lists the user.
-/

namespace Allotment.Queue

variable {F : Type}

/-- Whether a user has a permission on the queue of a name. -/
def hasAccess (q : Queue F) (name : String) (p : Permission) (user : String) : Bool :=
  ((q.path? name).getD []).any fun info => (info.settings.acl p).allows user

/-- The permissions of a user on a queue and all below it, given those on the queue above. -/
def permissions (user : String) : Queue F → (Permission → Bool) → List (String × List Permission) :=
  let here (info : QueueInfo F) (above : Permission → Bool) (p : Permission) : Bool :=
    (info.settings.acl p).allows user || above p
  fold
    (fun info _ _ above => [(info.name, Permission.all.filter (here info above))])
    (fun info entries above =>
      (info.name, Permission.all.filter (here info above)) ::
        (entries.map fun e => e.2 (here info above)).flatten)

/-- The permissions of a user on all queues of a tree, parents before their children. -/
def permissionsOf (q : Queue F) (user : String) : List (String × List Permission) :=
  q.permissions user fun _ => false

end Allotment.Queue
