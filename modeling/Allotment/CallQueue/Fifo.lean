/-!
# Bounded queues in order of arrival

A queue holds at least one element and at most as many as its capacity. An insertion into a full
queue is refused and changes nothing.
-/

namespace Allotment

/-- A bounded queue; the oldest element is the first. -/
structure Fifo (E : Type) where
  name : String
  capacity : Nat
  items : List E
  deriving DecidableEq, Repr

namespace Fifo

variable {E : Type}

/-- An empty queue; a capacity of zero is raised to one. -/
def new (name : String) (capacity : Nat) : Fifo E := ⟨name, max capacity 1, []⟩

/-- How many elements are queued. -/
def size (q : Fifo E) : Nat := q.items.length

/-- Whether there is no space. -/
def isFull (q : Fifo E) : Bool := q.capacity ≤ q.items.length

/-- Whether nothing is queued. -/
def isEmpty (q : Fifo E) : Bool := q.items.isEmpty

/-- The queue with an element at the end, if there is space. -/
def push? (q : Fifo E) (e : E) : Option (Fifo E) :=
  if q.isFull then none else some { q with items := q.items ++ [e] }

/-- The oldest element and the queue without it. -/
def pop? (q : Fifo E) : Option (E × Fifo E) :=
  match q.items with
  | [] => none
  | e :: rest => some (e, { q with items := rest })

theorem items_of_push? {q q' : Fifo E} {e : E} (h : q.push? e = some q') :
    q'.items = q.items ++ [e] := by
  simp only [push?] at h
  split at h
  · simp at h
  · cases h
    rfl

theorem items_of_pop? {q q' : Fifo E} {e : E} (h : q.pop? = some (e, q')) :
    q.items = e :: q'.items := by
  simp only [pop?] at h
  split at h
  · simp at h
  · cases h
    assumption

end Fifo

end Allotment
