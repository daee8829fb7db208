/-!
# Weighted round robin

Levels take turns. A level's turn lasts as many calls as its weight, and a level of weight zero gets
one call all the same; after the last level the first is next.
-/

namespace Allotment

/-- Whose turn it is, and how many calls of the turn are left. -/
structure RoundRobin where
  weights : List Nat
  current : Nat
  credit : Nat
  deriving DecidableEq, Repr

namespace RoundRobin

/-- The start of the first level's turn. -/
def new (weights : List Nat) : RoundRobin := ⟨weights, 0, weights.head?.getD 1⟩

/-- How many levels take turns. -/
def levels (r : RoundRobin) : Nat := r.weights.length

/-- The level to be served, and the state for the next call. -/
def next (r : RoundRobin) : Nat × RoundRobin :=
  let credit := r.credit - 1
  if credit = 0 ∧ r.weights ≠ [] then
    let following := (r.current + 1) % r.levels
    (r.current, { r with current := following, credit := r.weights.getD following 0 })
  else (r.current, { r with credit := credit })

/-- The level that is served is the one whose turn it is. -/
theorem next_fst (r : RoundRobin) : r.next.1 = r.current := by
  unfold next
  simp only
  split <;> rfl

/-- The levels of a number of calls, one after another. -/
def take (r : RoundRobin) : Nat → List Nat
  | 0 => []
  | n + 1 => r.next.1 :: r.next.2.take n

end RoundRobin

end Allotment
