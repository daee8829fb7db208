import Allotment.Proofs.Queue.Effect

/-!
# How many containers are asked for

The containers that the runnable applications of a queue ask for are counted leaf by leaf. Putting
children in order leaves the count as it is, and a container that an application receives takes one off
it, so a queue cannot take offers for ever. Requests that are for something stay so.
-/

namespace Allotment

open scoped List

variable {F : Type}

namespace Attempt

/-- The containers asked for are those of all requests. -/
theorem pendingCount_eq (a : Attempt F) :
    a.pendingCount = (a.requests.entries.map fun e => e.2.count).sum := by
  rw [pendingCount, Table.values, List.foldr_map, List.sum, List.foldr_map]

variable {a b : Attempt F} {r : Request} {c : Container}

/-- A request that is found under its priority, with one container taken off it, is one container less. -/
theorem pendingCount_takeOne (h : a.requests.get? r.priority = some r) (hpos : 0 < r.count) :
    (a.takeOne r).pendingCount + 1 = a.pendingCount := by
  have hbefore := ((Table.entries_perm_of_get? h).map fun e => e.2.count).sum_nat
  rw [List.map_cons, List.sum_cons] at hbefore
  rw [pendingCount_eq, pendingCount_eq, hbefore, takeOne]
  split
  · rename_i hone
    rw [hone, Nat.add_comm]
  · have hafter := ((a.requests.entries_insert_perm r.priority
      { r with count := r.count - 1 }).map fun e => e.2.count).sum_nat
    rw [List.map_cons, List.sum_cons] at hafter
    simp only [hafter]
    omega

/-- An application that has received a container asks as if that was taken off the request. -/
theorem Receives.requests_eq (h : a.Receives b r c) : b.requests = (a.takeOne r).requests := by
  apply Table.ext_get?
  intro priority
  by_cases hpriority : r.priority = priority
  · subst hpriority
    rw [h.request, takeOne]
    split
    · rw [Table.get?_erase, if_pos rfl]
    · rw [Table.get?_insert, if_pos rfl]
  · rw [h.others priority (Ne.symm hpriority), takeOne]
    split
    · rw [Table.get?_erase, if_neg hpriority]
    · rw [Table.get?_insert, if_neg hpriority]

/-- An application that has received a container asks for one less. -/
theorem Receives.pendingCount (h : a.Receives b r c) (hpos : 0 < r.count) :
    b.pendingCount + 1 = a.pendingCount := by
  rw [pendingCount_eq b, h.requests_eq, ← pendingCount_eq]
  exact pendingCount_takeOne h.asked hpos

/-- Whatever an application asks for after it has received a container, it asked for before. -/
theorem Receives.capability_mem (h : a.Receives b r c) {r' : Request} (hr' : r' ∈ b.requests.values) :
    ∃ asked ∈ a.requests.values, asked.capability = r'.capability := by
  obtain ⟨priority, hfound⟩ := Table.mem_values_iff.mp hr'
  by_cases hpriority : priority = r.priority
  · rw [hpriority, h.request] at hfound
    split at hfound
    · contradiction
    · obtain rfl := Option.some.inj hfound
      exact ⟨r, Table.mem_values_iff.mpr ⟨_, h.asked⟩, rfl⟩
  · rw [h.others priority hpriority] at hfound
    exact ⟨r', Table.mem_values_iff.mpr ⟨priority, hfound⟩, rfl⟩

end Attempt

namespace Queue

/-- The applications in a queue that may run, leaf by leaf. -/
def running (q : Queue F) : List (Attempt F) := q.all.flatMap runnable

@[simp] theorem running_leaf (info : QueueInfo F) (runnable parked : List (Attempt F)) :
    (leaf info runnable parked).running = runnable := by
  simp [running, Queue.runnable]

theorem running_parent (info : QueueInfo F) (children : List (Queue F)) :
    (parent info children).running = [] ++ children.flatMap running := by
  rw [running, all_parent, List.flatMap_cons, List.flatMap_assoc]
  rfl

/-- The containers asked for in a queue are those that applications ask for that may run. -/
theorem pendingCount_eq [Scalar F] (q : Queue F) :
    q.pendingCount = (q.running.map Attempt.pendingCount).sum := by
  induction q using Queue.induction with
  | leaf info runnable parked =>
    rw [pendingCount, fold_leaf, running_leaf, List.sum_eq_foldr, List.foldr_map]
  | parent info children ih =>
    rw [running_parent, List.nil_append, List.map_flatMap, List.flatMap_def, List.sum_flatten,
      List.map_map, pendingCount, fold_parent, List.foldr_map, ← pendingCount, List.sum_eq_foldr,
      List.foldr_map]
    exact List.foldr_ext _ _ _ fun c hc n => congrArg (· + n) (ih c hc)

variable {l : QueueInfo F} {a b : Attempt F} {q q' : Queue F}

/-- Exchanging an application exchanges it among those that may run. -/
theorem Exchanged.running (h : Exchanged l a b q q') :
    ∃ rest, q.running ~ a :: rest ∧ q'.running ~ b :: rest := by
  refine h.gather running_parent (fun _ _ _ _ hperm => by simpa using hperm) [a] [b]
    fun before after parked => ⟨before ++ after, ?_, ?_⟩ <;>
  · rw [running_leaf]
    exact List.perm_middle

/-- When an application is exchanged for what it is with one container more, one container less is asked
for. -/
theorem Exchanged.pendingCount [Scalar F] {r : Request} {c : Container} (h : Exchanged l a b q q')
    (hreceives : a.Receives b r c) (hpos : 0 < r.count) : q'.pendingCount + 1 = q.pendingCount := by
  obtain ⟨rest, hbefore, hafter⟩ := h.running
  have hless := hreceives.pendingCount hpos
  rw [pendingCount_eq, pendingCount_eq, (hbefore.map _).sum_nat, (hafter.map _).sum_nat, List.map_cons,
    List.map_cons, List.sum_cons, List.sum_cons]
  omega

end Queue

end Allotment
