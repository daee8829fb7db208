import Allotment.Proofs.Metrics.Document
import Allotment.Proofs.Queue.Fold
import Allotment.Proofs.Scheduler.Reachable
import Allotment.Proofs.Scheduler.Recompute

/-!
# What a scheduler publishes

The gauges that a scheduler sets are shares, resources of the cluster and a number of applications, all of them
machine integers. Placing containers and asking them back only adds to counters. The metrics of a scheduler are
therefore read back from their text, unless an amount is so large that it does not fit into a double with a zero
put behind it.
-/

namespace Allotment

variable {F : Type} [Scalar F]

namespace Metrics

variable {m : Metrics F}

/-- Whether a value is that of an amount. -/
def IsAmount (x : F) : Prop := ∃ a : Amount, x = Scalar.ofUInt64 a

/-- Whether all gauges are set to amounts. -/
def Whole (m : Metrics F) : Prop := ∀ scope name x, m.gauge? scope name = some x → IsAmount x

theorem Whole.increment (h : Whole m) (scope name : String) (delta : UInt64) :
    Whole (m.increment scope name delta) := by
  intro scope' name' x hx
  rw [gauge?_increment] at hx
  exact h scope' name' x hx

theorem Whole.setAll (h : Whole m) {rs : List (Reading F)} (hrs : ∀ r ∈ rs, IsAmount r.value) :
    Whole (m.setAll rs) := by
  induction rs generalizing m with
  | nil => exact h
  | cons r rest ih =>
    refine ih ?_ fun r' hr' => hrs r' (List.mem_cons_of_mem r hr')
    intro scope name x hx
    rw [gauge?_set] at hx
    split_ifs at hx with hkey
    · cases hx
      exact hrs r List.mem_cons_self
    · exact h scope name x hx

end Metrics

open Metrics (IsAmount Whole)

/-! ## Placing containers -/

omit [Scalar F] in
/-- Those who are asked one after another to serve a node keep the gauges that each of them keeps. -/
theorem gauge?_serveFirst {α : Type} {entries : List (α × (Placement F → Served F α))}
    (h : ∀ e ∈ entries, ∀ p scope name, (e.2 p).placement.metrics.gauge? scope name = p.metrics.gauge? scope name)
    (p : Placement F) (scope name : String) :
    (serveFirst entries p).placement.metrics.gauge? scope name = p.metrics.gauge? scope name := by
  induction entries generalizing p with
  | nil => rfl
  | cons e rest ih =>
    have hfirst := h e List.mem_cons_self p scope name
    rw [serveFirst]
    split
    · exact (ih (fun e' he' => h e' (List.mem_cons_of_mem e he')) _).trans hfirst
    · exact hfirst

omit [Scalar F] in
/-- An application leaves the metrics as they are. -/
theorem Attempt.metrics_assign (a : Attempt F) (p : Placement F) : (a.assign p).placement.metrics = p.metrics := by
  unfold Attempt.assign
  split
  · rfl
  · split <;> rfl

namespace Queue

/-- The gauges are left as they are when a node is offered. -/
theorem gauge?_assign (cluster : Resource) (q : Queue F) (p : Placement F) (scope name : String) :
    (q.assign cluster p).placement.metrics.gauge? scope name = p.metrics.gauge? scope name := by
  induction q using Queue.induction generalizing p scope name with
  | leaf info runnable parked =>
    have hkept : ∀ e ∈ (info.policy.sort cluster Attempt.standing runnable).map fun a => (a, a.assign),
        ∀ p scope name, (e.2 p).placement.metrics.gauge? scope name = p.metrics.gauge? scope name := by
      intro e he p scope name
      obtain ⟨a, -, rfl⟩ := List.mem_map.mp he
      rw [a.metrics_assign]
    have hserved := gauge?_serveFirst hkept p scope name
    rw [assign, fold_leaf]
    dsimp only
    split
    · rw [← hserved]
      unfold countAssigned
      split
      · rfl
      · exact Metrics.gauge?_increment _ _ _ _ _ _
    · rfl
  | parent info children ih =>
    rw [assign_parent]
    split
    · refine gauge?_serveFirst ?_ p scope name
      intro e he p scope name
      obtain ⟨q, hq, rfl⟩ := List.mem_map.mp ((List.mergeSort_perm _ _).mem_iff.mp he)
      exact ih q hq p scope name
    · rfl

theorem isAmount_of_mem_readings {info : QueueInfo F} {r : Metrics.Reading F} (h : r ∈ readings info) :
    IsAmount r.value := by
  simp only [readings, List.mem_cons, List.not_mem_nil, or_false] at h
  obtain rfl | rfl | rfl | rfl := h <;> exact ⟨_, rfl⟩

/-- Publishing shares sets gauges to amounts. -/
theorem whole_publishBelow {m : Metrics F} (h : Whole m) (q : Queue F) : Whole (q.publishBelow m) := by
  rw [publishBelow_eq]
  refine h.setAll fun r hr => ?_
  obtain ⟨q', -, hr⟩ := List.mem_flatMap.mp hr
  exact isAmount_of_mem_readings hr

end Queue

/-! ## Operations -/

namespace Scheduler

variable {s : Scheduler F}

theorem whole_assignOnce (h : Whole s.metrics) (queue : String) (node : Node) :
    Whole (s.assignOnce queue node).1.metrics := by
  change Whole (s.offer queue node).scheduler.metrics
  unfold offer
  split
  · exact h
  · intro scope name x hx
    dsimp only at hx
    rw [Queue.gauge?_assign] at hx
    exact h scope name x hx

theorem whole_update (h : Whole s.metrics) : Whole s.update.metrics := by
  rw [update_eq]
  refine h.setAll fun r hr => ?_
  rw [updateReadings, List.mem_append, List.mem_append] at hr
  obtain (hr | hr) | hr := hr
  · obtain ⟨q, -, hr⟩ := List.mem_flatMap.mp hr
    exact Queue.isAmount_of_mem_readings hr
  · exact Queue.isAmount_of_mem_readings hr
  · simp only [List.mem_cons, List.not_mem_nil, or_false] at hr
    obtain rfl | rfl | rfl := hr <;> exact ⟨_, rfl⟩

/-- Whatever a scheduler is asked to do, its gauges are set to amounts. -/
theorem whole_apply (h : Whole s.metrics) (op : Operation F) : Whole (s.apply op).metrics := by
  cases op with
  | addNode id total => exact Queue.whole_publishBelow h _
  | removeNode id =>
    rw [apply, removeNode]
    split
    · exact h
    · exact Queue.whole_publishBelow h _
  | submit id queue user priority =>
    rw [apply]
    unfold submit
    split
    · exact h
    · split <;> exact h
  | removeApp id =>
    rw [apply, removeApp]
    split <;> exact h
  | request id r =>
    rw [apply, request]
    split <;> exact h
  | release id container =>
    rw [apply, release]
    split
    · exact h
    · split <;> exact h
  | heartbeat node =>
    exact fill_induction (P := fun s => Whole s.metrics)
      (fun s node hs _ => whole_assignOnce hs QueueName.root node) h _ _ _
  | update => exact whole_update h
  | preempt =>
    rw [apply, preempt]
    dsimp only
    split
    · exact h
    · exact h.increment _ _ _
  | reload c =>
    rw [apply, reload]
    split
    · exact h
    · exact Queue.whole_publishBelow h _
  | setPolicy queue policy =>
    rw [apply, setPolicy]
    split
    · exact h
    · split <;> exact h
  | recompute queue =>
    rw [apply, recompute]
    split
    · exact h
    · exact Queue.whole_publishBelow h _
  | assign queue node =>
    exact assign_induction (P := fun s => Whole s.metrics) (fun n _ => whole_assignOnce h queue n) h
  | preemptIn queue =>
    rw [apply, preemptIn]
    split <;> exact h
  | locate name create kind =>
    rw [apply]
    exact h
  | updateDemand queue =>
    rw [apply, updateDemand]
    exact h
  | setFairShare queue share =>
    rw [apply, setFairShare]
    exact h
  | start | stop => exact h

/-- The gauges of a scheduler that comes about are set to amounts. -/
theorem Reachable.whole (h : s.Reachable) : Whole s.metrics := by
  induction h with
  | start c s hmade =>
    obtain ⟨-, -, -, -, hmetrics⟩ := of_ofConfig hmade
    rw [hmetrics]
    exact nofun
  | step s op h ih => exact whole_apply ih op

/-- The metrics of a scheduler that comes about are read back from their text, as long as no gauge is so large
that ten times its value has more than 53 bits. -/
theorem Reachable.ofText_toText {s : Scheduler Float} (h : s.Reachable)
    (hsmall : ∀ scope name x, s.metrics.gauge? scope name = some x → 10 * Double.value x ≤ 2 ^ 53) :
    Metrics.ofText s.metrics.toText = .ok s.metrics := by
  refine Metrics.ofText_toText_of_whole fun scope name x hx => ?_
  obtain ⟨a, rfl⟩ := h.whole scope name x hx
  refine ⟨a, ?_, rfl⟩
  have hvalue := hsmall scope name _ hx
  rw [(Double.ofUInt64_eq a).2] at hvalue
  have hbelow : a.toNat ≤ 2 ^ 53 := by
    by_contra hlarge
    have hpower : ((2 ^ 53 : ℕ) : ℚ) ≤ a.toNat := by exact_mod_cast (not_le.mp hlarge).le
    have hnearest := (Double.isDouble_natCast (n := 2 ^ 53) le_rfl).le_nearest hpower
    push_cast at hnearest
    linarith
  rw [(Double.isDouble_natCast hbelow).nearest_eq] at hvalue
  exact_mod_cast hvalue

end Scheduler

end Allotment
