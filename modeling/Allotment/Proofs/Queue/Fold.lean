import Allotment.Queue.Assignment
import Allotment.Queue.Shares
import Allotment.Queue.Tree
import Mathlib.Data.List.Basic

/-!
# Equations of the functions on queue trees

Every function on queues is a fold. Here each of them gets its equations for a leaf and for a parent,
so that proofs by `Queue.induction` need not open folds.
-/

namespace Allotment.Queue

variable {F : Type}

@[simp] theorem all_leaf (info : QueueInfo F) (runnable parked : List (Attempt F)) :
    (leaf info runnable parked).all = [leaf info runnable parked] := by
  simp [all]

@[simp] theorem all_parent (info : QueueInfo F) (children : List (Queue F)) :
    (parent info children).all = parent info children :: children.flatMap all := by
  unfold all
  rw [fold_parent]
  simp only [List.map_map, Function.comp_def, List.map_id', List.flatMap_def]

/-- A queue comes first among those in it. -/
theorem all_eq_cons (q : Queue F) : q.all = q :: q.descendants := by
  cases q with
  | leaf info runnable parked => simp [descendants]
  | parent info children => simp [descendants]

/-- A queue is among those in it. -/
theorem mem_all_self (q : Queue F) : q ∈ q.all := by
  rw [all_eq_cons]
  exact List.mem_cons_self

/-- A queue in a child is in the tree. -/
theorem mem_all_of_child {info : QueueInfo F} {children : List (Queue F)} {c r : Queue F}
    (hc : c ∈ children) (hr : r ∈ c.all) : r ∈ (parent info children).all := by
  rw [all_parent]
  exact List.mem_cons_of_mem _ (List.mem_flatMap.mpr ⟨c, hc, hr⟩)

/-- Queues in a queue of a tree are in the tree. -/
theorem mem_all_trans {q r s : Queue F} (hr : r ∈ q.all) (hs : s ∈ r.all) : s ∈ q.all := by
  induction q using Queue.induction with
  | leaf info runnable parked =>
    rw [all_leaf, List.mem_singleton] at hr
    subst hr
    exact hs
  | parent info children ih =>
    rw [all_parent, List.mem_cons] at hr
    obtain rfl | hr := hr
    · exact hs
    · obtain ⟨c, hc, hrc⟩ := List.mem_flatMap.mp hr
      exact mem_all_of_child hc (ih c hc hrc)

@[simp] theorem modify_leaf (name : String) (f : Queue F → Queue F) (info : QueueInfo F)
    (runnable parked : List (Attempt F)) :
    (leaf info runnable parked).modify name f =
      if info.name = name then f (leaf info runnable parked) else leaf info runnable parked := by
  simp [modify]

@[simp] theorem modify_parent (name : String) (f : Queue F → Queue F) (info : QueueInfo F)
    (children : List (Queue F)) :
    (parent info children).modify name f =
      if info.name = name then f (parent info children)
      else parent info (children.map (modify name f)) := by
  unfold modify
  rw [fold_parent]
  simp only [List.map_map, Function.comp_def, List.map_id']

@[simp] theorem remove_leaf (name : String) (info : QueueInfo F)
    (runnable parked : List (Attempt F)) :
    (leaf info runnable parked).remove name = leaf info runnable parked := by
  simp [remove]

@[simp] theorem remove_parent (name : String) (info : QueueInfo F) (children : List (Queue F)) :
    (parent info children).remove name =
      parent info ((children.eraseP fun q => q.name = name).map (remove name)) := by
  unfold remove
  rw [fold_parent, List.eraseP_map]
  simp only [List.map_map, Function.comp_def]

@[simp] theorem mapAttempts_leaf (f : Attempt F → Attempt F) (info : QueueInfo F)
    (runnable parked : List (Attempt F)) :
    (leaf info runnable parked).mapAttempts f = leaf info (runnable.map f) (parked.map f) := by
  simp [mapAttempts]

@[simp] theorem mapAttempts_parent (f : Attempt F → Attempt F) (info : QueueInfo F)
    (children : List (Queue F)) :
    (parent info children).mapAttempts f = parent info (children.map (mapAttempts f)) := by
  unfold mapAttempts
  rw [fold_parent]
  simp only [List.map_map, Function.comp_def]

@[simp] theorem attempts_leaf (info : QueueInfo F) (runnable parked : List (Attempt F)) :
    (leaf info runnable parked).attempts = runnable ++ parked := by
  simp [attempts, ownAttempts]

@[simp] theorem attempts_parent (info : QueueInfo F) (children : List (Queue F)) :
    (parent info children).attempts = children.flatMap attempts := by
  unfold attempts
  rw [all_parent, List.flatMap_cons, List.flatMap_assoc]
  rfl

/-- The runnable applications of a leaf itself. -/
def runnable : Queue F → List (Attempt F)
  | leaf _ runnable _ => runnable
  | parent _ _ => []

/-- The parked applications of a leaf itself. -/
def parked : Queue F → List (Attempt F)
  | leaf _ _ parked => parked
  | parent _ _ => []

section Shares

variable [Scalar F]

/-- The fair shares of the children of a parent. -/
def fairShares (info : QueueInfo F) (children : List (Queue F)) (share : Resource) :
    List Resource :=
  info.policy.shares .moment share (children.map claimant)

/-- The steady shares of the children of a parent. -/
def steadyShares (info : QueueInfo F) (children : List (Queue F)) (share : Resource) :
    List Resource :=
  info.policy.shares .steady share (children.map claimant)

theorem giveFair_parent (info : QueueInfo F) (children : List (Queue F)) (share : Resource) :
    (parent info children).giveFair share =
      parent { info with fairShare := share }
        (List.zipWith giveFair children (fairShares info children share)) := by
  unfold giveFair
  rw [fold_parent]
  simp only [fairShares, List.zipWith_map_left, List.map_map, Function.comp_def]

theorem giveSteady_leaf (info : QueueInfo F) (runnable parked : List (Attempt F))
    (share : Resource) : (leaf info runnable parked).giveSteady share =
      leaf { info with steadyShare := share } runnable parked := by
  simp [giveSteady]

theorem giveSteady_parent (info : QueueInfo F) (children : List (Queue F)) (share : Resource) :
    (parent info children).giveSteady share =
      parent { info with steadyShare := share }
        (List.zipWith giveSteady children (steadyShares info children share)) := by
  unfold giveSteady
  rw [fold_parent]
  simp only [steadyShares, List.zipWith_map_left, List.map_map, Function.comp_def]

omit [Scalar F] in
theorem updateDemand_parent (info : QueueInfo F) (children : List (Queue F)) :
    (parent info children).updateDemand =
      let renewed := renewUntil (fun q : Queue F => q.info.demand) info.settings.maxShare 0
        (children.map fun q => (q, q.updateDemand))
      parent { info with demand := renewed.2 } renewed.1 := by
  unfold updateDemand
  rw [fold_parent]

end Shares

section Assignment

variable [Scalar F]

theorem assign_parent (cluster : Resource) (info : QueueInfo F) (children : List (Queue F))
    (p : Placement F) :
    (parent info children).assign cluster p =
      if info.settings.hasHeadroom (parent info children).usage then
        let s := serveFirst (info.policy.sort cluster (fun e => e.1.standing)
          (children.map fun q => (q, q.assign cluster))) p
        ⟨parent info s.subject, s.placement, s.resource⟩
      else ⟨parent info children, p, 0⟩ := by
  unfold assign
  rw [fold_parent]
  simp only [List.map_map, Function.comp_def, List.map_id']

/-- The place of the child that a parent's policy ranks last. -/
def lastChild? (cluster : Resource) (info : QueueInfo F) (children : List (Queue F)) : Option ℕ :=
  info.policy.lastRanked? cluster (fun e => e.1.standing)
    (children.map fun q => (q, q.preempt cluster))

theorem preempt_parent (cluster : Resource) (info : QueueInfo F) (children : List (Queue F))
    (isOver : Resource → Resource → Bool) :
    (parent info children).preempt cluster isOver =
      match (lastChild? cluster info children).bind fun i => children[i]?.map fun q => (i, q) with
      | some (i, q) =>
        (parent info (children.set i (q.preempt cluster info.policy.isOver).1),
          (q.preempt cluster info.policy.isOver).2)
      | none => (parent info children, none) := by
  unfold lastChild? preempt
  rw [fold_parent]
  simp only [List.map_map, Function.comp_def, List.map_id']
  generalize @Policy.lastRanked? F _ _ info.policy cluster _ _ = last
  cases last with
  | none => rfl
  | some i =>
    simp only [Option.bind_some, List.getElem?_map]
    cases children[i]? with
    | none => rfl
    | some q => rfl

end Assignment

end Allotment.Queue
