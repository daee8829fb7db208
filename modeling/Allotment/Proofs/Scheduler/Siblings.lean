import Allotment.Proofs.Queue.Order
import Allotment.Proofs.Scheduler.Choice

/-!
# Siblings are asked in one order

In a scheduler that comes about siblings bear different serial numbers, so every policy puts them into one
order. Who is asked first when a queue is offered a node is therefore no matter of how its children happen
to be kept.
-/

namespace Allotment

open scoped List

/-- Every policy puts siblings into a strict total order, whatever their weights are: comparing the other
way round turns the order about, the order is transitive, only siblings of one serial number tie, and the
ratios that are compared are numbers. So sorting siblings gives one list, and a queue with headroom does
the same with a node, whatever order its children were in. -/
theorem Policy.order_total (p : Policy) (cluster : Resource) :
    (∀ a b : Standing Float, p.order cluster a b = (p.order cluster b a).swap) ∧
    (∀ a b c : Standing Float, p.order cluster a b = .lt → p.order cluster b c = .lt →
      p.order cluster a c = .lt) ∧
    (∀ a b c : Standing Float, (p.order cluster a b).isLE = true → (p.order cluster b c).isLE = true →
      (p.order cluster a c).isLE = true) ∧
    (∀ a b : Standing Float, p.order cluster a b = .eq → a.serial = b.serial) ∧
    (∀ a b : Standing Float, p.order cluster a b =
      (p.keyOrder cluster a b).then (compare a.serial b.serial)) ∧
    (∀ (a : Standing Float) (x : Float), p.ratio? cluster a = some x → Scalar.isNaN x = false) ∧
    (∀ (α : Type) (standing : α → Standing Float) (xs ys : List α), xs ~ ys →
      (xs.map fun x => (standing x).serial).Nodup →
      p.sort cluster standing xs = p.sort cluster standing ys) ∧
    ∀ s : Scheduler Float, s.Reachable → ∀ info : QueueInfo Float, info.policy = p →
      (∀ cs cs', Queue.parent info cs ∈ s.tree.root.all → cs ~ cs' →
        info.settings.hasHeadroom (Queue.parent info cs).usage = true → ∀ placement,
        (Queue.parent info cs).assign cluster placement =
          (Queue.parent info cs').assign cluster placement) ∧
      ∀ runnable runnable' parked, Queue.leaf info runnable parked ∈ s.tree.root.all →
        runnable ~ runnable' →
        info.settings.hasHeadroom (Queue.leaf info runnable parked).usage = true → ∀ placement,
        (Queue.leaf info runnable parked).assign cluster placement =
          (Queue.leaf info runnable' parked).assign cluster placement := by
  refine ⟨p.order_swap cluster, fun a b c => Std.TransCmp.lt_trans,
    fun a b c => Std.TransCmp.isLE_trans, fun a b heq => ?_, p.order_eq_keyOrder cluster,
    fun a x => p.isNaN_ratio, fun α standing xs ys h => p.sort_eq_of_perm cluster standing h,
    fun s hs info _ => ⟨?_, ?_⟩⟩
  · by_contra hne
    exact p.order_ne_eq cluster hne heq
  · intro cs cs' hmem h headroom
    exact Queue.assign_parent_eq_of_perm cluster info h (hs.apart.children _ hmem) headroom
  · intro runnable runnable' parked hmem h headroom
    exact Queue.assign_leaf_eq_of_perm cluster info parked h (hs.nodup_runnable hmem) headroom

/-- Something that uses what another of its kind uses, with a weight that is not a number. -/
def Standing.weightNaN : Standing Float :=
  { (ofUsage "a" 1 ⟨4, 4⟩ : Standing Float) with weight := Scalar.zero / Scalar.zero }

/-- Something with a weight without bound. -/
def Standing.weightInfinite : Standing Float :=
  { (ofUsage "b" 2 ⟨4, 4⟩ : Standing Float) with weight := Scalar.one / Scalar.zero }

/-- Something with no weight. -/
def Standing.weightZero : Standing Float :=
  { (ofUsage "c" 3 ⟨5, 4⟩ : Standing Float) with weight := Scalar.zero }

/-- A scheduler with two leaves below the root. -/
def Scheduler.twoLeaves : Scheduler Float := oneLeaf.apply (.locate "b" true .leaf)

/-- The infinite weight puts its owner first, the others are ordered by what they use, and sorting finds
that order from any other. The two leaves are asked in the same order if they are kept the other way
round. -/
theorem Policy.order_total_of_strayWeights :
    drf.order ⟨10, 10⟩ Standing.weightInfinite Standing.weightNaN = .lt ∧
    drf.order ⟨10, 10⟩ Standing.weightNaN Standing.weightZero = .lt ∧
    drf.order ⟨10, 10⟩ Standing.weightInfinite Standing.weightZero = .lt ∧
    drf.sort ⟨10, 10⟩ id [Standing.weightNaN, Standing.weightInfinite, Standing.weightZero] =
      drf.sort ⟨10, 10⟩ id [Standing.weightInfinite, Standing.weightNaN, Standing.weightZero] ∧
    Scheduler.twoLeaves.Reachable ∧ ∃ info a b, Scheduler.twoLeaves.tree.root = .parent info [a, b] ∧
      ∀ placement, (Queue.parent info [a, b]).assign 0 placement =
        (Queue.parent info [b, a]).assign 0 placement := by
  have hfirst : drf.order ⟨10, 10⟩ Standing.weightInfinite Standing.weightNaN = .lt := by
    decide +kernel
  have hsecond : drf.order ⟨10, 10⟩ Standing.weightNaN Standing.weightZero = .lt := by
    decide +kernel
  have hreached : Scheduler.twoLeaves.Reachable :=
    (Scheduler.Reachable.start _ _ Scheduler.ofConfig_oneLeaf).step _ (.locate "b" true .leaf)
  have hchildren : Scheduler.twoLeaves.tree.root.children.length = 2 := by decide +kernel
  have hfair : Scheduler.twoLeaves.tree.root.info.policy = fair := by decide +kernel
  have headroom : Scheduler.twoLeaves.tree.root.info.settings.hasHeadroom
    Scheduler.twoLeaves.tree.root.usage = true := by decide +kernel
  obtain ⟨info, a, b, hroot⟩ : ∃ info a b, Scheduler.twoLeaves.tree.root = .parent info [a, b] := by
    cases hroot : Scheduler.twoLeaves.tree.root with
    | leaf => rw [hroot] at hchildren; contradiction
    | parent info children =>
      rw [hroot] at hchildren
      obtain ⟨a, b, rfl⟩ := List.length_eq_two.mp hchildren
      exact ⟨info, a, b, rfl⟩
  rw [hroot] at hfair headroom
  have hmem : Queue.parent info [a, b] ∈ Scheduler.twoLeaves.tree.root.all := by
    rw [hroot]
    exact Queue.mem_all_self _
  obtain ⟨-, htrans, -, -, -, -, hsort, -⟩ := drf.order_total ⟨10, 10⟩
  obtain ⟨-, -, -, -, -, -, -, hasked⟩ := fair.order_total 0
  refine ⟨hfirst, hsecond, htrans _ _ _ hfirst hsecond,
    hsort _ id _ _ (.swap _ _ _) (by decide), hreached, info, a, b, hroot, ?_⟩
  exact (hasked _ hreached info hfair).1 _ _ hmem (.swap _ _ _) headroom

end Allotment
