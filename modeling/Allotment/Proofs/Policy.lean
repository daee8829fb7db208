import Allotment.Policy.Order
import Allotment.Proofs.Scalar
import Mathlib.Data.List.Nodup

/-!
# Who comes first and who comes last

Every policy puts siblings into a total order in which no two of different serial numbers tie, as long
as the numbers of its ratios are comparable. So sorting puts whoever comes before another in front of
it, and the one that is ranked last comes after all others.
-/

namespace Allotment.Policy

variable {F : Type} [Scalar F]

section Total

variable {α β : Type}

/-- Comparing what belongs to the elements orders them. -/
theorem transCmp_on (cmp : β → β → Ordering) [Std.TransCmp cmp] (f : α → β) :
    Std.TransCmp fun a b => cmp (f a) (f b) where
  eq_swap := Std.OrientedCmp.eq_swap
  isLE_trans := Std.TransCmp.isLE_trans

/-- Putting those in need before the others orders all, if those in need are ordered and the others
are. -/
theorem transCmp_needFirst (needy : α → Bool) (needs shares : α → α → Ordering)
    [Std.TransCmp needs] [Std.TransCmp shares] :
    Std.TransCmp fun a b => needFirst (needy a) (needy b) (needs a b) (shares a b) where
  eq_swap {a b} := by
    cases needy a <;> cases needy b
    · exact (Std.OrientedCmp.eq_swap : shares a b = (shares b a).swap)
    · rfl
    · rfl
    · exact (Std.OrientedCmp.eq_swap : needs a b = (needs b a).swap)
  isLE_trans {a b c} hab hbc := by
    cases ha : needy a <;> cases hb : needy b <;> cases hc : needy c <;>
      simp only [needFirst, ha, hb, hc, Ordering.isLE_lt, Ordering.isLE_gt, Bool.false_eq_true] at *
    · exact Std.TransCmp.isLE_trans hab hbc
    · exact Std.TransCmp.isLE_trans hab hbc

variable [Scalar.Comparable F]

instance : Std.TransCmp (fairOrder (F := F)) :=
  have := transCmp_on (Scalar.order (F := F)) fun s : Standing F =>
    Scalar.ofUInt64 s.usage.memory / Scalar.max (Scalar.ofUInt64 s.wanted.memory) Scalar.one
  have := transCmp_on (Scalar.order (F := F)) fun s : Standing F =>
    Scalar.ofUInt64 s.usage.memory / weightOrOne s.weight
  transCmp_needFirst (fun s : Standing F =>
    Scalar.lt (Scalar.ofUInt64 s.usage.memory : F) (Scalar.ofUInt64 s.wanted.memory)) _ _

instance (cluster : Resource) : Std.TransCmp (drfOrder (F := F) cluster) :=
  have := transCmp_on (Scalar.order (F := F)) fun s : Standing F => s.usage.dominantShare s.wanted
  have := transCmp_on (Scalar.order (F := F)) fun s : Standing F =>
    weighted (s.usage.dominantShare cluster) s.weight
  transCmp_needFirst (fun s : Standing F => !decide (s.wanted ≤ s.usage)) _ _

omit [Scalar F] [Scalar.Comparable F] in
/-- The larger priority comes first. -/
theorem transCmp_priority :
    Std.TransCmp fun a b : Standing F => compare b.priority a.priority where
  eq_swap {a b} := (Nat.compare_swap a.priority b.priority).symm
  isLE_trans {a b c} hab hbc := by
    rw [Nat.isLE_compare] at *
    exact hbc.trans hab

instance (p : Policy) (cluster : Resource) : Std.TransCmp (p.order (F := F) cluster) := by
  have hserial := transCmp_on (compare : ℕ → ℕ → Ordering) (Standing.serial (F := F))
  have hpriority := transCmp_priority (F := F)
  cases p with
  | fair => exact inferInstanceAs (Std.TransCmp (compareLex fairOrder _))
  | drf => exact inferInstanceAs (Std.TransCmp (compareLex (drfOrder cluster) _))
  | fifo => exact inferInstanceAs (Std.TransCmp (compareLex _ _))

/-- Comparing the other way round turns the order about. -/
theorem order_swap (p : Policy) (cluster : Resource) (a b : Standing F) :
    p.order cluster a b = (p.order cluster b a).swap :=
  Std.OrientedCmp.eq_swap

omit [Scalar.Comparable F] in
/-- Siblings of different serial numbers never tie. -/
theorem order_ne_eq (p : Policy) (cluster : Resource) {a b : Standing F}
    (h : a.serial ≠ b.serial) : p.order cluster a b ≠ .eq := by
  intro heq
  unfold order at heq
  rw [Ordering.then_eq_eq] at heq
  exact h (Nat.compare_eq_eq.mp heq.2)

end Total

/-! ## Sorting -/

section Sorting

variable {α β : Type} (p : Policy) (cluster : Resource)

/-- Sorting elements by what belongs to them is sorting what belongs to them. -/
theorem sort_map (standing : β → Standing F) (f : α → β) (xs : List α) :
    p.sort cluster standing (xs.map f) = (p.sort cluster (fun x => standing (f x)) xs).map f :=
  (List.map_mergeSort (f := f) fun _ _ _ _ => rfl).symm

/-- Sorting moves elements about. -/
theorem sort_perm (standing : α → Standing F) (xs : List α) :
    (p.sort cluster standing xs).Perm xs :=
  List.mergeSort_perm _ _

/-- In the sorted list no element comes after another that is to come before it. -/
theorem pairwise_sort [Scalar.Comparable F] (standing : α → Standing F) (xs : List α) :
    (p.sort cluster standing xs).Pairwise fun x y =>
      (p.order cluster (standing x) (standing y)).isLE = true := by
  have hle : ∀ x y, (p.order cluster (standing x) (standing y) != .gt) =
      (p.order cluster (standing x) (standing y)).isLE := by
    intro x y
    cases p.order cluster (standing x) (standing y) <;> rfl
  have htrans : ∀ x y z, (p.order cluster (standing x) (standing y) != .gt) = true →
      (p.order cluster (standing y) (standing z) != .gt) = true →
      (p.order cluster (standing x) (standing z) != .gt) = true := by
    intro x y z
    rw [hle, hle, hle]
    exact Std.TransCmp.isLE_trans
  have htotal : ∀ x y, ((p.order cluster (standing x) (standing y) != .gt) ||
      (p.order cluster (standing y) (standing x) != .gt)) = true := by
    intro x y
    rw [p.order_swap cluster (standing y)]
    cases p.order cluster (standing x) (standing y) <;> rfl
  have hsorted := List.pairwise_mergeSort htrans htotal xs
  unfold sort
  simpa only [hle] using hsorted

end Sorting

/-! ## First and last -/

section Rank

variable {α : Type}

/-- Whether an element comes before all others that have a property. -/
structure First (p : Policy) (cluster : Resource) (standing : α → Standing F) (P : α → Prop)
    (xs : List α) (x : α) : Prop where
  mem : x ∈ xs
  holds : P x
  before : ∀ y ∈ xs, P y → y ≠ x → p.order cluster (standing x) (standing y) = .lt

/-- Whether an element comes after all others. -/
structure Last (p : Policy) (cluster : Resource) (standing : α → Standing F) (xs : List α) (x : α) :
    Prop where
  mem : x ∈ xs
  after : ∀ y ∈ xs, y ≠ x → p.order cluster (standing y) (standing x) = .lt

variable [Scalar.Comparable F] {p : Policy} {cluster : Resource} {standing : α → Standing F}
  {P : α → Prop} {xs : List α} {x y : α}

omit [Scalar.Comparable F] in
/-- Of two elements of different serial numbers that come in order, one comes before the other. -/
theorem lt_of_isLE (h : (p.order cluster (standing x) (standing y)).isLE = true)
    (hne : (standing x).serial ≠ (standing y).serial) :
    p.order cluster (standing x) (standing y) = .lt := by
  have htie := p.order_ne_eq cluster hne
  cases hcase : p.order cluster (standing x) (standing y) with
  | lt => rfl
  | eq => exact absurd hcase htie
  | gt =>
    rw [hcase] at h
    contradiction

/-- Only one element comes first. -/
theorem First.unique (hx : p.First cluster standing P xs x) (hy : p.First cluster standing P xs y) :
    x = y := by
  by_contra hne
  have hlt := hx.before y hy.mem hy.holds (Ne.symm hne)
  have hgt := hy.before x hx.mem hx.holds hne
  rw [p.order_swap, hgt] at hlt
  contradiction

/-- Only one element comes last. -/
theorem Last.unique (hx : p.Last cluster standing xs x) (hy : p.Last cluster standing xs y) :
    x = y := by
  by_contra hne
  have hlt := hx.after y hy.mem (Ne.symm hne)
  have hgt := hy.after x hx.mem hne
  rw [p.order_swap, hgt] at hlt
  contradiction

/-- The first of the sorted elements that have a property comes before all others that have it. -/
theorem first_of_sort (hserials : (xs.map fun x => (standing x).serial).Nodup) {before after : List α}
    (hsort : p.sort cluster standing xs = before ++ x :: after) (hx : P x)
    (hnot : ∀ y ∈ before, ¬ P y) : p.First cluster standing P xs x := by
  have hperm := p.sort_perm cluster standing xs
  have hmem : x ∈ p.sort cluster standing xs := by
    rw [hsort]
    simp
  refine ⟨hperm.mem_iff.mp hmem, hx, ?_⟩
  intro y hy hPy hne
  have hserial : (standing x).serial ≠ (standing y).serial := by
    intro heq
    exact hne (List.inj_on_of_nodup_map hserials hy (hperm.mem_iff.mp hmem) heq.symm)
  rw [← hperm.mem_iff, hsort, List.mem_append, List.mem_cons] at hy
  obtain hy | rfl | hy := hy
  · exact absurd hPy (hnot y hy)
  · contradiction
  · have hpairwise := p.pairwise_sort cluster standing xs
    rw [hsort, List.pairwise_append, List.pairwise_cons] at hpairwise
    exact lt_of_isLE (hpairwise.2.1.1 y hy) hserial

/-- The walk over the elements behind a candidate ends at the candidate or at one of them, and neither
the candidate nor any of them comes after the one at which it ends. -/
theorem exists_go (p : Policy) (cluster : Resource) (standing : α → Standing F) (best : α)
    (bestPlace place : ℕ) (ys : List α) :
    ∃ z, (lastRanked?.go p cluster standing best bestPlace place ys = bestPlace ∧ z = best ∨
        ∃ k, lastRanked?.go p cluster standing best bestPlace place ys = place + k ∧
          ys[k]? = some z) ∧
      (p.order cluster (standing best) (standing z)).isLE = true ∧
      ∀ y ∈ ys, (p.order cluster (standing y) (standing z)).isLE = true := by
  induction ys generalizing best bestPlace place with
  | nil =>
    exact ⟨best, .inl ⟨rfl, rfl⟩, Std.ReflCmp.isLE_rfl, by simp⟩
  | cons y rest ih =>
    rw [lastRanked?.go]
    split
    · rename_i hgt
      have hbest : (p.order cluster (standing best) (standing y)).isLE = true := by
        rw [p.order_swap, hgt]
        rfl
      obtain ⟨z, hplace, hyz, hrest⟩ := ih y place (place + 1)
      refine ⟨z, .inr ?_, Std.TransCmp.isLE_trans hbest hyz, ?_⟩
      · obtain ⟨hgo, rfl⟩ | ⟨k, hgo, hk⟩ := hplace
        · exact ⟨0, hgo, rfl⟩
        · exact ⟨k + 1, by rw [hgo, Nat.add_right_comm, Nat.add_assoc], by simpa using hk⟩
      · simpa using ⟨hyz, hrest⟩
    · rename_i hle
      obtain ⟨z, hplace, hbz, hrest⟩ := ih best bestPlace (place + 1)
      have hyz : (p.order cluster (standing y) (standing z)).isLE = true :=
        Std.TransCmp.isLE_trans (Ordering.ne_gt_iff_isLE.mp hle) hbz
      refine ⟨z, ?_, hbz, by simpa using ⟨hyz, hrest⟩⟩
      obtain hbest | ⟨k, hgo, hk⟩ := hplace
      · exact .inl hbest
      · exact .inr ⟨k + 1, by rw [hgo, Nat.add_right_comm, Nat.add_assoc], by simpa using hk⟩

/-- The element at the place that is ranked last comes after all others. -/
theorem exists_last (p : Policy) (cluster : Resource) (standing : α → Standing F)
    (hserials : (xs.map fun x => (standing x).serial).Nodup) (hxs : xs ≠ []) :
    ∃ i x, p.lastRanked? cluster standing xs = some i ∧ xs[i]? = some x ∧
      p.Last cluster standing xs x := by
  cases xs with
  | nil => contradiction
  | cons best rest =>
    obtain ⟨z, hplace, hbz, hrest⟩ := p.exists_go cluster standing best 0 1 rest
    have hz : (best :: rest)[lastRanked?.go p cluster standing best 0 1 rest]? = some z := by
      obtain ⟨hgo, rfl⟩ | ⟨k, hgo, hk⟩ := hplace
      · rw [hgo]
        rfl
      · rw [hgo, Nat.add_comm]
        exact hk
    have hmem := List.mem_of_getElem? hz
    refine ⟨_, z, rfl, hz, hmem, ?_⟩
    intro y hy hne
    have hle : (p.order cluster (standing y) (standing z)).isLE = true := by
      obtain rfl | hy := List.mem_cons.mp hy
      · exact hbz
      · exact hrest y hy
    exact lt_of_isLE hle fun heq => hne (List.inj_on_of_nodup_map hserials hy hmem heq)

omit [Scalar.Comparable F] in
/-- Ranking elements by what belongs to them is ranking what belongs to them. -/
theorem lastRanked?_map {β : Type} (p : Policy) (cluster : Resource) (standing : β → Standing F)
    (f : α → β) (xs : List α) :
    p.lastRanked? cluster standing (xs.map f) =
      p.lastRanked? cluster (fun x => standing (f x)) xs := by
  have hgo : ∀ (ys : List α) (best : α) (bestPlace place : ℕ),
      lastRanked?.go p cluster standing (f best) bestPlace place (ys.map f) =
        lastRanked?.go p cluster (fun x => standing (f x)) best bestPlace place ys := by
    intro ys
    induction ys with
    | nil => exact fun _ _ _ => rfl
    | cons y rest ih =>
      intro best bestPlace place
      rw [List.map_cons, lastRanked?.go, lastRanked?.go, ih, ih]
  cases xs with
  | nil => rfl
  | cons x rest => rw [List.map_cons, lastRanked?, lastRanked?, hgo]

end Rank

end Allotment.Policy
