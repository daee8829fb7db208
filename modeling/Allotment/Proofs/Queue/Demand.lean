import Allotment.Proofs.Node
import Allotment.Proofs.Queue.Fold
import Allotment.Scalar.Double
import Mathlib.Algebra.GroupWithZero.Nat

/-!
# Demands, in full and by the walk that stops early

`fullDemand` is the demand of a queue in natural numbers: everything below it counts, the sum is exact,
and only the result is cut at the maximum share. The walk of `updateDemand` adds up amounts that stop at
the largest one, cuts after each of them, and leaves out whatever lies behind the member with which it
has got to the maximum in both dimensions. It arrives at the full demand all the same.

`Gets` says which members of a queue the walk gets to, by the full demands of those before them, and
`Reached` which queues of a tree.
-/

namespace Allotment

variable {F : Type}

/-- What an application holds and waits for. -/
def Attempt.wanted (a : Attempt F) : Resource := a.usage.used + a.usage.pending

namespace Queue

/-! ## The full demand -/

/-- The amounts of one dimension that members ask for, added up. -/
def total {α : Type} (amount : α → Dimension → ℕ) (xs : List α) (d : Dimension) : ℕ :=
  (xs.map fun x => amount x d).sum

/-- The amounts that an application asks for. -/
def wants (a : Attempt F) (d : Dimension) : ℕ := (a.wanted.get d).toNat

/-- The amounts of the demand that a queue was last given. -/
def stored (q : Queue F) (d : Dimension) : ℕ := (q.info.demand.get d).toNat

/-- The demand of a queue from everything below it. -/
def fullDemand : Queue F → Dimension → ℕ :=
  fold
    (fun info runnable parked d =>
      min (info.settings.maxShare.get d).toNat (total wants (runnable ++ parked) d))
    (fun info entries d =>
      min (info.settings.maxShare.get d).toNat (total (fun e => e.2) entries d))

theorem fullDemand_leaf (info : QueueInfo F) (runnable parked : List (Attempt F)) (d : Dimension) :
    (leaf info runnable parked).fullDemand d =
      min (info.settings.maxShare.get d).toNat (total wants (runnable ++ parked) d) := by
  rw [fullDemand, fold_leaf]

theorem fullDemand_parent (info : QueueInfo F) (children : List (Queue F)) (d : Dimension) :
    (parent info children).fullDemand d =
      min (info.settings.maxShare.get d).toNat (total fullDemand children d) := by
  rw [fullDemand, fold_parent]
  simp only [total, List.map_map, Function.comp_def]

/-! ## One list of members -/

section Members

variable {α : Type} {demandOf : α → Resource} {renew : α → α} {amount : α → Dimension → ℕ}
  {most : Resource}

/-- Whether a walk along members gets to the one at a place: with none of those before it has it got
to the maximum in both dimensions. -/
def Gets (most : Resource) (amount : α → Dimension → ℕ) (xs : List α) (i : ℕ) : Prop :=
  ∀ k < i, ∃ d, total amount (xs.take (k + 1)) d < (most.get d).toNat

/-- Whether a walk that begins with a sum gets to the member at a place. -/
def GetsFrom (most sum : Resource) (amount : α → Dimension → ℕ) (xs : List α) (i : ℕ) : Prop :=
  ∀ k < i, ∃ d, (sum.get d).toNat + total amount (xs.take (k + 1)) d < (most.get d).toNat

theorem getsFrom_zero {xs : List α} {i : ℕ} : GetsFrom most 0 amount xs i ↔ Gets most amount xs i := by
  simp only [GetsFrom, Gets, Resource.toNat_get_zero, Nat.zero_add]

@[simp] theorem total_nil (d : Dimension) : total amount [] d = 0 := rfl

@[simp] theorem total_cons (x : α) (xs : List α) (d : Dimension) :
    total amount (x :: xs) d = amount x d + total amount xs d := by
  simp [total]

/-- The sum after one more member, cut at the maximum. -/
theorem toNat_get_step (most sum next : Resource) (d : Dimension) :
    ((min (sum + next) most).get d).toNat =
      min ((sum.get d).toNat + (next.get d).toNat) (most.get d).toNat := by
  have hlimit := (most.get d).toNat_lt
  rw [Resource.toNat_get_min, Resource.toNat_get_add, Amount.limit_toNat]
  omega

/-- A walk that has not got to the maximum with the first member gets to a later one if from there it
does. -/
theorem getsFrom_succ {sum next : Resource} {x : α} {xs : List α} {i : ℕ}
    (hnext : ∀ d, (next.get d).toNat = amount x d) (hopen : min (sum + next) most ≠ most) :
    GetsFrom most sum amount (x :: xs) (i + 1) ↔
      GetsFrom most (min (sum + next) most) amount xs i := by
  have hfirst : ∃ d, (sum.get d).toNat + amount x d < (most.get d).toNat := by
    by_contra! hfull
    apply hopen
    apply Resource.ext_toNat
    intro d
    have := hfull d
    rw [toNat_get_step, hnext]
    omega
  have hlater : ∀ k d, (sum.get d).toNat + total amount ((x :: xs).take (k + 1 + 1)) d <
      (most.get d).toNat ↔ ((min (sum + next) most).get d).toNat + total amount (xs.take (k + 1)) d <
        (most.get d).toNat := by
    intro k d
    rw [List.take_succ_cons, total_cons, toNat_get_step, hnext]
    omega
  constructor
  · intro h k hk
    obtain ⟨d, hd⟩ := h (k + 1) (Nat.succ_lt_succ hk)
    exact ⟨d, (hlater k d).mp hd⟩
  · intro h k hk
    cases k with
    | zero =>
      obtain ⟨d, hd⟩ := hfirst
      exact ⟨d, by simpa using hd⟩
    | succ k =>
      obtain ⟨d, hd⟩ := h k (Nat.lt_of_succ_lt_succ hk)
      exact ⟨d, (hlater k d).mpr hd⟩

/-- A walk that has got to the maximum with the first member gets to no later one. -/
theorem not_getsFrom_succ {sum next : Resource} {x : α} {xs : List α} {i : ℕ}
    (hnext : ∀ d, (next.get d).toNat = amount x d) (hfull : min (sum + next) most = most) :
    ¬ GetsFrom most sum amount (x :: xs) (i + 1) := by
  intro h
  obtain ⟨d, hd⟩ := h 0 (Nat.succ_pos i)
  have hstep := toNat_get_step most sum next d
  rw [hfull, hnext] at hstep
  simp only [List.take_succ_cons, List.take_zero, total_cons, total_nil] at hd
  omega

/-- What a walk along members comes to: the exact sum, cut once, of what the renewed members ask for,
and also of what all members ask for as they then are. -/
theorem toNat_get_renewUntil {xs : List α}
    (hrenew : ∀ x ∈ xs, ∀ d, ((demandOf (renew x)).get d).toNat = amount x d) (sum : Resource)
    (hsum : ∀ d, (sum.get d).toNat ≤ (most.get d).toNat) (d : Dimension) :
    let walk := renewUntil demandOf most sum (xs.map fun x => (x, renew x))
    (walk.2.get d).toNat = min (most.get d).toNat ((sum.get d).toNat + total amount xs d) ∧
    (walk.2.get d).toNat = min (most.get d).toNat
      ((sum.get d).toNat + total (fun x d => ((demandOf x).get d).toNat) walk.1 d) := by
  induction xs generalizing sum with
  | nil =>
    have := hsum d
    simp only [List.map_nil, renewUntil, total_nil]
    omega
  | cons x rest ih =>
    have hx := hrenew x List.mem_cons_self d
    have hrest := fun y hy => hrenew y (List.mem_cons_of_mem x hy)
    have hstep := toNat_get_step most sum (demandOf (renew x)) d
    simp only [List.map_cons, renewUntil]
    split
    · rename_i hfull
      rw [hfull] at hstep
      simp only [hfull, total_cons, hx] at hstep ⊢
      omega
    · have hcut : ∀ d, ((min (sum + demandOf (renew x)) most).get d).toNat ≤ (most.get d).toNat := by
        intro d
        rw [toNat_get_step]
        omega
      obtain ⟨htotal, hstored⟩ := ih hrest _ hcut
      simp only [total_cons, hx] at htotal hstored hstep ⊢
      omega

/-- The members after the walk: renewed as far as it gets, the others as they were. -/
theorem getElem?_renewUntil (most : Resource) {xs : List α}
    (hrenew : ∀ x ∈ xs, ∀ d, ((demandOf (renew x)).get d).toNat = amount x d) (sum : Resource)
    (i : ℕ) :
    let walk := renewUntil demandOf most sum (xs.map fun x => (x, renew x))
    (GetsFrom most sum amount xs i → walk.1[i]? = xs[i]?.map renew) ∧
    (¬ GetsFrom most sum amount xs i → walk.1[i]? = xs[i]?) := by
  induction xs generalizing sum i with
  | nil => simp [renewUntil]
  | cons x rest ih =>
    have hx := hrenew x List.mem_cons_self
    have hrest := fun y hy => hrenew y (List.mem_cons_of_mem x hy)
    simp only [List.map_cons, renewUntil]
    cases i with
    | zero =>
      have hfirst : GetsFrom most sum amount (x :: rest) 0 := fun k hk => absurd hk (Nat.not_lt_zero k)
      split <;> simp [hfirst]
    | succ i =>
      split
      · rename_i hfull
        have hnot : ¬ GetsFrom most sum amount (x :: rest) (i + 1) := not_getsFrom_succ hx hfull
        simp [hnot, Function.comp_def]
      · rename_i hopen
        rw [getsFrom_succ hx hopen]
        exact ih hrest _ i

/-- No member is lost on the walk. -/
theorem length_renewUntil (entries : List (α × α)) (sum : Resource) :
    (renewUntil demandOf most sum entries).1.length = entries.length := by
  induction entries generalizing sum with
  | nil => rfl
  | cons e rest ih =>
    simp only [renewUntil]
    split
    · simp
    · simp [ih]

/-- What a walk that begins with nothing comes to, and the members after it. -/
theorem walk_members (demandOf : α → Resource) (renew : α → α) (most : Resource) {xs : List α}
    (hrenew : ∀ x ∈ xs, ∀ d, ((demandOf (renew x)).get d).toNat = amount x d) :
    let walk := renewUntil demandOf most 0 (xs.map fun x => (x, renew x))
    (∀ d, (walk.2.get d).toNat = min (most.get d).toNat (total amount xs d) ∧
      (walk.2.get d).toNat =
        min (most.get d).toNat (total (fun x d => ((demandOf x).get d).toNat) walk.1 d)) ∧
    walk.1.length = xs.length ∧
    ∀ i, (Gets most amount xs i → walk.1[i]? = xs[i]?.map renew) ∧
      (¬ Gets most amount xs i → walk.1[i]? = xs[i]?) := by
  refine ⟨?_, ?_, ?_⟩
  · intro d
    obtain ⟨hfull, hstored⟩ := toNat_get_renewUntil hrenew 0 (Resource.toNat_get_zero_le most) d
    rw [Resource.toNat_get_zero, Nat.zero_add] at hfull hstored
    exact ⟨hfull, hstored⟩
  · rw [length_renewUntil, List.length_map]
  · intro i
    have hmember := getElem?_renewUntil most hrenew 0 i
    rwa [getsFrom_zero] at hmember

end Members

/-! ## The tree -/

/-- The queue at the end of a path of places among children. -/
def below? : List ℕ → Queue F → Option (Queue F)
  | [], q => some q
  | i :: path, q => q.children[i]?.bind (below? path)

/-- Whether the walk gets to the queue at the end of a path. -/
def Reached : List ℕ → Queue F → Prop
  | [], _ => True
  | i :: path, q => Gets q.info.settings.maxShare fullDemand q.children i ∧
      ∃ c, q.children[i]? = some c ∧ Reached path c

/-- What a queue to which the walk gets is afterwards. -/
structure Renewed (q q' : Queue F) : Prop where
  kind : q'.kind = q.kind
  info : q'.info = { q.info with demand := q'.info.demand }
  full : ∀ d, q'.stored d = q.fullDemand d
  sum : q.kind = .parent →
    ∀ d, q'.stored d = min (q.info.settings.maxShare.get d).toNat (total stored q'.children d)
  children : q'.children.length = q.children.length
  runnable : q'.runnable.length = q.runnable.length
  parked : q'.parked.length = q.parked.length
  reached : ∀ i, Gets q.info.settings.maxShare wants q.ownAttempts i →
    q'.ownAttempts[i]? = q.ownAttempts[i]?.map Attempt.updateDemand
  left : ∀ i, ¬ Gets q.info.settings.maxShare wants q.ownAttempts i →
    q'.ownAttempts[i]? = q.ownAttempts[i]?

theorem updateDemand_leaf (info : QueueInfo F) (runnable parked : List (Attempt F)) :
    (leaf info runnable parked).updateDemand =
      let renewed := renewUntil Attempt.demand info.settings.maxShare 0
        ((runnable ++ parked).map fun a => (a, a.updateDemand))
      leaf { info with demand := renewed.2 } (renewed.1.take runnable.length)
        (renewed.1.drop runnable.length) := by
  rw [updateDemand, fold_leaf]

/-- The demand that the walk gives a queue is its full demand. -/
theorem stored_updateDemand (q : Queue F) (d : Dimension) :
    q.updateDemand.stored d = q.fullDemand d := by
  induction q using Queue.induction generalizing d with
  | leaf info runnable parked =>
    obtain ⟨hsums, -⟩ := walk_members Attempt.demand Attempt.updateDemand info.settings.maxShare
      fun a (_ : a ∈ runnable ++ parked) d => (rfl : _ = wants a d)
    rw [updateDemand_leaf, fullDemand_leaf]
    exact (hsums d).1
  | parent info children ih =>
    obtain ⟨hsums, -⟩ :=
      walk_members (fun c : Queue F => c.info.demand) updateDemand info.settings.maxShare ih
    rw [updateDemand_parent, fullDemand_parent]
    exact (hsums d).1

/-- The queue at which the walk begins is renewed. -/
theorem renewed_updateDemand (q : Queue F) : Renewed q q.updateDemand := by
  have hfull := stored_updateDemand q
  cases q with
  | leaf info runnable parked =>
    obtain ⟨-, hlength, hmember⟩ := walk_members Attempt.demand Attempt.updateDemand
      info.settings.maxShare fun a (_ : a ∈ runnable ++ parked) d => (rfl : _ = wants a d)
    rw [List.length_append] at hlength
    rw [updateDemand_leaf] at hfull ⊢
    refine ⟨rfl, rfl, hfull, ?_, rfl, ?_, ?_, ?_, ?_⟩
    · intro hkind
      contradiction
    · change (List.take runnable.length _).length = runnable.length
      rw [List.length_take, hlength, Nat.min_eq_left (Nat.le_add_right _ _)]
    · change (List.drop runnable.length _).length = parked.length
      rw [List.length_drop, hlength, Nat.add_sub_cancel_left]
    · intro i hi
      simpa only [ownAttempts, List.take_append_drop] using (hmember i).1 hi
    · intro i hi
      simpa only [ownAttempts, List.take_append_drop] using (hmember i).2 hi
  | parent info children =>
    obtain ⟨hsums, hlength, -⟩ := walk_members (fun c : Queue F => c.info.demand) updateDemand
      info.settings.maxShare fun c (_ : c ∈ children) => stored_updateDemand c
    rw [updateDemand_parent] at hfull ⊢
    exact ⟨rfl, rfl, hfull, fun _ d => (hsums d).2, hlength, rfl, rfl, by simp [ownAttempts],
      by simp [ownAttempts]⟩

/-- The children of a queue at which the walk begins. -/
theorem children_updateDemand (q : Queue F) (i : ℕ) :
    (Gets q.info.settings.maxShare fullDemand q.children i →
      q.updateDemand.children[i]? = q.children[i]?.map updateDemand) ∧
    (¬ Gets q.info.settings.maxShare fullDemand q.children i →
      q.updateDemand.children[i]? = q.children[i]?) := by
  cases q with
  | leaf info runnable parked => simp [updateDemand_leaf, Queue.children]
  | parent info children =>
    obtain ⟨-, -, hmember⟩ := walk_members (fun c : Queue F => c.info.demand) updateDemand
      info.settings.maxShare fun c (_ : c ∈ children) => stored_updateDemand c
    rw [updateDemand_parent]
    exact hmember i

/-- The demand of the queue at which the walk begins is its full demand. Every queue to which the walk
gets is renewed, with the full demand again, and every other queue is as it was with all that is below
it. -/
theorem updateDemand_eq_fullDemand (q : Queue F) :
    (∀ d, q.updateDemand.stored d = q.fullDemand d) ∧
    ∀ path r, q.below? path = some r → ∃ r', q.updateDemand.below? path = some r' ∧
      (q.Reached path → Renewed r r') ∧ (¬ q.Reached path → r' = r) := by
  refine ⟨stored_updateDemand q, ?_⟩
  intro path
  induction path generalizing q with
  | nil =>
    rintro r hr
    obtain rfl := Option.some.inj hr
    exact ⟨q.updateDemand, rfl, fun _ => renewed_updateDemand q, fun h => absurd trivial h⟩
  | cons i path ih =>
    intro r hr
    obtain ⟨c, hc, hr⟩ := Option.bind_eq_some_iff.mp hr
    obtain ⟨hgets, hnot⟩ := children_updateDemand q i
    rw [hc] at hgets hnot
    by_cases hi : Gets q.info.settings.maxShare fullDemand q.children i
    · obtain ⟨r', hr', hreached, hleft⟩ := ih c r hr
      refine ⟨r', by simp [below?, hgets hi, hr'], ?_, ?_⟩
      · rintro ⟨-, c', hc', hpath⟩
        obtain rfl := Option.some.inj (hc.symm.trans hc')
        exact hreached hpath
      · intro hpath
        exact hleft fun h => hpath ⟨hi, c, hc, h⟩
    · refine ⟨r, by simp [below?, hnot hi, hr], fun h => absurd h.1 hi, fun _ => rfl⟩

/-- A leaf queue whose only application waits for a resource. -/
def waiting (name : String) (serial : ℕ) (r : Resource) : Queue Float :=
  leaf ⟨name, serial, .fair, .onDemand, 0, 0, 0⟩
    [{ Attempt.new "app" "user" name 0 serial with usage := Usage.addPending Table.empty r }] []

/-- A parent queue whose first child asks for all that the parent may have. -/
def sated : Queue Float :=
  parent ⟨"root", 0, .fair, { (.onDemand : QueueSettings Float) with maxShare := ⟨2, 2⟩ }, 0, 0, 0⟩
    [waiting "root.a" 1 ⟨3, 2⟩, waiting "root.b" 2 ⟨1, 1⟩]

/-- The walk does not get to the second child, whose demand stays at nothing. -/
theorem updateDemand_of_sated :
    sated.below? [1] = some (waiting "root.b" 2 ⟨1, 1⟩) ∧ ¬ sated.Reached [1] ∧
      sated.updateDemand.stored .memory = 2 ∧
      sated.updateDemand.below? [1] = some (waiting "root.b" 2 ⟨1, 1⟩) := by
  have hbelow : sated.below? [1] = some (waiting "root.b" 2 ⟨1, 1⟩) := rfl
  have hnot : ¬ sated.Reached [1] := by
    rintro ⟨hgets, -⟩
    obtain ⟨d, hd⟩ := hgets 0 Nat.one_pos
    cases d <;> exact absurd hd (by decide)
  obtain ⟨hfull, hpaths⟩ := updateDemand_eq_fullDemand sated
  obtain ⟨r', hr', -, hleft⟩ := hpaths [1] _ hbelow
  refine ⟨hbelow, hnot, (hfull .memory).trans (by decide), ?_⟩
  rw [hr', hleft hnot]

end Queue

end Allotment
