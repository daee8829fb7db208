import Allotment.Proofs.Queue.Demand
import Allotment.Proofs.Queue.Similar

/-!
# Shares and demands computed anew

Computing shares reads demands and settings and writes shares; bringing demands up to date reads what
applications hold and wait for and writes demands. Neither writes what it reads, so doing it again
changes nothing, and the three do not disturb each other.

What a function leaves alone is said by taking away what it writes: `withoutFair`, `withoutSteady` and
`withoutDemand` are the tree with every fair share, steady share or demand set to nothing. A tree is
known by what is left when one part is taken away and what is left when another is (`ext_alter`).
-/

namespace Allotment

section Lists

variable {α β γ δ : Type}

/-- Lists are equal whose elements two functions together tell apart. -/
theorem eq_of_map_eq_of_map_eq {f : α → β} {g : α → γ} {xs ys : List α}
    (h : ∀ x ∈ xs, ∀ y, f x = f y → g x = g y → x = y) (hf : xs.map f = ys.map f)
    (hg : xs.map g = ys.map g) : xs = ys := by
  induction xs generalizing ys with
  | nil => simpa [eq_comm] using hf
  | cons x rest ih =>
    cases ys with
    | nil => simp at hf
    | cons y ys =>
      simp only [List.map_cons, List.cons.injEq] at hf hg
      obtain rfl := h x List.mem_cons_self y hf.1 hg.1
      rw [ih (fun z hz => h z (List.mem_cons_of_mem _ hz)) hf.2 hg.2]

/-- What depends on the first of two lists alone is found in that list. -/
theorem map_zipWith_left {f : α → β → γ} {g : γ → δ} {k : α → δ} {xs : List α} {ys : List β}
    (hlength : ys.length = xs.length) (h : ∀ x ∈ xs, ∀ y, g (f x y) = k x) :
    (List.zipWith f xs ys).map g = xs.map k := by
  induction xs generalizing ys with
  | nil => simp
  | cons x rest ih =>
    cases ys with
    | nil => simp at hlength
    | cons y ys =>
      have hrest := ih (by simpa using hlength) fun z hz => h z (List.mem_cons_of_mem _ hz)
      simp only [List.zipWith_cons_cons, List.map_cons, hrest, h x List.mem_cons_self y]

/-- A change that undoes what was done before may as well be made at once. -/
theorem zipWith_zipWith_of_overwrites {f : α → β → α} {g : α → γ → δ} {xs : List α} {ys : List β}
    {zs : List γ} (hlength : ys.length = xs.length) (h : ∀ x ∈ xs, ∀ y z, g (f x y) z = g x z) :
    List.zipWith g (List.zipWith f xs ys) zs = List.zipWith g xs zs := by
  induction xs generalizing ys zs with
  | nil => simp
  | cons x rest ih =>
    cases ys with
    | nil => simp at hlength
    | cons y ys =>
      cases zs with
      | nil => simp
      | cons z zs =>
        have hrest : List.zipWith g (List.zipWith f rest ys) zs = List.zipWith g rest zs :=
          ih (by simpa using hlength) fun w hw => h w (List.mem_cons_of_mem _ hw)
        simp only [List.zipWith_cons_cons, hrest, h x List.mem_cons_self y z]

/-- Changes that do not disturb each other may be made in either order. -/
theorem zipWith_zipWith_comm {f : α → β → α} {g : α → γ → α} {xs : List α} {ys : List β}
    {zs : List γ} (h : ∀ x ∈ xs, ∀ y z, g (f x y) z = f (g x z) y) :
    List.zipWith g (List.zipWith f xs ys) zs = List.zipWith f (List.zipWith g xs zs) ys := by
  induction xs generalizing ys zs with
  | nil => simp
  | cons x rest ih =>
    cases ys with
    | nil => simp
    | cons y ys =>
      cases zs with
      | nil => simp
      | cons z zs =>
        have hrest : List.zipWith g (List.zipWith f rest ys) zs =
            List.zipWith f (List.zipWith g rest zs) ys :=
          ih fun w hw => h w (List.mem_cons_of_mem _ hw)
        simp only [List.zipWith_cons_cons, hrest, h x List.mem_cons_self y z]

end Lists

namespace Queue

variable {F : Type}

/-! ## Walks along members -/

section Members

variable {α β : Type} {demandOf : α → Resource} {most : Resource}

/-- What a walk does not write is there after it. -/
theorem map_renewUntil {f : α → β} (entries : List (α × α)) (sum : Resource)
    (h : ∀ e ∈ entries, f e.2 = f e.1) :
    (renewUntil demandOf most sum entries).1.map f = entries.map fun e => f e.1 := by
  induction entries generalizing sum with
  | nil => rfl
  | cons e rest ih =>
    have hfirst := h e List.mem_cons_self
    have hrest : ∀ e ∈ rest, f e.2 = f e.1 := fun e' he' => h e' (List.mem_cons_of_mem e he')
    simp only [renewUntil]
    split
    · simp [hfirst]
    · simp [hfirst, ih _ hrest]

/-- A walk along changed members is the walk along the members, changed, if the change leaves their
demands alone. -/
theorem renewUntil_map {f : α → α} (hf : ∀ x, demandOf (f x) = demandOf x) (entries : List (α × α))
    (sum : Resource) :
    renewUntil demandOf most sum (entries.map fun e => (f e.1, f e.2)) =
      ((renewUntil demandOf most sum entries).1.map f,
        (renewUntil demandOf most sum entries).2) := by
  induction entries generalizing sum with
  | nil => rfl
  | cons e rest ih =>
    simp only [List.map_cons, renewUntil, hf]
    split
    · simp [Function.comp_def]
    · simp [ih]

/-- A walk along members that were renewed by a walk comes to the same, if renewing a member twice is
renewing it once. -/
theorem renewUntil_renewUntil {renew : α → α} {xs : List α}
    (h : ∀ x ∈ xs, renew (renew x) = renew x) (sum : Resource) :
    renewUntil demandOf most sum
        ((renewUntil demandOf most sum (xs.map fun x => (x, renew x))).1.map
          fun x => (x, renew x)) =
      renewUntil demandOf most sum (xs.map fun x => (x, renew x)) := by
  induction xs generalizing sum with
  | nil => rfl
  | cons x rest ih =>
    have hfirst := h x List.mem_cons_self
    have hrest : ∀ y ∈ rest, renew (renew y) = renew y := fun y hy => h y (List.mem_cons_of_mem x hy)
    by_cases hfull : min (sum + demandOf (renew x)) most = most
    · simp [renewUntil, hfull, hfirst]
    · simp [renewUntil, hfull, hfirst, ih hrest]

end Members

/-! ## Taking parts of a tree away -/

/-- The tree with the common part of every queue and every application changed. -/
def alter (f : QueueInfo F → QueueInfo F) (g : Attempt F → Attempt F) : Queue F → Queue F :=
  fold (fun info runnable parked => leaf (f info) (runnable.map g) (parked.map g))
    (fun info entries => parent (f info) (entries.map (·.2)))

/-- The tree without fair shares. -/
def withoutFair : Queue F → Queue F :=
  alter ({ · with fairShare := 0 }) ({ · with fairShare := 0 })

/-- The tree without steady shares. -/
def withoutSteady : Queue F → Queue F := alter ({ · with steadyShare := 0 }) id

/-- The tree without demands. -/
def withoutDemand : Queue F → Queue F :=
  alter ({ · with demand := 0 }) ({ · with demand := 0 })

section Alter

variable {f f' : QueueInfo F → QueueInfo F} {g g' : Attempt F → Attempt F}

@[simp] theorem alter_leaf (info : QueueInfo F) (runnable parked : List (Attempt F)) :
    (leaf info runnable parked).alter f g = leaf (f info) (runnable.map g) (parked.map g) := by
  simp [alter]

@[simp] theorem alter_parent (info : QueueInfo F) (children : List (Queue F)) :
    (parent info children).alter f g = parent (f info) (children.map (alter f g)) := by
  unfold alter
  rw [fold_parent]
  simp only [List.map_map, Function.comp_def]

theorem info_alter (q : Queue F) : (q.alter f g).info = f q.info := by
  cases q <;> simp [info]

/-- The queues of a changed tree are the changed queues of the tree. -/
theorem all_alter (q : Queue F) : (q.alter f g).all = q.all.map (alter f g) := by
  induction q using Queue.induction with
  | leaf info runnable parked => simp
  | parent info children ih =>
    rw [alter_parent, all_parent, all_parent, List.map_cons, alter_parent, List.flatMap_map,
      List.map_flatMap]
    congr 1
    exact List.flatMap_congr ih

/-- The queues below keep their names when no queue is given another one. -/
theorem map_name_descendants_alter (hname : ∀ i, (f i).name = i.name) (q : Queue F) :
    (q.alter f g).descendants.map name = q.descendants.map name := by
  rw [descendants, descendants, all_alter, ← List.map_tail, List.map_map]
  refine List.map_congr_left fun r _ => ?_
  rw [Function.comp_apply, name, info_alter, hname]
  rfl

/-- How many applications may run does not depend on what queues and applications are. -/
theorem runnableCount_alter (q : Queue F) : (q.alter f g).runnableCount = q.runnableCount := by
  unfold runnableCount
  induction q using Queue.induction with
  | leaf info runnable parked => simp
  | parent info children ih =>
    rw [alter_parent, fold_parent, fold_parent, List.foldr_map, List.foldr_map, List.foldr_map]
    exact List.foldr_ext _ _ _ fun c hc n => by rw [ih c hc]

/-- What a division may know of a queue does not depend on more than its serial number, its settings
and its demand. -/
theorem claimant_alter (hserial : ∀ i, (f i).serial = i.serial)
    (hsettings : ∀ i, (f i).settings = i.settings) (hdemand : ∀ i, (f i).demand = i.demand)
    (q : Queue F) : (q.alter f g).claimant = q.claimant := by
  simp only [claimant, isActive, info_alter, runnableCount_alter, hserial, hsettings, hdemand]

theorem claimant_withoutFair (q : Queue F) : q.withoutFair.claimant = q.claimant := by
  unfold withoutFair
  apply claimant_alter <;> intro i <;> rfl

theorem claimant_withoutSteady (q : Queue F) : q.withoutSteady.claimant = q.claimant := by
  unfold withoutSteady
  apply claimant_alter <;> intro i <;> rfl

/-- Two changes that together tell queues and applications apart tell trees apart. -/
theorem ext_alter (hinfo : ∀ i i', f i = f i' → f' i = f' i' → i = i')
    (hattempt : ∀ a a', g a = g a' → g' a = g' a' → a = a') {q r : Queue F}
    (h : q.alter f g = r.alter f g) (h' : q.alter f' g' = r.alter f' g') : q = r := by
  induction q using Queue.induction generalizing r with
  | leaf info runnable parked =>
    cases r with
    | parent => simp at h
    | leaf info' runnable' parked' =>
      simp only [alter_leaf, leaf.injEq] at h h'
      obtain rfl := hinfo _ _ h.1 h'.1
      rw [eq_of_map_eq_of_map_eq (fun a _ => hattempt a) h.2.1 h'.2.1,
        eq_of_map_eq_of_map_eq (fun a _ => hattempt a) h.2.2 h'.2.2]
  | parent info children ih =>
    cases r with
    | leaf => simp at h
    | parent info' children' =>
      simp only [alter_parent, parent.injEq] at h h'
      obtain rfl := hinfo _ _ h.1 h'.1
      rw [eq_of_map_eq_of_map_eq (fun c hc r => ih c hc) h.2 h'.2]

/-- A tree is known by what it is without fair shares and what it is without demands. -/
theorem ext_withoutFair_withoutDemand {q r : Queue F} (hfair : q.withoutFair = r.withoutFair)
    (hdemand : q.withoutDemand = r.withoutDemand) : q = r := by
  refine ext_alter ?_ ?_ hfair hdemand
  · rintro ⟨⟩ ⟨⟩ h h'
    simp_all
  · rintro ⟨⟩ ⟨⟩ h h'
    simp_all

end Alter

/-! ## Demands -/

/-- Bringing demands up to date writes demands only. -/
theorem withoutDemand_updateDemand (q : Queue F) :
    q.updateDemand.withoutDemand = q.withoutDemand := by
  unfold withoutDemand
  induction q using Queue.induction with
  | leaf info runnable parked =>
    rw [updateDemand_leaf]
    simp only [alter_leaf, List.map_take, List.map_drop]
    rw [map_renewUntil]
    · simp [Function.comp_def]
    · intro e he
      obtain ⟨a, -, rfl⟩ := List.mem_map.mp he
      rfl
  | parent info children ih =>
    rw [updateDemand_parent]
    simp only [alter_parent]
    rw [map_renewUntil]
    · simp [Function.comp_def]
    · simpa using ih

/-- A change of queues and applications that leaves demands, what they are reckoned from and maximum
shares alone may as well be made after demands were brought up to date. -/
theorem updateDemand_alter {f : QueueInfo F → QueueInfo F} {g : Attempt F → Attempt F}
    (hmost : ∀ i, (f i).settings.maxShare = i.settings.maxShare)
    (hdemand : ∀ i, (f i).demand = i.demand)
    (hf : ∀ i d, f { i with demand := d } = { f i with demand := d })
    (hwants : ∀ a, (g a).demand = a.demand) (hg : ∀ a, (g a).updateDemand = g a.updateDemand)
    (q : Queue F) : (q.alter f g).updateDemand = q.updateDemand.alter f g := by
  induction q using Queue.induction with
  | leaf info runnable parked =>
    have hentries : ((runnable ++ parked).map g).map (fun a => (a, a.updateDemand)) =
        ((runnable ++ parked).map fun a => (a, a.updateDemand)).map fun e => (g e.1, g e.2) := by
      rw [List.map_map, List.map_map]
      exact List.map_congr_left fun a _ => Prod.ext rfl (hg a)
    simp only [alter_leaf, updateDemand_leaf, ← List.map_append, hentries, hmost,
      renewUntil_map hwants, List.map_take, List.map_drop, List.length_map]
    rw [← hf]
  | parent info children ih =>
    have hentries : (children.map (alter f g)).map (fun c => (c, c.updateDemand)) =
        (children.map fun c => (c, c.updateDemand)).map fun e => (e.1.alter f g, e.2.alter f g) := by
      rw [List.map_map, List.map_map]
      exact List.map_congr_left fun c hc => Prod.ext rfl (ih c hc)
    have hchild : ∀ c : Queue F, (c.alter f g).info.demand = c.info.demand := fun c => by
      rw [info_alter, hdemand]
    simp only [alter_parent, updateDemand_parent, hentries, hmost,
      @renewUntil_map (Queue F) (fun c => c.info.demand) _ _ hchild]
    rw [← hf]

/-- Demands do not depend on fair shares. -/
theorem updateDemand_withoutFair (q : Queue F) :
    q.withoutFair.updateDemand = q.updateDemand.withoutFair := by
  unfold withoutFair
  apply updateDemand_alter <;> intros <;> rfl

/-- Bringing demands up to date twice is doing it once. -/
theorem updateDemand_updateDemand (q : Queue F) : q.updateDemand.updateDemand = q.updateDemand := by
  induction q using Queue.induction with
  | leaf info runnable parked =>
    have hlength : (renewUntil Attempt.demand info.settings.maxShare 0
        ((runnable ++ parked).map fun a => (a, a.updateDemand))).1.length =
          ((runnable ++ parked).map fun a => (a, a.updateDemand)).length := length_renewUntil _ _
    have hrunnable : ((renewUntil Attempt.demand info.settings.maxShare 0
        ((runnable ++ parked).map fun a => (a, a.updateDemand))).1.take runnable.length).length =
          runnable.length := by
      rw [List.length_take, hlength, List.length_map, List.length_append]
      exact Nat.min_eq_left (Nat.le_add_right _ _)
    rw [updateDemand_leaf]
    simp only [updateDemand_leaf, List.take_append_drop, hrunnable]
    rw [renewUntil_renewUntil]
    exact fun a _ => rfl
  | parent info children ih =>
    rw [updateDemand_parent]
    simp only [updateDemand_parent]
    rw [renewUntil_renewUntil ih]

/-! ## Shares -/

section Shares

variable [Scalar F]

theorem giveFair_leaf (info : QueueInfo F) (runnable parked : List (Attempt F)) (share : Resource) :
    (leaf info runnable parked).giveFair share =
      leaf { info with fairShare := share }
        (List.zipWith (fun a s => { a with fairShare := s }) runnable
          (info.policy.shares .moment share (runnable.map Attempt.claimant))) parked := by
  simp [giveFair]

/-- Giving fair shares writes fair shares only. -/
theorem withoutFair_giveFair (q : Queue F) (share : Resource) :
    (q.giveFair share).withoutFair = q.withoutFair := by
  unfold withoutFair
  induction q using Queue.induction generalizing share with
  | leaf info runnable parked =>
    rw [giveFair_leaf, alter_leaf, alter_leaf, map_zipWith_left]
    · rw [length_shares, List.length_map]
    · exact fun _ _ _ => rfl
  | parent info children ih =>
    rw [giveFair_parent, alter_parent, alter_parent, map_zipWith_left]
    · rw [fairShares, length_shares, List.length_map]
    · exact ih

/-- Giving steady shares writes steady shares only. -/
theorem withoutSteady_giveSteady (q : Queue F) (share : Resource) :
    (q.giveSteady share).withoutSteady = q.withoutSteady := by
  unfold withoutSteady
  induction q using Queue.induction generalizing share with
  | leaf info runnable parked => rw [giveSteady_leaf, alter_leaf, alter_leaf]
  | parent info children ih =>
    rw [giveSteady_parent, alter_parent, alter_parent, map_zipWith_left]
    · rw [steadyShares, length_shares, List.length_map]
    · exact ih

/-- The queues below keep their names when steady shares are given. -/
theorem map_name_descendants_giveSteady (q : Queue F) (share : Resource) :
    (q.giveSteady share).descendants.map name = q.descendants.map name := by
  have hkept := congrArg (fun r : Queue F => r.descendants.map name)
    (q.withoutSteady_giveSteady share)
  simp only [withoutSteady] at hkept
  rwa [map_name_descendants_alter, map_name_descendants_alter] at hkept
  all_goals exact fun _ => rfl

/-- Divisions do not depend on fair shares that were given before. -/
theorem claimant_giveFair (q : Queue F) (share : Resource) :
    (q.giveFair share).claimant = q.claimant := by
  rw [← claimant_withoutFair, withoutFair_giveFair, claimant_withoutFair]

/-- Divisions do not depend on steady shares that were given before. -/
theorem claimant_giveSteady (q : Queue F) (share : Resource) :
    (q.giveSteady share).claimant = q.claimant := by
  rw [← claimant_withoutSteady, withoutSteady_giveSteady, claimant_withoutSteady]

theorem length_fairShares (info : QueueInfo F) (children : List (Queue F)) (share : Resource) :
    (fairShares info children share).length = children.length := by
  rw [fairShares, length_shares, List.length_map]

theorem length_steadyShares (info : QueueInfo F) (children : List (Queue F)) (share : Resource) :
    (steadyShares info children share).length = children.length := by
  rw [steadyShares, length_shares, List.length_map]

/-- Giving children fair shares does not change what a division may know of them. -/
theorem map_claimant_giveFair (info : QueueInfo F) (children : List (Queue F)) (share : Resource) :
    (List.zipWith giveFair children (fairShares info children share)).map claimant =
      children.map claimant :=
  map_zipWith_left (length_fairShares info children share) fun c _ => claimant_giveFair c

/-- Giving children steady shares does not change what a division may know of them. -/
theorem map_claimant_giveSteady (info : QueueInfo F) (children : List (Queue F)) (share : Resource) :
    (List.zipWith giveSteady children (steadyShares info children share)).map claimant =
      children.map claimant :=
  map_zipWith_left (length_steadyShares info children share) fun c _ => claimant_giveSteady c

/-- Fair shares given before are replaced by those given after. -/
theorem giveFair_giveFair (q : Queue F) (share share' : Resource) :
    (q.giveFair share).giveFair share' = q.giveFair share' := by
  induction q using Queue.induction generalizing share share' with
  | leaf info runnable parked =>
    have hlength := length_shares info.policy .moment share (runnable.map Attempt.claimant)
    rw [List.length_map] at hlength
    rw [giveFair_leaf, giveFair_leaf, giveFair_leaf, map_zipWith_left (k := Attempt.claimant) hlength]
    · rw [zipWith_zipWith_of_overwrites hlength]
      exact fun _ _ _ _ => rfl
    · exact fun _ _ _ => rfl
  | parent info children ih =>
    have hshares : fairShares { info with fairShare := share }
        (List.zipWith giveFair children (fairShares info children share)) share' =
          fairShares info children share' := by
      rw [fairShares, map_claimant_giveFair, fairShares]
    rw [giveFair_parent, giveFair_parent, giveFair_parent, hshares,
      zipWith_zipWith_of_overwrites (length_fairShares info children share) ih]

/-- Steady shares given before are replaced by those given after. -/
theorem giveSteady_giveSteady (q : Queue F) (share share' : Resource) :
    (q.giveSteady share).giveSteady share' = q.giveSteady share' := by
  induction q using Queue.induction generalizing share share' with
  | leaf info runnable parked => rw [giveSteady_leaf, giveSteady_leaf, giveSteady_leaf]
  | parent info children ih =>
    have hshares : steadyShares { info with steadyShare := share }
        (List.zipWith giveSteady children (steadyShares info children share)) share' =
          steadyShares info children share' := by
      rw [steadyShares, map_claimant_giveSteady, steadyShares]
    rw [giveSteady_parent, giveSteady_parent, giveSteady_parent, hshares,
      zipWith_zipWith_of_overwrites (length_steadyShares info children share) ih]

/-- Fair and steady shares may be given in either order. -/
theorem giveFair_giveSteady (q : Queue F) (steady fair : Resource) :
    (q.giveSteady steady).giveFair fair = (q.giveFair fair).giveSteady steady := by
  induction q using Queue.induction generalizing steady fair with
  | leaf info runnable parked => rw [giveSteady_leaf, giveFair_leaf, giveFair_leaf, giveSteady_leaf]
  | parent info children ih =>
    have hfair : fairShares { info with steadyShare := steady }
        (List.zipWith giveSteady children (steadyShares info children steady)) fair =
          fairShares info children fair := by
      rw [fairShares, map_claimant_giveSteady, fairShares]
    have hsteady : steadyShares { info with fairShare := fair }
        (List.zipWith giveFair children (fairShares info children fair)) steady =
          steadyShares info children steady := by
      rw [steadyShares, map_claimant_giveFair, steadyShares]
    rw [giveSteady_parent, giveFair_parent, giveFair_parent, giveSteady_parent, hfair, hsteady,
      zipWith_zipWith_comm ih]

theorem info_giveFair (q : Queue F) (share : Resource) :
    (q.giveFair share).info = { q.info with fairShare := share } := by
  cases q with
  | leaf info runnable parked =>
    rw [giveFair_leaf]
    rfl
  | parent info children =>
    rw [giveFair_parent]
    rfl

theorem info_giveSteady (q : Queue F) (share : Resource) :
    (q.giveSteady share).info = { q.info with steadyShare := share } := by
  cases q with
  | leaf info runnable parked =>
    rw [giveSteady_leaf]
    rfl
  | parent info children =>
    rw [giveSteady_parent]
    rfl

/-- Demands that are up to date are so after fair shares were given. -/
theorem updateDemand_giveFair {q : Queue F} (h : q.updateDemand = q) (share : Resource) :
    (q.giveFair share).updateDemand = q.giveFair share := by
  apply ext_withoutFair_withoutDemand
  · rw [← updateDemand_withoutFair, withoutFair_giveFair, updateDemand_withoutFair, h]
  · rw [withoutDemand_updateDemand]

/-- The shares of one outlook computed anew below a queue. -/
def recompute : Outlook → Queue F → Queue F
  | .moment => recomputeFair
  | .steady => recomputeSteady

/-- Computing shares a second time changes nothing. -/
theorem recompute_recompute (o : Outlook) (q : Queue F) :
    recompute o (recompute o q) = recompute o q := by
  cases o with
  | moment => simp only [recompute, recomputeFair, info_giveFair, giveFair_giveFair]
  | steady => simp only [recompute, recomputeSteady, info_giveSteady, giveSteady_giveSteady]

/-- Shares of the two outlooks may be computed in either order. -/
theorem recompute_comm (o o' : Outlook) (q : Queue F) :
    recompute o (recompute o' q) = recompute o' (recompute o q) := by
  have hcomm : q.recomputeSteady.recomputeFair = q.recomputeFair.recomputeSteady := by
    simp only [recomputeFair, recomputeSteady, info_giveFair, info_giveSteady, giveFair_giveSteady]
  cases o <;> cases o'
  · rfl
  · exact hcomm
  · exact hcomm.symm
  · rfl

end Shares

end Queue

end Allotment
