import Allotment.Proofs.Queue.Fold
import Allotment.Queue.Leaf
import Mathlib.Data.List.Forall2
import Mathlib.Data.List.Perm.Basic

/-!
# Trees of one make

Assigning containers, asking them back and computing shares change applications, demands and shares,
and may put children in another order, but no such function adds or removes a queue or changes what
is configured. `Similar` says so once for all of them; what depends on nothing else carries over from
one of two similar trees to the other.
-/

namespace Allotment

/-- What is configured of a queue, with its name and its serial number. -/
structure Fixture (F : Type) where
  name : String
  serial : ℕ
  policy : Policy
  settings : QueueSettings F

/-- What is configured of a queue. -/
def QueueInfo.fixture {F : Type} (info : QueueInfo F) : Fixture F :=
  ⟨info.name, info.serial, info.policy, info.settings⟩

namespace Queue

variable {F α β : Type}

/-- Whether two trees agree, queue by queue, in a part of what every queue has, with the children of
each parent in any order. -/
inductive Similar (key : QueueInfo F → α) : Queue F → Queue F → Prop where
  | leaf (info info' : QueueInfo F) (runnable parked runnable' parked' : List (Attempt F))
      (hkey : key info' = key info) :
      Similar key (leaf info runnable parked) (leaf info' runnable' parked')
  | parent (info info' : QueueInfo F) (children renewed children' : List (Queue F))
      (hkey : key info' = key info) (hall : List.Forall₂ (Similar key) children renewed)
      (hperm : renewed.Perm children') : Similar key (parent info children) (parent info' children')

namespace Similar

variable {key : QueueInfo F → α} {q q' : Queue F}

/-- Similar queues agree at the top. -/
theorem key_eq (h : Similar key q q') : key q'.info = key q.info := by
  cases h with
  | leaf info info' runnable parked runnable' parked' hkey => exact hkey
  | parent info info' children renewed children' hkey hall hperm => exact hkey

/-- Similar queues are of one kind. -/
theorem kind_eq (h : Similar key q q') : q'.kind = q.kind := by
  cases h <;> rfl

/-- A parent is similar to one whose children are similar to its own in the same order. -/
theorem of_forall₂ {info info' : QueueInfo F} {children children' : List (Queue F)}
    (hkey : key info' = key info) (hall : List.Forall₂ (Similar key) children children') :
    Similar key (Queue.parent info children) (Queue.parent info' children') :=
  .parent info info' children children' children' hkey hall (List.Perm.refl children')

/-- A parent is similar to one whose children have been changed for similar ones. -/
theorem of_map (info info' : QueueInfo F) (children : List (Queue F)) (f : Queue F → Queue F)
    (hkey : key info' = key info) (hf : ∀ q ∈ children, Similar key q (f q)) :
    Similar key (Queue.parent info children) (Queue.parent info' (children.map f)) := by
  apply of_forall₂ hkey
  rw [List.forall₂_map_right_iff, List.forall₂_same]
  exact hf

/-- A queue is similar to itself. -/
theorem refl (key : QueueInfo F → α) (q : Queue F) : Similar key q q := by
  induction q using Queue.induction with
  | leaf info runnable parked => exact leaf info info runnable parked runnable parked rfl
  | parent info children ih =>
    simpa using of_map info info children id rfl ih

/-- Trees that agree in a part agree in what depends on that part. -/
theorem mono {key' : QueueInfo F → β} (hkeys : ∀ i i', key i' = key i → key' i' = key' i)
    (h : Similar key q q') : Similar key' q q' := by
  induction q using Queue.induction generalizing q' with
  | leaf info runnable parked =>
    cases h with
    | leaf _ info' _ _ runnable' parked' hkey =>
      exact leaf info info' runnable parked runnable' parked' (hkeys info info' hkey)
  | parent info children ih =>
    cases h with
    | parent _ info' _ renewed children' hkey hall hperm =>
      refine parent info info' children renewed children' (hkeys info info' hkey) ?_ hperm
      rw [List.forall₂_iff_get] at hall ⊢
      refine ⟨hall.1, ?_⟩
      intro i hi hi'
      exact ih _ (List.get_mem _ _) (hall.2 i hi hi')

/-- Trees of one make bear the same names. -/
theorem names (h : Similar QueueInfo.fixture q q') : Similar QueueInfo.name q q' :=
  h.mono fun _ _ hfixture => congrArg Fixture.name hfixture

end Similar

/-! ## Functions that keep the make -/

section Keep

variable {key : QueueInfo F → α}

/-- Changing the queues of a name for similar ones gives a similar tree. -/
theorem similar_modify (name : String) {f : Queue F → Queue F} (q : Queue F)
    (hf : ∀ r ∈ q.all, r.name = name → Similar key r (f r)) : Similar key q (q.modify name f) := by
  induction q using Queue.induction with
  | leaf info runnable parked =>
    rw [modify_leaf]
    split
    · rename_i hname
      exact hf _ (mem_all_self _) hname
    · exact .refl key _
  | parent info children ih =>
    rw [modify_parent]
    split
    · rename_i hname
      exact hf _ (mem_all_self _) hname
    · apply Similar.of_map info info children _ rfl
      intro q hq
      apply ih q hq
      intro r hr
      exact hf r (mem_all_of_child hq hr)

/-- Changing the common part, but not what is compared, gives a similar queue. -/
theorem similar_withInfo (f : QueueInfo F → QueueInfo F) (hf : ∀ info, key (f info) = key info)
    (q : Queue F) : Similar key q (q.withInfo f) := by
  cases q with
  | leaf info runnable parked => exact .leaf info _ runnable parked runnable parked (hf info)
  | parent info children =>
    have hsame := Similar.of_map info (f info) children id (hf info) fun q _ => Similar.refl key q
    rw [List.map_id] at hsame
    exact hsame

/-- Changing applications gives a similar tree. -/
theorem similar_mapAttempts (f : Attempt F → Attempt F) (q : Queue F) :
    Similar key q (q.mapAttempts f) := by
  induction q using Queue.induction with
  | leaf info runnable parked =>
    rw [mapAttempts_leaf]
    exact .leaf info info runnable parked _ _ rfl
  | parent info children ih =>
    rw [mapAttempts_parent]
    exact .of_map info info children _ rfl ih

/-- Moving parked applications up gives a similar queue. -/
theorem similar_promoteParked (q : Queue F) : Similar key q q.promoteParked := by
  cases q with
  | leaf info runnable parked => exact .leaf info info runnable parked _ _ rfl
  | parent info children => exact .refl key _

/-- An application more gives a similar queue. -/
theorem similar_addAttempt (a : Attempt F) (q : Queue F) : Similar key q (q.addAttempt a) := by
  cases q with
  | leaf info runnable parked =>
    simp only [addAttempt]
    split <;> exact .leaf info info runnable parked _ _ rfl
  | parent info children => exact .refl key _

/-- An application less gives a similar queue. -/
theorem similar_removeAttempt (id : String) (q : Queue F) : Similar key q (q.removeAttempt id) := by
  cases q with
  | leaf info runnable parked =>
    simp only [removeAttempt]
    split <;> exact .leaf info info runnable parked _ _ rfl
  | parent info children => exact .refl key _

end Keep

section Shares

variable {γ : Type} {R : γ → γ → Prop}

/-- The eldest claimant gets everything and each of the others something too, if only nothing. -/
theorem length_eldest_go (total : Resource) (first : Option ℕ) (claimants : List (Claimant F)) :
    (Division.eldest.go total first claimants).length = claimants.length := by
  induction claimants with
  | nil => rfl
  | cons c rest ih =>
    unfold Division.eldest.go
    split
    · simp
    · simp [ih]

/-- Every claimant gets a share. -/
theorem length_shares [Scalar F] (p : Policy) (o : Outlook) (total : Resource) (claimants : List (Claimant F)) :
    (p.shares o total claimants).length = claimants.length := by
  have hfill : (Division.fill o total claimants).length = claimants.length := by
    simp [Division.fill, Division.dimension]
  unfold Policy.shares
  split
  · exact length_eldest_go total _ claimants
  · exact hfill

/-- Elements that are changed one by one are related to what they were. -/
theorem forall₂_zipWith {δ : Type} {f : γ → δ → γ} {qs : List γ} {xs : List δ}
    (hlength : xs.length = qs.length) (hf : ∀ q ∈ qs, ∀ x, R q (f q x)) :
    List.Forall₂ R qs (List.zipWith f qs xs) := by
  induction qs generalizing xs with
  | nil => simp
  | cons q rest ih =>
    cases xs with
    | nil => simp at hlength
    | cons x xs =>
      have hlength' : xs.length = rest.length := by simpa using hlength
      have hrest := ih hlength' fun r hr => hf r (List.mem_cons_of_mem q hr)
      exact .cons (hf q List.mem_cons_self x) hrest

variable [Scalar F]

/-- Giving fair shares keeps the make. -/
theorem similar_giveFair (q : Queue F) (share : Resource) :
    Similar QueueInfo.fixture q (q.giveFair share) := by
  induction q using Queue.induction generalizing share with
  | leaf info runnable parked =>
    rw [giveFair, fold_leaf]
    exact .leaf info _ runnable parked _ _ rfl
  | parent info children ih =>
    rw [giveFair_parent]
    refine .of_forall₂ rfl (forall₂_zipWith ?_ ?_)
    · rw [fairShares, length_shares, List.length_map]
    · exact ih

/-- Giving steady shares keeps the make. -/
theorem similar_giveSteady (q : Queue F) (share : Resource) :
    Similar QueueInfo.fixture q (q.giveSteady share) := by
  induction q using Queue.induction generalizing share with
  | leaf info runnable parked =>
    rw [giveSteady_leaf]
    exact .leaf info _ runnable parked _ _ rfl
  | parent info children ih =>
    rw [giveSteady_parent]
    refine .of_forall₂ rfl (forall₂_zipWith ?_ ?_)
    · rw [steadyShares, length_shares, List.length_map]
    · exact ih

omit [Scalar F] in
/-- Members that are renewed up to some point are related to what they were. -/
theorem forall₂_renewUntil (demandOf : γ → Resource) (most sum : Resource)
    (entries : List (γ × γ)) (hentries : ∀ e ∈ entries, R e.1 e.1 ∧ R e.1 e.2) :
    List.Forall₂ R (entries.map (·.1)) (renewUntil demandOf most sum entries).1 := by
  induction entries generalizing sum with
  | nil => exact .nil
  | cons e rest ih =>
    obtain ⟨old, renewed⟩ := e
    have hfirst := (hentries _ List.mem_cons_self).2
    have hrest : ∀ e ∈ rest, R e.1 e.1 ∧ R e.1 e.2 :=
      fun e he => hentries e (List.mem_cons_of_mem _ he)
    unfold renewUntil
    simp only [List.map_cons]
    split
    · refine .cons hfirst ?_
      rw [List.forall₂_same]
      intro q hq
      obtain ⟨e, he, rfl⟩ := List.mem_map.mp hq
      exact (hrest e he).1
    · exact .cons hfirst (ih _ hrest)

omit [Scalar F] in
/-- Bringing demands up to date keeps the make. -/
theorem similar_updateDemand (q : Queue F) : Similar QueueInfo.fixture q q.updateDemand := by
  induction q using Queue.induction with
  | leaf info runnable parked =>
    rw [updateDemand, fold_leaf]
    exact .leaf info _ runnable parked _ _ rfl
  | parent info children ih =>
    rw [updateDemand_parent]
    refine .of_forall₂ rfl ?_
    have hmembers := forall₂_renewUntil (R := Similar QueueInfo.fixture)
      (fun q : Queue F => q.info.demand) info.settings.maxShare 0
      (children.map fun q => (q, q.updateDemand)) (by
        intro e he
        obtain ⟨q, hq, rfl⟩ := List.mem_map.mp he
        exact ⟨.refl _ q, ih q hq⟩)
    rw [List.map_map] at hmembers
    simpa only [Function.comp_def, List.map_id'] using hmembers

end Shares

section Assignment

variable [Scalar F] {γ : Type} {R : γ → γ → Prop}

omit [Scalar F] in
/-- Those who are asked to serve a node are related to what they were. -/
theorem forall₂_serveFirst (entries : List (γ × (Placement F → Served F γ)))
    (p : Placement F) (hentries : ∀ e ∈ entries, R e.1 e.1 ∧ ∀ p, R e.1 (e.2 p).subject) :
    List.Forall₂ R (entries.map (·.1)) (serveFirst entries p).subject := by
  induction entries generalizing p with
  | nil => exact .nil
  | cons e rest ih =>
    obtain ⟨q, serve⟩ := e
    have hfirst := (hentries _ List.mem_cons_self).2 p
    have hrest : ∀ e ∈ rest, R e.1 e.1 ∧ ∀ p, R e.1 (e.2 p).subject :=
      fun e he => hentries e (List.mem_cons_of_mem _ he)
    unfold serveFirst
    simp only [List.map_cons]
    split
    · exact .cons hfirst (ih _ hrest)
    · refine .cons hfirst ?_
      rw [List.forall₂_same]
      intro q hq
      obtain ⟨e, he, rfl⟩ := List.mem_map.mp hq
      exact (hrest e he).1

/-- Offering a node keeps the make. -/
theorem similar_assign (cluster : Resource) (q : Queue F) (p : Placement F) :
    Similar QueueInfo.fixture q (q.assign cluster p).subject := by
  induction q using Queue.induction generalizing p with
  | leaf info runnable parked =>
    rw [assign, fold_leaf]
    simp only
    split <;> exact .leaf info info runnable parked _ _ rfl
  | parent info children ih =>
    rw [assign_parent]
    split
    · have hsort : (info.policy.sort cluster (fun e => e.1.standing)
          (children.map fun q => (q, q.assign cluster))).Perm
            (children.map fun q => (q, q.assign cluster)) := List.mergeSort_perm _ _
      have hserved := forall₂_serveFirst (R := Similar QueueInfo.fixture) _ p (by
        intro e he
        obtain ⟨r, hr, rfl⟩ := List.mem_map.mp (hsort.mem_iff.mp he)
        exact ⟨.refl _ r, ih r hr⟩)
      have hnames := (hsort.map (·.1)).symm
      rw [List.map_map] at hnames
      simp only [Function.comp_def, List.map_id'] at hnames
      obtain ⟨renewed, hrenewed, hperm⟩ := List.perm_comp_forall₂ hnames hserved
      exact .parent info info children renewed _ rfl hrenewed hperm
    · exact .refl _ _

omit [Scalar F] in
/-- Changing one element for a related one relates two lists. -/
theorem forall₂_set {qs : List γ} {i : ℕ} {q q' : γ} (hrefl : ∀ q ∈ qs, R q q)
    (hi : qs[i]? = some q) (hq : R q q') : List.Forall₂ R qs (qs.set i q') := by
  induction qs generalizing i with
  | nil => exact .nil
  | cons r rest ih =>
    have hrest : ∀ r ∈ rest, R r r := fun r hr => hrefl r (List.mem_cons_of_mem _ hr)
    cases i with
    | zero =>
      obtain rfl : r = q := by simpa using hi
      exact .cons hq (List.forall₂_same.mpr hrest)
    | succ i =>
      exact .cons (hrefl r List.mem_cons_self) (ih hrest (by simpa using hi))

/-- Asking a container back keeps the make. -/
theorem similar_preempt (cluster : Resource) (q : Queue F) (isOver : Resource → Resource → Bool) :
    Similar QueueInfo.fixture q (q.preempt cluster isOver).1 := by
  induction q using Queue.induction generalizing isOver with
  | leaf info runnable parked =>
    rw [preempt, fold_leaf]
    simp only
    split
    · exact .leaf info info runnable parked _ _ rfl
    · exact .refl _ _
  | parent info children ih =>
    rw [preempt_parent]
    split
    · rename_i i q hlast
      obtain ⟨j, -, hj⟩ := Option.bind_eq_some_iff.mp hlast
      obtain ⟨r, hr, heq⟩ := Option.map_eq_some_iff.mp hj
      obtain ⟨rfl, rfl⟩ := Prod.mk.inj heq
      refine .of_forall₂ rfl (forall₂_set (fun q _ => .refl _ q) hr ?_)
      exact ih r (List.mem_of_getElem? hr) _
    · exact .refl _ _

end Assignment

end Queue

end Allotment
