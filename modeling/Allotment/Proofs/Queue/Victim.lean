import Allotment.Proofs.Policy
import Allotment.Proofs.Queue.Roster
import Mathlib.Data.List.Pairwise

/-!
# Who gives a container back

Asking a container back goes down one path: at every queue the child that comes last is asked, in a leaf
over its fair share the runnable application that comes last. `Nominates` says which application that
is. The application gives up its container of the largest priority number, the newest of these, among
those that it was not asked for before. Nobody else is asked if it has none, and nothing but what it
remembers to have been asked for changes if it has one.
-/

namespace Allotment

variable {F : Type}

/-! ## One application -/

namespace Attempt

/-- The application that remembers one container more to have been asked for. -/
def mark (a : Attempt F) (i : ℕ) : Attempt F := { a with preempting := i :: a.preempting }

/-- Whether a container is the one to be asked back next. -/
structure Victim (a : Attempt F) (c : Container) : Prop where
  live : c ∈ a.live
  fresh : c.id ∉ a.preempting
  last : ∀ d ∈ a.live, d.id ∉ a.preempting → laterThan c d = true

/-- A container comes after itself. -/
theorem laterThan_refl (c : Container) : laterThan c c = true := by
  simp [laterThan]

/-- What comes after a container comes after all that this comes after. -/
theorem laterThan_trans {c d e : Container} (hcd : laterThan c d = true)
    (hde : laterThan d e = true) : laterThan c e = true := by
  simp only [laterThan, Bool.or_eq_true, Bool.and_eq_true, decide_eq_true_eq] at *
  omega

/-- Of two containers one comes after the other. -/
theorem laterThan_of_not {c d : Container} (h : ¬ laterThan c d = true) : laterThan d c = true := by
  simp only [laterThan, Bool.or_eq_true, Bool.and_eq_true, decide_eq_true_eq] at *
  omega

/-- The choice of the latest among containers, beginning with one. -/
theorem exists_latest (cs : List Container) (b : Container) :
    ∃ c ∈ b :: cs, (∀ d ∈ b :: cs, laterThan c d = true) ∧
      cs.foldl (fun best c => match best with
        | none => some c
        | some b => if laterThan c b then some c else some b) (some b) = some c := by
  induction cs generalizing b with
  | nil => exact ⟨b, List.mem_cons_self, by simp [laterThan_refl], rfl⟩
  | cons d rest ih =>
    rw [List.foldl_cons]
    by_cases hlater : laterThan d b = true
    · obtain ⟨c, hc, hall, hfold⟩ := ih d
      refine ⟨c, List.mem_cons_of_mem b hc, ?_, by simpa only [hlater, if_true] using hfold⟩
      rw [List.forall_mem_cons]
      exact ⟨laterThan_trans (hall d List.mem_cons_self) hlater, hall⟩
    · obtain ⟨c, hc, hall, hfold⟩ := ih b
      have hbd := laterThan_of_not hlater
      refine ⟨c, ?_, ?_, by simpa only [hlater, if_false, Bool.false_eq_true] using hfold⟩
      · obtain rfl | hc := List.mem_cons.mp hc
        · exact List.mem_cons_self
        · exact List.mem_cons_of_mem _ (List.mem_cons_of_mem _ hc)
      · rw [List.forall_mem_cons, List.forall_mem_cons]
        rw [List.forall_mem_cons] at hall
        exact ⟨hall.1, laterThan_trans hall.1 hbd, hall.2⟩

/-- An application gives up the container to be asked back next, or has been asked for all that it
holds. -/
theorem victim?_cases (a : Attempt F) :
    (a.victim? = none ∧ ∀ c ∈ a.live, c.id ∈ a.preempting) ∨
      ∃ c, a.victim? = some c ∧ a.Victim c := by
  unfold victim?
  have hmem : ∀ c, c ∈ a.live.filter (fun c => !a.preempting.contains c.id) ↔
      c ∈ a.live ∧ c.id ∉ a.preempting := by
    intro c
    rw [List.mem_filter, Bool.not_eq_true', List.contains_eq_mem, decide_eq_false_iff_not]
  cases hfresh : a.live.filter (fun c => !a.preempting.contains c.id) with
  | nil =>
    refine .inl ⟨rfl, ?_⟩
    intro c hc
    by_contra hnot
    have hsome := (hmem c).mpr ⟨hc, hnot⟩
    rw [hfresh] at hsome
    contradiction
  | cons b rest =>
    obtain ⟨c, hc, hall, hfold⟩ := exists_latest rest b
    rw [← hfresh, hmem] at hc
    refine .inr ⟨c, hfold, hc.1, hc.2, ?_⟩
    intro d hd hnot
    apply hall
    rw [← hfresh]
    exact (hmem d).mpr ⟨hd, hnot⟩

/-- Asking an application for a container changes nothing if it has been asked for all that it holds,
and otherwise marks the one to be asked back next. -/
theorem preempt_cases (a : Attempt F) :
    (a.preempt = (a, none) ∧ ∀ c ∈ a.live, c.id ∈ a.preempting) ∨
      ∃ c, a.preempt = (a.mark c.id, some c) ∧ a.Victim c := by
  unfold preempt
  obtain ⟨hnone, hall⟩ | ⟨c, hsome, hvictim⟩ := a.victim?_cases
  · rw [hnone]
    exact .inl ⟨rfl, hall⟩
  · rw [hsome]
    exact .inr ⟨c, rfl, hvictim⟩

end Attempt

/-! ## The path down the tree -/

/-- Where no two elements share a key, changing the one at a place is changing those of its key. -/
theorem set_eq_map_of_nodup {α κ : Type} [DecidableEq κ] {key : α → κ} {xs : List α} {i : ℕ} {x : α}
    (h : (xs.map key).Nodup) (hx : xs[i]? = some x) (f : α → α) :
    xs.set i (f x) = xs.map fun y => if key y = key x then f y else y := by
  apply List.ext_getElem?
  intro j
  rw [List.getElem?_set, List.getElem?_map]
  obtain ⟨hi, hget⟩ := List.getElem?_eq_some_iff.mp hx
  split
  · rename_i heq
    subst heq
    simp [hi, hget]
  · rename_i hne
    cases hy : xs[j]? with
    | none => rfl
    | some y =>
      have hkey : key y ≠ key x := by
        intro hsame
        obtain ⟨hj, hgetj⟩ := List.getElem?_eq_some_iff.mp hy
        have hi' : i < (xs.map key).length := by rwa [List.length_map]
        have hj' : j < (xs.map key).length := by rwa [List.length_map]
        have hsame' : (xs.map key)[i] = (xs.map key)[j] := by
          rw [List.getElem_map, List.getElem_map, hget, hgetj, hsame]
        exact hne (h.getElem_inj_iff.mp hsame')
      simp [hkey]

namespace Queue

/-- Changing applications changes nothing if none of those in the tree is changed. -/
theorem mapAttempts_eq_self {f : Attempt F → Attempt F} {q : Queue F}
    (h : ∀ a ∈ q.attempts, f a = a) : q.mapAttempts f = q := by
  induction q using Queue.induction with
  | leaf info runnable parked =>
    rw [attempts_leaf] at h
    rw [mapAttempts_leaf, List.map_congr_left fun a ha => h a (List.mem_append_left parked ha),
      List.map_congr_left fun a ha => h a (List.mem_append_right runnable ha), List.map_id',
      List.map_id']
  | parent info children ih =>
    rw [attempts_parent] at h
    rw [mapAttempts_parent, List.map_congr_left fun c hc => ih c hc fun a ha =>
      h a (List.mem_flatMap.mpr ⟨c, hc, ha⟩), List.map_id']

/-- The tree in which the application of a serial number remembers one container more to have been
asked for. -/
def mark (q : Queue F) (serial i : ℕ) : Queue F :=
  q.mapAttempts fun a => if a.serial = serial then a.mark i else a

/-- What is required of a queue for the path to be clear: siblings bear different serial numbers, and
so do applications. -/
structure Apart (q : Queue F) : Prop where
  children : ∀ r ∈ q.all, (r.children.map fun c => c.info.serial).Nodup
  attempts : (q.attempts.map Attempt.serial).Nodup

/-- What is required of a queue is required of its children. -/
theorem Apart.child {info : QueueInfo F} {children : List (Queue F)}
    (h : (parent info children).Apart) {c : Queue F} (hc : c ∈ children) : c.Apart := by
  refine ⟨fun r hr => h.children r (mem_all_of_child hc hr), ?_⟩
  have hattempts := h.attempts
  rw [attempts_parent, List.map_flatMap] at hattempts
  exact (List.nodup_flatMap.mp hattempts).1 c hc

/-- Whether an application is the one that is asked: at every queue on the way the child that comes
last is taken, the leaf is over its fair share by the judgement of the queue above it, and in the leaf
the runnable application that comes last is taken. -/
inductive Nominates [Scalar F] (cluster : Resource) :
    (Resource → Resource → Bool) → Queue F → Queue F → Attempt F → Prop where
  | leaf {isOver : Resource → Resource → Bool} {info : QueueInfo F}
    {runnable parked : List (Attempt F)} {a : Attempt F}
    (hover : isOver (leaf info runnable parked).usage info.fairShare = true)
    (ha : info.policy.Last cluster Attempt.standing runnable a) :
    Nominates cluster isOver (leaf info runnable parked) (leaf info runnable parked) a
  | parent {isOver : Resource → Resource → Bool} {info : QueueInfo F} {children : List (Queue F)}
    {c l : Queue F} {a : Attempt F} (hc : info.policy.Last cluster standing children c)
    (below : Nominates cluster info.policy.isOver c l a) :
    Nominates cluster isOver (parent info children) l a

/-- Whether a queue below another is over its fair share by the judgement of the queue above it. -/
def OverShare (q l : Queue F) : Prop :=
  ∃ p ∈ q.all, l ∈ p.children ∧ p.info.policy.isOver l.usage l.info.fairShare = true

section Path

variable [Scalar F] {cluster : Resource} {isOver : Resource → Resource → Bool} {q l l' : Queue F}
  {a a' : Attempt F}

/-- The application that is asked is in the tree. -/
theorem Nominates.mem_attempts (h : Nominates cluster isOver q l a) : a ∈ q.attempts := by
  induction h with
  | leaf hover ha =>
    rw [attempts_leaf]
    exact List.mem_append_left _ ha.mem
  | parent hc below ih =>
    rw [attempts_parent]
    exact List.mem_flatMap.mpr ⟨_, hc.mem, ih⟩

/-- The application that is asked is a runnable one of a leaf over its fair share. -/
theorem Nominates.overShare (h : Nominates cluster isOver q l a) (hkind : q.kind = .parent) :
    q.OverShare l ∧ a ∈ l.runnable := by
  induction h with
  | leaf hover ha => contradiction
  | parent hc below ih =>
    cases below with
    | leaf hover ha => exact ⟨⟨_, mem_all_self _, hc.mem, hover⟩, ha.mem⟩
    | parent hd below' =>
      obtain ⟨⟨p, hp, hl, hover⟩, ha⟩ := ih rfl
      exact ⟨⟨p, mem_all_of_child hc.mem hp, hl, hover⟩, ha⟩

theorem preempt_leaf (cluster : Resource) (info : QueueInfo F) (runnable parked : List (Attempt F))
    (isOver : Resource → Resource → Bool) :
    (leaf info runnable parked).preempt cluster isOver =
      if isOver (leaf info runnable parked).usage info.fairShare then
        let asked := askAt Attempt.preempt
          (info.policy.lastRanked? cluster Attempt.standing runnable) runnable
        (leaf info asked.1 parked, asked.2)
      else (leaf info runnable parked, none) := by
  rw [preempt, fold_leaf]

variable [Scalar.Comparable F]

/-- Only one application is asked. -/
theorem Nominates.unique (h : Nominates cluster isOver q l a) (h' : Nominates cluster isOver q l' a') :
    l' = l ∧ a' = a := by
  induction h with
  | leaf hover ha =>
    cases h' with
    | leaf hover' ha' => exact ⟨rfl, ha'.unique ha⟩
  | parent hc below ih =>
    cases h' with
    | parent hc' below' =>
      obtain rfl := hc.unique hc'
      exact ih below'

/-- What asking a queue for a container comes to: nothing if nobody is asked or the one who is has been
asked for everything, and otherwise its container to be asked back next. -/
inductive Outcome (cluster : Resource) (isOver : Resource → Resource → Bool) (q : Queue F) :
    Queue F × Option Container → Prop where
  | nothing (h : ∀ l a, Nominates cluster isOver q l a → ∀ c ∈ a.live, c.id ∈ a.preempting) :
    Outcome cluster isOver q (q, none)
  | victim (l : Queue F) (a : Attempt F) (c : Container) (ha : Nominates cluster isOver q l a)
    (hc : a.Victim c) : Outcome cluster isOver q (q.mark a.serial c.id, some c)

omit [Scalar F] [Scalar.Comparable F] in
/-- Marking an application of one child marks it in the parent. -/
theorem Apart.mark_parent {info : QueueInfo F} {children : List (Queue F)}
    (h : (parent info children).Apart) {i : ℕ} {c : Queue F} (hi : children[i]? = some c)
    (ha : a ∈ c.attempts) (container : ℕ) :
    parent info (children.set i (c.mark a.serial container)) =
      (parent info children).mark a.serial container := by
  have hattempts := h.attempts
  rw [attempts_parent, List.map_flatMap, List.nodup_flatMap] at hattempts
  have hserials : (children.map fun d => d.info.serial).Nodup := h.children _ (mem_all_self _)
  rw [set_eq_map_of_nodup hserials hi fun d => d.mark a.serial container, mark, mapAttempts_parent]
  congr 1
  apply List.map_congr_left
  intro d hd
  split
  · rfl
  · rename_i hserial
    have hne : d ≠ c := fun heq => hserial (by rw [heq])
    have : Std.Symm (Function.onFun List.Disjoint fun d : Queue F => d.attempts.map Attempt.serial) :=
      ⟨fun _ _ hapart _ hx hy => hapart hy hx⟩
    have hdisjoint := hattempts.2.forall hd (List.mem_of_getElem? hi) hne
    refine (mapAttempts_eq_self ?_).symm
    intro b hb
    have hother : b.serial ≠ a.serial := by
      intro heq
      apply hdisjoint (List.mem_map_of_mem hb)
      rw [heq]
      exact List.mem_map_of_mem ha
    rw [if_neg hother]

omit [Scalar F] [Scalar.Comparable F] in
/-- Marking a runnable application of a leaf leaves the parked ones as they are. -/
theorem Apart.mark_leaf {info : QueueInfo F} {runnable parked : List (Attempt F)}
    (h : (leaf info runnable parked).Apart) {i : ℕ} (hi : runnable[i]? = some a) (container : ℕ) :
    leaf info (runnable.set i (a.mark container)) parked =
      (leaf info runnable parked).mark a.serial container := by
  have hattempts := h.attempts
  rw [attempts_leaf, List.map_append, List.nodup_append] at hattempts
  obtain ⟨hrunnable, -, hapart⟩ := hattempts
  have hparked : parked.map (fun b => if b.serial = a.serial then b.mark container else b) = parked := by
    rw [List.map_congr_left (g := id) ?_, List.map_id]
    intro b hb
    have hne := hapart _ (List.mem_map_of_mem (List.mem_of_getElem? hi)) _ (List.mem_map_of_mem hb)
    rw [if_neg (Ne.symm hne), id]
  rw [mark, mapAttempts_leaf, hparked,
    set_eq_map_of_nodup hrunnable hi fun b => b.mark container]

/-- A leaf over its fair share asks the runnable application that comes last. -/
theorem outcome_leaf {info : QueueInfo F} {runnable parked : List (Attempt F)}
    (h : (leaf info runnable parked).Apart) (cluster : Resource)
    (isOver : Resource → Resource → Bool) :
    Outcome cluster isOver (leaf info runnable parked)
      ((leaf info runnable parked).preempt cluster isOver) := by
  rw [preempt_leaf]
  by_cases hover : isOver (leaf info runnable parked).usage info.fairShare = true
  case neg =>
    rw [if_neg hover]
    refine .nothing ?_
    intro l a hnominated
    cases hnominated with
    | leaf hover' ha => exact absurd hover' hover
  rw [if_pos hover]
  by_cases hempty : runnable = []
  case pos =>
    subst hempty
    refine .nothing ?_
    intro l a hnominated
    cases hnominated with
    | leaf hover ha => exact absurd ha.mem List.not_mem_nil
  have hserials := h.attempts
  rw [attempts_leaf, List.map_append] at hserials
  obtain ⟨i, a, hlast, hi, ha⟩ :=
    info.policy.exists_last cluster Attempt.standing hserials.of_append_left hempty
  have hnominated : Nominates cluster isOver _ (leaf info runnable parked) a := .leaf hover ha
  simp only [hlast, askAt, Option.bind_some, hi]
  obtain ⟨hsame, hall⟩ | ⟨c, hmarked, hvictim⟩ := a.preempt_cases
  · obtain ⟨hlt, hget⟩ := List.getElem?_eq_some_iff.mp hi
    have hset : runnable.set i a = runnable := by
      rw [← hget, List.set_getElem_self]
    rw [hsame, hset]
    refine .nothing ?_
    intro l a' hnominated'
    obtain ⟨-, rfl⟩ := hnominated.unique hnominated'
    exact hall
  · rw [hmarked, h.mark_leaf hi]
    exact .victim _ a c hnominated hvictim

/-- A queue asks the application at the end of the path of those that come last. -/
theorem Apart.outcome (h : q.Apart) (cluster : Resource) (isOver : Resource → Resource → Bool) :
    Outcome cluster isOver q (q.preempt cluster isOver) := by
  induction q using Queue.induction generalizing isOver with
  | leaf info runnable parked => exact outcome_leaf h cluster isOver
  | parent info children ih =>
    rw [preempt_parent, lastChild?, Policy.lastRanked?_map]
    by_cases hempty : children = []
    case pos =>
      subst hempty
      refine .nothing ?_
      intro l a hnominated
      cases hnominated with
      | parent hc below => exact absurd hc.mem List.not_mem_nil
    have hserials : (children.map fun d => d.info.serial).Nodup := h.children _ (mem_all_self _)
    obtain ⟨i, c, hlast, hi, hc⟩ := info.policy.exists_last cluster standing hserials hempty
    have hmem := List.mem_of_getElem? hi
    have hasked := ih c hmem (h.child hmem) info.policy.isOver
    simp only [hlast, Option.bind_some, hi, Option.map_some]
    revert hasked
    generalize c.preempt cluster info.policy.isOver = outcome
    intro hasked
    cases hasked with
    | nothing hall =>
      obtain ⟨hlt, hget⟩ := List.getElem?_eq_some_iff.mp hi
      have hset : children.set i c = children := by
        rw [← hget, List.set_getElem_self]
      rw [hset]
      refine .nothing ?_
      intro l a hnominated
      cases hnominated with
      | parent hc' below =>
        obtain rfl := hc.unique hc'
        exact hall l a below
    | victim l a container ha hcontainer =>
      rw [h.mark_parent hi ha.mem_attempts]
      exact .victim l a container (.parent hc ha) hcontainer

end Path

end Queue

end Allotment
