import Allotment.Proofs.Queue.Configured
import Allotment.Proofs.Queue.Outcome
import Allotment.Proofs.Queue.Rejection

/-!
# What a reload leaves behind

A reload that is not refused leaves the root, the configured queues and those in which applications
are held. Applications stay in their leaves, queues are as configured unless one of the other kind had
to be kept for its applications, and only where a queue without applications was replaced does a name
stand for a queue of another serial number. Nothing is left to do: the same reload once more changes
nothing.
-/

namespace Allotment

open QueueName Shape

variable {F : Type}

namespace Planned

/-- Renewing a queue changes neither its kind nor its serial number. -/
@[simp] theorem kind_renew (p : Planned F) (q : Queue F) : (p.renew q).kind = q.kind := by
  cases q <;> rfl

@[simp] theorem info_renew (p : Planned F) (q : Queue F) :
    (p.renew q).info = { q.info with settings := p.settings, policy := p.policy } := by
  cases q <;> rfl

/-- Renewing a queue twice is renewing it once. -/
theorem renew_renew (p : Planned F) (q : Queue F) : p.renew (p.renew q) = p.renew q := by
  cases q with
  | parent info children => rfl
  | leaf info runnable parked =>
    simp only [renew, Queue.configure, Queue.withInfo, Queue.promoteParked, Queue.promote]
    generalize p.settings.limit = limit
    -- Either the parked applications have all moved up, or there is no space left.
    by_cases hfits : parked.length ≤ limit - runnable.length
    · rw [List.drop_eq_nil_of_le hfits]
      simp
    · have hfull : limit - (runnable ++ parked.take (limit - runnable.length)).length = 0 := by
        rw [List.length_append, List.length_take]
        omega
      rw [hfull]
      simp

/-- A new queue is as it would be renewed. -/
theorem renew_made (p : Planned F) (serial : ℕ) : p.renew (p.made serial) = p.made serial := by
  unfold made
  cases p.config.kind <;> simp [Queue.fresh, renew, Queue.configure, Queue.withInfo,
    Queue.promoteParked, Queue.promote]

end Planned

namespace QueueTree

variable {t t' : QueueTree F} {c : QueueConfig F} {policy : Policy} {planned : List (Planned F)}
  {steps : List ReloadStep}

/-- The names that a reload wants. -/
def wanted (planned : List (Planned F)) : List String := QueueName.root :: planned.map (·.name)

/-- What a reload leaves behind. -/
structure Leaves (t : QueueTree F) (c : QueueConfig F) (policy : Policy)
    (planned : List (Planned F)) (t' : QueueTree F) : Prop where
  wellNamed : t'.WellNamed
  seats : t'.root.seats.Perm t.root.seats
  root : t'.bare? QueueName.root =
    (t.bare? QueueName.root).map (Queue.configure (.ofOptions c.options true) policy)
  settled : ∀ p ∈ planned, ∃ b, t'.bare? p.name = some b ∧ t.Settles p b
  held : ∀ n, n ∉ wanted planned → t.Holds n → t'.bare? n = t.bare? n
  gone : ∀ n, n ∉ wanted planned → ¬ t.Holds n → t'.bare? n = none

/-- Before the first step no planned queue is done, and only the root is settled. -/
theorem WellNamed.passed_nil (h : t.WellNamed) (c : QueueConfig F) (policy : Policy) :
    t.Passed ((t.bare? QueueName.root).map (Queue.configure (.ofOptions c.options true) policy)) []
      (t.modify QueueName.root (Queue.configure (.ofOptions c.options true) policy)) := by
  have hbares := (h.modify_local (Queue.local_configure (.ofOptions c.options true) policy)
    QueueName.root).2
  refine ⟨?_, Nat.le_refl _, by rw [hbares, if_pos rfl], by simp, ?_⟩
  · exact Queue.seats_modify t.root fun q _ _ => by rw [Queue.seats_configure]
  · exact fun n hn _ => .inl (by rw [hbares, if_neg hn])

/-- What is wanted has all above it wanted. -/
theorem Decided.wanted_closed (hd : Decided t c policy planned steps) :
    ∀ m ∈ wanted planned, ∀ n, Shape.isWithin m n = true →
      Shape.isWithin n QueueName.root = true → n ∈ wanted planned := by
  intro m hm n hmn hn
  obtain rfl | hm := List.mem_cons.mp hm
  · rw [isWithin_antisymm hn hmn]
    exact List.mem_cons_self
  · obtain ⟨p, hp, rfl⟩ := List.mem_map.mp hm
    obtain ⟨before, after, hsplit⟩ := List.append_of_mem hp
    obtain rfl | ⟨q, hq, rfl⟩ := hd.inOrder.exists_of_isWithin hsplit hmn hn
    · exact List.mem_cons_self
    · exact List.mem_cons_of_mem _ (List.mem_map.mpr ⟨q, hq, rfl⟩)

/-- A reload that is decided on is carried out, and leaves behind what is said. -/
theorem Decided.leaves (hd : Decided t c policy planned steps) (h : t.WellNamed) :
    t.reload c = (t.reloaded c policy planned steps, .ok ()) ∧
      t.Leaves c policy planned (t.reloaded c policy planned steps) := by
  obtain ⟨hreload, hedits, u, hbefore, hpassed, hpruned⟩ := hd.reload
    (t.Passed ((t.bare? QueueName.root).map (Queue.configure (.ofOptions c.options true) policy)))
    h (h.passed_nil c policy) fun _ _ _ _ _ horder hready hpassed => hready.passes h horder hpassed
  have hu := hbefore.wellNamed h
  have hroot : QueueName.root ∈ wanted planned := List.mem_cons_self
  have hbares := hu.bare?_stale hroot hd.wanted_closed
  have hseats : (t.reloaded c policy planned steps).root.seats = u.root.seats := by
    rw [hpruned]
    exact hu.seats_stale hroot
  have hholds : ∀ n, u.Holds n ↔ t.Holds n := holds_congr hpassed.seats
  have hothers : ∀ n, n ∉ wanted planned → t.Remains planned u n := by
    intro n hn
    rw [wanted, List.mem_cons, not_or] at hn
    exact hpassed.others n hn.1 fun p hp heq => hn.2 (List.mem_map.mpr ⟨p, hp, heq⟩)
  refine ⟨hreload, hedits.wellNamed h, ?_, ?_, ?_, ?_, ?_⟩
  · rw [hseats]
    exact hpassed.seats
  · rw [hpruned, ← hpassed.root]
    exact (hbares QueueName.root).1 (.inl hroot)
  · intro p hp
    have hkept := (hbares p.name).1 (.inl (List.mem_cons_of_mem _ (List.mem_map.mpr ⟨p, hp, rfl⟩)))
    obtain ⟨b, hb, hsettles⟩ := hpassed.settled p hp
    exact ⟨b, by rw [hpruned]; exact hkept.trans hb, hsettles⟩
  · intro n hn hheld
    have hkept := (hbares n).1 (.inr ((hholds n).mpr hheld))
    obtain hsame | ⟨-, hnone, -⟩ := hothers n hn
    · rw [hpruned]
      exact hkept.trans hsame
    · exact absurd hheld hnone
  · intro n hn hnone
    rw [hpruned]
    exact (hbares n).2 hn fun hheld => hnone ((hholds n).mp hheld)

/-! ## The same reload once more -/

/-- Steps that change no queue's place need none to be checked. -/
theorem resolve_eq_map {s : Shape} (h : ∀ p ∈ planned, t.stepFor s p = .update ∨ t.stepFor s p = .keep) :
    t.resolve s planned = .ok (planned.map (t.stepFor s)) := by
  induction planned with
  | nil => rfl
  | cons p rest ih =>
    have hrest := ih fun q hq => h q (List.mem_cons_of_mem p hq)
    obtain hstep | hstep := h p List.mem_cons_self <;> simp [resolve, hstep, hrest, Except.map]

/-- Steps that change nothing change nothing together. -/
theorem afterSteps_eq_self {s : Shape} (h : ∀ p ∈ planned, t.afterStep p (t.stepFor s p) = t) :
    t.afterSteps (planned.zip (planned.map (t.stepFor s))) = t := by
  unfold afterSteps
  induction planned with
  | nil => rfl
  | cons p rest ih =>
    rw [List.map_cons, List.zip_cons_cons, List.foldl_cons, h p List.mem_cons_self]
    exact ih fun q hq => h q (List.mem_cons_of_mem p hq)

/-- A settled queue of the configured kind is as it would be renewed. -/
theorem Settles.renew_eq_self {p : Planned F} {b : Queue F} (h : t.Settles p b)
    (hkind : b.kind = p.config.kind) : p.renew b = b := by
  cases h with
  | renewed b hb _ => exact p.renew_renew b
  | kept b hb hkeeps =>
    obtain ⟨q, hq, hother, -⟩ := hkeeps
    rw [bare?, hq, Option.map_some, Option.some.injEq] at hb
    rw [← hb, Queue.kind_bare] at hkind
    exact absurd hkind hother
  | made serial _ _ => exact p.renew_made serial

/-- A settled queue of the other kind has been kept. -/
theorem Settles.keeps {p : Planned F} {b : Queue F} (h : t.Settles p b)
    (hkind : b.kind ≠ p.config.kind) : t.Keeps p.name p.config := by
  cases h with
  | renewed b _ hsame => exact absurd ((p.kind_renew b).trans hsame) hkind
  | kept _ _ hkeeps => exact hkeeps
  | made serial _ _ => exact absurd (Queue.kind_fresh _ _ _ _ _) hkind

/-- A queue that is kept holds applications. -/
theorem WellNamed.holds_of_keeps (h : t.WellNamed) {n : String} (hkeeps : t.Keeps n c) :
    t.Holds n := by
  obtain ⟨q, hq, -, hheld⟩ := hkeeps
  exact (h.isVacant_eq_false_iff hq).mp hheld

/-- A settled queue is updated or kept by the next reload, which changes nothing about it. -/
theorem Leaves.step_eq_self (hl : t.Leaves c policy planned t') (h : t.WellNamed) {p : Planned F}
    (hp : p ∈ planned) : (t'.stepFor (Shape.ofTree t') p = .update ∨
      t'.stepFor (Shape.ofTree t') p = .keep) ∧
      t'.afterStep p (t'.stepFor (Shape.ofTree t') p) = t' := by
  obtain ⟨b, hb, hsettles⟩ := hl.settled p hp
  obtain ⟨q, hq, hkind, -⟩ := find?_of_bare? hb
  have hshape : (Shape.ofTree t').get? p.name = some b.kind := by
    rw [agrees_ofTree hl.wellNamed, kindOf?, hq, Option.map_some, hkind]
  by_cases hsame : b.kind = p.config.kind
  · have hstep : t'.stepFor (Shape.ofTree t') p = .update := by
      unfold stepFor
      rw [hshape, hq]
      exact if_pos hsame
    refine ⟨.inl hstep, ?_⟩
    rw [hstep]
    apply hl.wellNamed.modify_eq_self p.local_renew
    intro b' hb'
    rw [hb] at hb'
    rw [← Option.some.inj hb']
    exact hsettles.renew_eq_self hsame
  · have hheld : q.isVacant = false := by
      rw [hl.wellNamed.isVacant_eq_false_iff hq, holds_congr hl.seats]
      exact h.holds_of_keeps (hsettles.keeps hsame)
    have hstep : t'.stepFor (Shape.ofTree t') p = .keep := by
      unfold stepFor
      rw [hshape, hq]
      simp [hsame, hheld]
    refine ⟨.inr hstep, ?_⟩
    rw [hstep]
    rfl

/-- Removing a queue in which something is held changes nothing. -/
theorem WellNamed.prune_eq_self (h : t.WellNamed) {n : String} (hheld : t.Holds n) :
    t.prune n = t := by
  unfold prune
  split
  · rename_i q hfind
    rw [(h.isVacant_eq_false_iff hfind).mpr hheld]
    rfl
  · rfl

/-- Nothing is left to be removed by the next reload. -/
theorem Leaves.prune_eq_self (hl : t.Leaves c policy planned t') :
    (t'.stale (wanted planned)).foldl prune t' = t' := by
  have hall : ∀ n ∈ t'.stale (wanted planned), t'.prune n = t' := by
    intro n hn
    obtain ⟨hmem, hunwanted⟩ := mem_stale_iff.mp hn
    apply hl.wellNamed.prune_eq_self
    rw [holds_congr hl.seats]
    by_contra hnone
    obtain ⟨b, hb⟩ := hl.wellNamed.mem_names_iff.mp hmem
    rw [hl.gone n hunwanted hnone] at hb
    contradiction
  generalize t'.stale (wanted planned) = names at hall
  induction names with
  | nil => rfl
  | cons n rest ih =>
    rw [List.foldl_cons, hall n List.mem_cons_self]
    exact ih fun m hm => hall m (List.mem_cons_of_mem n hm)

/-- The same reload once more changes nothing. -/
theorem Leaves.reload_eq_self (hl : t.Leaves c policy planned t') (h : t.WellNamed)
    (hd : Decided t c policy planned steps) : t'.reload c = (t', .ok ()) := by
  have hsteps := resolve_eq_map fun p hp => (hl.step_eq_self h hp).1
  have hagain : Decided t' c policy planned (planned.map (t'.stepFor (Shape.ofTree t'))) :=
    { hd with resolve := hsteps }
  have hroot : t'.modify QueueName.root (Queue.configure (.ofOptions c.options true) policy) = t' := by
    apply hl.wellNamed.modify_eq_self (Queue.local_configure _ _)
    intro b hb
    rw [hl.root] at hb
    obtain ⟨a, -, rfl⟩ := Option.map_eq_some_iff.mp hb
    cases a <;> rfl
  rw [(hagain.leaves hl.wellNamed).1]
  unfold reloaded
  rw [hroot, afterSteps_eq_self fun p hp => (hl.step_eq_self h hp).2]
  exact Prod.ext hl.prune_eq_self rfl

/-! ## Names, settings and serial numbers -/

/-- A configured queue is a planned one. -/
theorem Decided.mem_configured_iff (hd : Decided t c policy planned steps)
    {e : String × QueueConfig F} :
    e ∈ c.configured ↔ ∃ p ∈ planned, e = (p.name, p.config) := by
  rw [← hd.configured, List.mem_map]
  simp only [eq_comm]

/-- The names that are wanted are those of the root and of the configured queues. -/
theorem Decided.mem_wanted_iff (hd : Decided t c policy planned steps) {n : String} :
    n ∈ wanted planned ↔ n = QueueName.root ∨ n ∈ c.configured.map (·.1) := by
  rw [← hd.configured, List.map_map, wanted, List.mem_cons]
  rfl

/-- A name is that of a queue exactly if it stands for something. -/
theorem WellNamed.mem_sorted_names_iff (h : t.WellNamed) {n : String} :
    n ∈ t.names ↔ ∃ b, t.bare? n = some b := by
  rw [names, sorted, List.mem_mergeSort, h.mem_names_iff]

/-- The queues afterwards are those that are wanted and those in which applications were held. -/
theorem Leaves.mem_names_iff (hl : t.Leaves c policy planned t') (h : t.WellNamed) {n : String} :
    n ∈ t'.names ↔ n ∈ wanted planned ∨ ∃ q, t.find? n = some q ∧ q.isVacant = false := by
  rw [hl.wellNamed.mem_sorted_names_iff]
  by_cases hn : n ∈ wanted planned
  · refine iff_of_true ?_ (.inl hn)
    obtain rfl | hmem := List.mem_cons.mp hn
    · obtain ⟨q, hq, -⟩ := Option.map_eq_some_iff.mp h.kindOf?_root
      rw [hl.root, bare?, hq]
      exact ⟨_, rfl⟩
    · obtain ⟨p, hp, rfl⟩ := List.mem_map.mp hmem
      obtain ⟨b, hb, -⟩ := hl.settled p hp
      exact ⟨b, hb⟩
  · rw [or_iff_right hn]
    constructor
    · rintro ⟨b, hb⟩
      have hheld : t.Holds n := by
        by_contra hnone
        rw [hl.gone n hn hnone] at hb
        contradiction
      rw [hl.held n hn hheld] at hb
      obtain ⟨q, hq, -, -⟩ := find?_of_bare? hb
      exact ⟨q, hq, (h.isVacant_eq_false_iff hq).mpr hheld⟩
    · rintro ⟨q, hq, hheld⟩
      rw [hl.held n hn ((h.isVacant_eq_false_iff hq).mp hheld), bare?, hq]
      exact ⟨_, rfl⟩

/-- The root is as configured. -/
theorem Leaves.describes_root (hl : t.Leaves c policy planned t') (h : t.WellNamed)
    (hd : Decided t c policy planned steps) :
    ∃ q, t'.find? QueueName.root = some q ∧ c.Describes true q := by
  obtain ⟨r, hr, hkind⟩ := Option.map_eq_some_iff.mp h.kindOf?_root
  have hb := hl.root
  rw [bare?.eq_1 t, hr, Option.map_some, Option.map_some] at hb
  obtain ⟨q, hq, hqkind, hinfo⟩ := find?_of_bare? hb
  refine ⟨q, hq, QueueConfig.describes_of_eq ?_ ?_ ?_⟩
  · have hparent : q.kind = .parent := by
      rw [hqkind, ← hkind]
      cases r <;> rfl
    exact iff_of_true hparent (.inl rfl)
  · rw [hinfo]
    cases r <;> rfl
  · rw [hinfo, hd.wants]
    cases r <;> rfl

/-- A configured queue is as configured, or has been kept as it was. -/
theorem Leaves.describes (hl : t.Leaves c policy planned t') (hd : Decided t c policy planned steps)
    {e : String × QueueConfig F} (he : e ∈ c.configured) :
    (¬ t.Keeps e.1 e.2 →
      ∃ q', t'.find? e.1 = some q' ∧ e.2.Describes false q') ∧
    (t.Keeps e.1 e.2 → ∃ q q', t.find? e.1 = some q ∧ t'.find? e.1 = some q' ∧
      q'.kind = q.kind ∧ q'.info = q.info) := by
  obtain ⟨p, hp, rfl⟩ := hd.mem_configured_iff.mp he
  have hwants := (hd.inOrder.fits p hp).wants
  obtain ⟨b, hb, hsettles⟩ := hl.settled p hp
  obtain ⟨q', hq', hkind, hinfo⟩ := find?_of_bare? hb
  cases hsettles with
  | renewed b hbefore hsame =>
    rw [Planned.kind_renew] at hkind
    rw [Planned.info_renew] at hinfo
    refine ⟨fun _ => ⟨q', hq', QueueConfig.describes_of_kind_eq (hkind.trans hsame) ?_ ?_⟩, ?_⟩
    · rw [hinfo]
      rfl
    · rw [hinfo]
      exact hwants
    · rintro ⟨q, hq, hother, _⟩
      obtain ⟨r, hr, hrkind, -⟩ := find?_of_bare? hbefore
      obtain rfl : q = r := Option.some.inj (hq.symm.trans hr)
      exact absurd (hrkind.trans hsame) hother
  | kept b hbefore hkeeps =>
    refine ⟨fun hnot => absurd hkeeps hnot, fun _ => ?_⟩
    obtain ⟨q, hq, hqkind, hqinfo⟩ := find?_of_bare? hbefore
    exact ⟨q, q', hq, hq', by rw [hkind, hqkind], by rw [hinfo, hqinfo]⟩
  | made serial _ hnew =>
    rw [Planned.made, Queue.kind_fresh] at hkind
    rw [Planned.made, Queue.info_fresh] at hinfo
    refine ⟨fun _ => ⟨q', hq', QueueConfig.describes_of_kind_eq hkind ?_ ?_⟩, ?_⟩
    · rw [hinfo]
      rfl
    · rw [hinfo]
      exact hwants
    · rintro ⟨q, hq, _, hheld⟩
      obtain ⟨r, hr, -, hvacant⟩ := hnew q.bare (bare?_of_find? hq)
      rw [← Option.some.inj (hq.symm.trans hr), hheld] at hvacant
      contradiction

/-- A planned queue that has settled bears the serial number that its name had unless the queue of
that name was replaced. -/
theorem Settles.serial_eq_iff {p : Planned F} {b' : Queue F} (hs : t.Settles p b') (h : t.Sound)
    {q : Queue F} (hq : t.find? p.name = some q) :
    b'.info.serial = q.info.serial ↔ ¬ t.Replaces p.name p.config := by
  have hb := bare?_of_find? hq
  rw [← Queue.info_bare q]
  cases hs with
  | renewed b hbefore hsame =>
    rw [hb, Option.some.injEq] at hbefore
    rw [Planned.info_renew, ← hbefore]
    refine iff_of_true rfl ?_
    rintro ⟨r, hr, hother, _⟩
    rw [← Option.some.inj (hq.symm.trans hr), ← Queue.kind_bare, hbefore] at hother
    exact hother hsame
  | kept b hbefore hkeeps =>
    rw [hb, Option.some.injEq] at hbefore
    rw [← hbefore]
    refine iff_of_true rfl ?_
    rintro ⟨r, hr, _, hvacant⟩
    obtain ⟨r', hr', -, hheld⟩ := hkeeps
    rw [Option.some.inj (hr.symm.trans hr'), hheld] at hvacant
    contradiction
  | made serial hnext hnew =>
    rw [Planned.made, Queue.info_fresh]
    have hlt := h.serial_lt p.name q.bare hb
    refine iff_of_false ?_ (not_not.mpr (hnew q.bare hb))
    exact fun heq => Nat.not_le_of_lt hlt (Nat.le_trans hnext (Nat.le_of_eq heq))

/-- A name that is not planned stands for a queue of the serial number that it had, if it stands for
any. -/
theorem Leaves.serial_of_unplanned (hl : t.Leaves c policy planned t') {n : String} {b b' : Queue F}
    (hn : ∀ p ∈ planned, p.name ≠ n) (hb : t.bare? n = some b) (hb' : t'.bare? n = some b') :
    b'.info.serial = b.info.serial := by
  by_cases hroot : n = QueueName.root
  · have hsame := hl.root
    rw [← hroot, hb, hb', Option.map_some, Option.some.injEq] at hsame
    rw [hsame]
    cases b <;> rfl
  · have hunwanted : n ∉ wanted planned := by
      intro hmem
      obtain heq | hmem := List.mem_cons.mp hmem
      · exact hroot heq
      · obtain ⟨p, hp, hname⟩ := List.mem_map.mp hmem
        exact hn p hp hname
    have hheld : t.Holds n := by
      by_contra hnone
      rw [hl.gone n hunwanted hnone] at hb'
      contradiction
    rw [hl.held n hunwanted hheld, hb, Option.some.injEq] at hb'
    rw [hb']

/-- A name that stood for a queue and stands for one still stands for one of the same serial number
unless a queue without applications was replaced. -/
theorem Leaves.serial_eq_iff (hl : t.Leaves c policy planned t') (h : t.Sound)
    (hd : Decided t c policy planned steps) {n : String} {q q' : Queue F}
    (hq : t.find? n = some q) (hq' : t'.find? n = some q') :
    q'.info.serial = q.info.serial ↔ ¬ ∃ e ∈ c.configured, e.1 = n ∧ t.Replaces n e.2 := by
  have hb' := bare?_of_find? hq'
  rw [← Queue.info_bare q']
  by_cases hplanned : ∃ p ∈ planned, p.name = n
  · obtain ⟨p, hp, rfl⟩ := hplanned
    -- No other configured queue has the name.
    have honly : (∃ e ∈ c.configured, e.1 = p.name ∧ t.Replaces p.name e.2) ↔
        t.Replaces p.name p.config := by
      constructor
      · rintro ⟨e, he, hname, hreplaces⟩
        obtain ⟨r, hr, rfl⟩ := hd.mem_configured_iff.mp he
        obtain rfl := hd.inOrder.eq_of_name hr hp hname
        exact hreplaces
      · intro hreplaces
        exact ⟨_, hd.mem_configured_iff.mpr ⟨p, hp, rfl⟩, rfl, hreplaces⟩
    obtain ⟨b, hfound, hsettles⟩ := hl.settled p hp
    rw [hb', Option.some.injEq] at hfound
    rw [honly, hfound]
    exact hsettles.serial_eq_iff h hq
  · have hnot : ¬ ∃ e ∈ c.configured, e.1 = n ∧ t.Replaces n e.2 := by
      rintro ⟨e, he, hname, _⟩
      obtain ⟨p, hp, rfl⟩ := hd.mem_configured_iff.mp he
      exact hplanned ⟨p, hp, hname⟩
    refine iff_of_true ?_ hnot
    rw [← Queue.info_bare q]
    exact hl.serial_of_unplanned (fun p hp hname => hplanned ⟨p, hp, hname⟩) (bare?_of_find? hq) hb'

/-- A reload that is not refused is decided on, and leaves behind what is said. -/
theorem WellNamed.exists_leaves (h : t.WellNamed) (hok : t.reload c = (t', .ok ())) :
    ∃ policy planned steps, Decided t c policy planned steps ∧ t.Leaves c policy planned t' := by
  obtain ⟨policy, planned, steps, hd, hreload, -⟩ | ⟨e, hrefused, -⟩ := h.reload_cases c
  · obtain ⟨-, hl⟩ := hd.leaves h
    obtain rfl : t.reloaded c policy planned steps = t' :=
      congrArg Prod.fst (hreload.symm.trans hok)
    exact ⟨policy, planned, steps, hd, hl⟩
  · rw [hrefused] at hok
    simp at hok

end QueueTree

end Allotment
