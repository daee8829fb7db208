import Allotment.Proofs.Queue.Reload

/-!
# What the steps of a reload leave behind

A planned queue has one of three fates. One that is there and of the configured kind is renewed, one
of the other kind that holds applications is kept as it is, and in every other case a new one is made.
The other queues stay, but for those below a parent in the place of which a leaf was put. No step
moves an application to another leaf.
-/

namespace Allotment.QueueTree

open QueueName Shape

variable {F : Type} {t u : QueueTree F} {s : Shape} {p : Planned F}

/-- Whether the queue of a name is of another kind than is configured and holds applications. -/
def Keeps (t : QueueTree F) (n : String) (c : QueueConfig F) : Prop :=
  ∃ q, t.find? n = some q ∧ q.kind ≠ c.kind ∧ q.isVacant = false

/-- Whether the queue of a name is of another kind than is configured and holds no applications. -/
def Replaces (t : QueueTree F) (n : String) (c : QueueConfig F) : Prop :=
  ∃ q, t.find? n = some q ∧ q.kind ≠ c.kind ∧ q.isVacant = true

/-- The fates of a planned queue: it was renewed, kept as it was, or made. -/
inductive Settles (t : QueueTree F) (p : Planned F) : Queue F → Prop where
  | renewed (b : Queue F) (hb : t.bare? p.name = some b) (hkind : b.kind = p.config.kind) :
      Settles t p (p.renew b)
  | kept (b : Queue F) (hb : t.bare? p.name = some b) (hkeeps : t.Keeps p.name p.config) :
      Settles t p b
  | made (serial : ℕ) (hnext : t.nextSerial ≤ serial)
      (hnew : ∀ b, t.bare? p.name = some b → t.Replaces p.name p.config) :
      Settles t p (p.made serial)

/-- Whether a name stands for what it stood for, or nothing was held within it and it is below a leaf
among the queues that are done. -/
def Remains (t : QueueTree F) (done : List (Planned F)) (u : QueueTree F) (n : String) : Prop :=
  u.bare? n = t.bare? n ∨ u.bare? n = none ∧ ¬ t.Holds n ∧
    ∃ p ∈ done, u.kindOf? p.name = some .leaf ∧ Shape.isWithin n p.name = true

/-- What holds of a tree when some queues of a plan are done: the applications are where they were,
the root and the queues that are done are settled, and all other names remain. -/
structure Passed (t : QueueTree F) (top : Option (Queue F)) (done : List (Planned F))
    (u : QueueTree F) : Prop where
  seats : u.root.seats.Perm t.root.seats
  next : t.nextSerial ≤ u.nextSerial
  root : u.bare? QueueName.root = top
  settled : ∀ p ∈ done, ∃ b, u.bare? p.name = some b ∧ t.Settles p b
  others : ∀ n, n ≠ QueueName.root → (∀ p ∈ done, p.name ≠ n) → t.Remains done u n

/-- A queue is replaced only if it is in the shape, and then, if it is in the tree too, it is of
another kind than is configured and holds no applications. -/
theorem of_stepFor_replace (h : t.stepFor s p = .replace) :
    ∃ k, s.get? p.name = some k ∧
      ∀ q, t.find? p.name = some q → k ≠ p.config.kind ∧ q.isVacant = true := by
  unfold stepFor at h
  split at h
  · contradiction
  · rename_i k q hk hq
    split at h
    · contradiction
    · rename_i hkind
      split at h
      · rename_i hvacant
        refine ⟨k, hk, ?_⟩
        intro q' hq'
        rw [hq] at hq'
        rw [← Option.some.inj hq']
        exact ⟨hkind, hvacant⟩
      · contradiction
  · rename_i k hk hq
    refine ⟨k, hk, ?_⟩
    intro q hfind
    rw [hq] at hfind
    contradiction

/-! ## One step -/

namespace Ready

variable {top : Option (Queue F)} {done rest : List (Planned F)}

/-- The shape has the kind of what a name stands for. -/
theorem get?_eq_map_bare? (h : Ready t s u p) (n : String) :
    s.get? n = (u.bare? n).map Queue.kind := by
  rw [h.agrees, kindOf?_eq_map_bare?]

/-- What the name of the next queue stands for, it stood for before. -/
theorem bare?_before (h : Ready t s u p) (horder : InOrder QueueName.root (done ++ p :: rest))
    (hpassed : Passed t top done u) {b : Queue F} (hb : u.bare? p.name = some b) :
    t.bare? p.name = some b := by
  obtain hsame | ⟨hnone, -⟩ :=
    hpassed.others p.name h.ne_root fun q hq => horder.ne_of_before hq
  · rw [← hsame, hb]
  · rw [hnone] at hb
    contradiction

/-- If the next queue is to be created, its name stood for nothing before. -/
theorem bare?_before_create (h : Ready t s u p)
    (horder : InOrder QueueName.root (done ++ p :: rest)) (hpassed : Passed t top done u)
    (hstep : t.stepFor s p = .create) : t.bare? p.name = none := by
  have hnone : u.bare? p.name = none := by
    rw [bare?_eq_none_iff, ← h.agrees]
    exact get?_of_stepFor_create hstep
  obtain hsame | ⟨-, -, q, hq, hleaf, hwithin⟩ :=
    hpassed.others p.name h.ne_root fun q hq => horder.ne_of_before hq
  · rw [← hsame, hnone]
  · -- The planned parent would be a leaf, or below one.
    have hparent := h.kindOf?_parent (.inr hstep)
    rw [h.fits.name, isWithin_child_iff h.fits.part, ← h.fits.name] at hwithin
    obtain heq | hwithin := hwithin
    · exact absurd heq (horder.ne_of_before hq)
    · rw [h.wellNamed.eq_of_isWithin_leaf hleaf hparent hwithin, hleaf] at hparent
      contradiction

/-- A queue that is replaced was of the other kind and held no applications. -/
theorem replaces (h : Ready t s u p) (horder : InOrder QueueName.root (done ++ p :: rest))
    (hpassed : Passed t top done u) (hstep : t.stepFor s p = .replace) :
    ∃ b, u.bare? p.name = some b ∧ b.kind ≠ p.config.kind ∧ t.Replaces p.name p.config := by
  obtain ⟨k, hk, hreplaced⟩ := of_stepFor_replace hstep
  rw [h.get?_eq_map_bare?] at hk
  obtain ⟨b, hb, rfl⟩ := Option.map_eq_some_iff.mp hk
  obtain ⟨q, hq, hkind, -⟩ := find?_of_bare? (h.bare?_before horder hpassed hb)
  obtain ⟨hother, hvacant⟩ := hreplaced q hq
  exact ⟨b, hb, hother, q, hq, by rw [hkind]; exact hother, hvacant⟩

/-- The planned queue meets one of the fates. -/
theorem settles (h : Ready t s u p) (horder : InOrder QueueName.root (done ++ p :: rest))
    (hpassed : Passed t top done u) :
    ∃ b, (u.afterStep p (t.stepFor s p)).bare? p.name = some b ∧ t.Settles p b := by
  cases hcase : t.stepFor s p with
  | update =>
    have hk := get?_of_stepFor_update hcase
    rw [h.get?_eq_map_bare?] at hk
    obtain ⟨b, hb, hkind⟩ := Option.map_eq_some_iff.mp hk
    obtain ⟨-, -, hbares⟩ := h.update hcase
    refine ⟨p.renew b, ?_, .renewed b (h.bare?_before horder hpassed hb) hkind⟩
    rw [hbares, if_pos rfl, hb, Option.map_some]
  | keep =>
    obtain ⟨k, q, hk, hq, hother, hheld⟩ := of_stepFor_keep hcase
    rw [h.get?_eq_map_bare?] at hk
    obtain ⟨b, hb, rfl⟩ := Option.map_eq_some_iff.mp hk
    have hbefore := h.bare?_before horder hpassed hb
    obtain ⟨q', hq', hkind, -⟩ := find?_of_bare? hbefore
    obtain rfl : q = q' := Option.some.inj (hq.symm.trans hq')
    exact ⟨b, hb, .kept b hbefore ⟨q, hq, by rw [hkind]; exact hother, hheld⟩⟩
  | replace =>
    obtain ⟨-, -, hbares⟩ := h.place hcase (.inl rfl)
    obtain ⟨-, -, -, hreplaces⟩ := h.replaces horder hpassed hcase
    exact ⟨_, by rw [hbares, if_pos rfl], .made _ hpassed.next fun _ _ => hreplaces⟩
  | create =>
    obtain ⟨-, -, hbares⟩ := h.place hcase (.inr rfl)
    have hnone := h.bare?_before_create horder hpassed hcase
    refine ⟨_, by rw [hbares, if_pos rfl], .made _ hpassed.next ?_⟩
    intro b hb
    rw [hnone] at hb
    contradiction

/-- A name outside that of the planned queue stands for what it stood for. -/
theorem bare?_outside (h : Ready t s u p) {n : String} (hn : Shape.isWithin n p.name = false) :
    (u.afterStep p (t.stepFor s p)).bare? n = u.bare? n := by
  have hne : n ≠ p.name := by
    intro heq
    rw [heq, isWithin_self] at hn
    contradiction
  have hplaced : ∀ step, t.stepFor s p = step → (step = .replace ∨ step = .create) →
      (u.afterStep p step).bare? n = u.bare? n := by
    intro step hcase hstep
    rw [(h.place hcase hstep).2.2, if_neg hne, hn]
    rfl
  cases hcase : t.stepFor s p with
  | update => rw [(h.update hcase).2.2, if_neg hne]
  | keep => rfl
  | replace => exact hplaced .replace hcase (.inl rfl)
  | create => exact hplaced .create hcase (.inr rfl)

/-- A step moves no application to another leaf. -/
theorem seats (h : Ready t s u p) (ht : t.WellNamed)
    (horder : InOrder QueueName.root (done ++ p :: rest)) (hpassed : Passed t top done u) :
    (u.afterStep p (t.stepFor s p)).root.seats.Perm t.root.seats := by
  refine List.Perm.trans ?_ hpassed.seats
  cases hcase : t.stepFor s p with
  | update =>
    apply Queue.seats_modify
    intro q _ _
    rw [Planned.renew, Queue.seats_promoteParked, Queue.seats_configure]
  | keep => exact List.Perm.refl _
  | replace =>
    obtain ⟨-, -, -, q, hq, -, hvacant⟩ := h.replaces horder hpassed hcase
    have hnone : ¬ u.Holds p.name := by
      rw [holds_congr hpassed.seats, ← ht.isVacant_eq_false_iff hq, hvacant]
      simp
    rw [afterStep, growPlanned, ← h.wellNamed.seats_detach hnone]
    exact seats_grow _ _ _ _ _ _
  | create => exact seats_grow _ _ _ _ _ _

/-- Another queue below a planned one stays, unless a leaf is put in the place of that. -/
theorem bare?_inside (h : Ready t s u p) (ht : t.WellNamed)
    (horder : InOrder QueueName.root (done ++ p :: rest)) (hpassed : Passed t top done u)
    {n : String} (hn : Shape.isWithin n p.name = true) (hne : n ≠ p.name) :
    (u.afterStep p (t.stepFor s p)).bare? n = u.bare? n ∨
      (u.afterStep p (t.stepFor s p)).bare? n = none ∧ ¬ t.Holds n ∧
        (u.afterStep p (t.stepFor s p)).kindOf? p.name = some .leaf := by
  cases hcase : t.stepFor s p with
  | update => exact .inl (by rw [(h.update hcase).2.2, if_neg hne])
  | keep => exact .inl rfl
  | replace =>
    obtain ⟨-, -, hbares⟩ := h.place hcase (.inl rfl)
    rw [kindOf?_eq_map_bare?, hbares, hbares, if_neg hne, if_pos hn, if_pos rfl]
    cases hold : u.bare? n with
    | none => exact .inl rfl
    | some a =>
      obtain ⟨b, hb, hother, q, hq, -, hvacant⟩ := h.replaces horder hpassed hcase
      refine .inr ⟨rfl, ?_, ?_⟩
      · intro hholds
        rw [(ht.isVacant_eq_false_iff hq).mpr (hholds.of_isWithin hn)] at hvacant
        contradiction
      · -- What has queues below it is a parent, and is replaced by a leaf.
        have hnleaf : b.kind ≠ .leaf := by
          intro hleaf
          exact hne (h.wellNamed.eq_of_isWithin_leaf
            (by rw [kindOf?_eq_map_bare?, hb, Option.map_some, hleaf])
            (by rw [kindOf?_eq_map_bare?, hold, Option.map_some]) hn)
        rw [Option.map_some, Planned.made, Queue.kind_fresh]
        cases hb : b.kind <;> cases hc : p.config.kind <;> simp_all
  | create =>
    obtain ⟨-, -, hbares⟩ := h.place hcase (.inr rfl)
    rw [hbares, if_neg hne, if_pos hn]
    cases hold : u.bare? n with
    | none => exact .inl rfl
    | some a =>
      have hkind : u.kindOf? n = some a.kind := by
        rw [kindOf?_eq_map_bare?, hold, Option.map_some]
      obtain ⟨k, hk⟩ := h.wellNamed.exists_of_isWithin hkind hn (isWithin_trans h.fits.isWithin h.below)
      rw [← h.agrees, get?_of_stepFor_create hcase] at hk
      contradiction

/-- What holds when some queues are done holds when one more is. -/
theorem passes (h : Ready t s u p) (ht : t.WellNamed)
    (horder : InOrder QueueName.root (done ++ p :: rest)) (hpassed : Passed t top done u) :
    Passed t top (done ++ [p]) (u.afterStep p (t.stepFor s p)) := by
  have hdone : ∀ q ∈ done,
      (u.afterStep p (t.stepFor s p)).bare? q.name = u.bare? q.name :=
    fun q hq => h.bare?_outside (horder.not_isWithin_of_before hq)
  refine ⟨h.seats ht horder hpassed, ?_, ?_, ?_, ?_⟩
  · refine Nat.le_trans hpassed.next ?_
    cases t.stepFor s p with
    | update | keep => exact Nat.le_refl _
    | replace | create => exact Nat.le_succ _
  · rw [h.bare?_outside (h.fits.not_isWithin_top h.below)]
    exact hpassed.root
  · intro q hq
    obtain hq | hq := List.mem_append.mp hq
    · rw [hdone q hq]
      exact hpassed.settled q hq
    · rw [List.mem_singleton.mp hq]
      exact h.settles horder hpassed
  · intro n hroot hother
    have hne : n ≠ p.name := fun heq => hother p (by simp) heq.symm
    -- If nothing changes for the name, what held of it still does.
    have hstays : (u.afterStep p (t.stepFor s p)).bare? n = u.bare? n →
        t.Remains (done ++ [p]) (u.afterStep p (t.stepFor s p)) n := by
      intro hsame
      obtain hbefore | ⟨hnone, hempty, q, hq, hleaf, hwithin⟩ :=
        hpassed.others n hroot fun q hq => hother q (List.mem_append_left _ hq)
      · exact .inl (hsame.trans hbefore)
      · refine .inr ⟨hsame.trans hnone, hempty, q, List.mem_append_left _ hq, ?_, hwithin⟩
        rw [kindOf?_eq_map_bare?, hdone q hq, ← kindOf?_eq_map_bare?]
        exact hleaf
    cases hn : Shape.isWithin n p.name with
    | false => exact hstays (h.bare?_outside hn)
    | true =>
      obtain hsame | ⟨hnone, hempty, hleaf⟩ := h.bare?_inside ht horder hpassed hn hne
      · exact hstays hsame
      · exact .inr ⟨hnone, hempty, p, by simp, hleaf, hn⟩

end Ready

end Allotment.QueueTree
