import Allotment.Proofs.Queue.Branch
import Allotment.Proofs.Queue.Settled
import Allotment.Proofs.Queue.Undisturbed

/-!
# Parked applications

A leaf parks the applications for which its limit leaves no place. That it does so fairly is an invariant:
the parked ones stand in the order of their submission, have nothing as yet, and none is parked while there
is a place free. Whatever is done to a tree keeps this, and moves parked applications up in their turn and
never beyond the limit, which only a reload sets anew.
-/

namespace Allotment

open scoped List

variable {F : Type}

namespace Queue

/-! ## One queue -/

/-- Whether a queue parks fairly: no application runs and is parked, none is parked while a place is free,
and the parked ones stand in the order of their serial numbers and hold nothing. -/
structure ParksFairly (q : Queue F) : Prop where
  apart : ∀ a ∈ q.runnable, ∀ b ∈ q.parked, a.serial ≠ b.serial
  full : q.parked ≠ [] → q.info.settings.limit ≤ q.runnable.length
  ascending : q.parked.Pairwise fun a b => a.serial < b.serial
  idle : ∀ a ∈ q.parked, a.live = []

/-- Whether a queue has moved applications up by turns since an earlier time: those that were parked and
now run come before all that are still parked, and there are not more running than before unless the limit
leaves them a place. -/
structure MovesUp (q q' : Queue F) : Prop where
  eldest : ∀ a ∈ q.parked, ∀ b ∈ q'.runnable, b.serial = a.serial →
    ∀ c ∈ q'.parked, a.serial < c.serial
  within : q'.info.settings.limit < q'.runnable.length → q'.runnable.length ≤ q.runnable.length

variable {q q' : Queue F}

/-- A queue without applications parks fairly. -/
theorem ParksFairly.of_empty (hrunnable : q.runnable = []) (hparked : q.parked = []) : q.ParksFairly := by
  refine ⟨?_, ?_, ?_, ?_⟩ <;> simp [hrunnable, hparked]

/-- Whatever a queue without applications was before, it has moved none up. -/
theorem MovesUp.of_empty (q : Queue F) (hrunnable : q'.runnable = []) : q.MovesUp q' := by
  refine ⟨?_, ?_⟩ <;> simp [hrunnable]

namespace KeepsPlaces

/-- Whoever runs in a queue that has kept its places ran in it. -/
theorem exists_runnable (h : q.KeepsPlaces q') {b : Attempt F} (hb : b ∈ q'.runnable) :
    ∃ a ∈ q.runnable, a.serial = b.serial :=
  List.mem_map.mp (h.runnable.mem_iff.mp (List.mem_map_of_mem hb))

/-- Whoever is parked in a queue that has kept its places was parked in it. -/
theorem exists_parked (h : q.KeepsPlaces q') {b : Attempt F} (hb : b ∈ q'.parked) :
    ∃ a ∈ q.parked, a.serial = b.serial := by
  have hmem : b.serial ∈ q'.parked.map Attempt.serial := List.mem_map_of_mem hb
  rw [h.parked] at hmem
  exact List.mem_map.mp hmem

/-- As many run in a queue that has kept its places as before. -/
theorem length_runnable (h : q.KeepsPlaces q') : q'.runnable.length = q.runnable.length := by
  have hperm := h.runnable.length_eq
  rwa [List.length_map, List.length_map] at hperm

/-- A queue that has kept its places parks as fairly as before. -/
theorem parksFairly (h : q.KeepsPlaces q') (hfair : q.ParksFairly) : q'.ParksFairly := by
  refine ⟨?_, ?_, ?_, h.idle hfair.idle⟩
  · intro a ha b hb hsame
    obtain ⟨a', ha', haserial⟩ := h.exists_runnable ha
    obtain ⟨b', hb', hbserial⟩ := h.exists_parked hb
    exact hfair.apart a' ha' b' hb' (by rw [haserial, hbserial, hsame])
  · intro hsome
    rw [h.limit, h.length_runnable]
    apply hfair.full
    intro hnone
    have hparked := h.parked
    rw [hnone, List.map_nil, List.map_eq_nil_iff] at hparked
    exact hsome hparked
  · have hascending := List.pairwise_map.mpr hfair.ascending
    rw [← h.parked] at hascending
    exact List.pairwise_map.mp hascending

end KeepsPlaces

namespace MovesUp

variable {q'' : Queue F}

/-- While nothing happens nobody moves up. -/
theorem refl (h : q.ParksFairly) : q.MovesUp q :=
  ⟨fun a ha b hb hsame => absurd hsame (h.apart b hb a ha), fun _ => Nat.le_refl _⟩

/-- What moved up by turns has done so when places are kept after it. -/
theorem keep (h : q.MovesUp q') (hk : q'.KeepsPlaces q'') : q.MovesUp q'' := by
  refine ⟨?_, ?_⟩
  · intro a ha b hb hsame c hc
    obtain ⟨b', hb', hbserial⟩ := hk.exists_runnable hb
    obtain ⟨c', hc', hcserial⟩ := hk.exists_parked hc
    rw [← hcserial]
    exact h.eldest a ha b' hb' (hbserial.trans hsame) c' hc'
  · rw [hk.limit, hk.length_runnable]
    exact h.within

/-- What moves up by turns does so since before places were kept. -/
theorem kept (h : q'.MovesUp q'') (hk : q.KeepsPlaces q') : q.MovesUp q'' := by
  refine ⟨?_, ?_⟩
  · intro a ha b hb hsame c hc
    have hmem : a.serial ∈ q.parked.map Attempt.serial := List.mem_map_of_mem ha
    rw [← hk.parked] at hmem
    obtain ⟨a', ha', haserial⟩ := List.mem_map.mp hmem
    rw [← haserial]
    exact h.eldest a' ha' b hb (hsame.trans haserial.symm) c hc
  · rw [← hk.length_runnable]
    exact h.within

end MovesUp

namespace ParksFairly

/-- A queue in which some are left of those that ran and of those that were parked, and from which then
parked ones move up into the places that its limit leaves, parks fairly and has moved up by turns. -/
theorem promoteParked (h : q.ParksFairly) {info : QueueInfo F} {runnable parked : List (Attempt F)}
    (hrunnable : runnable <+ q.runnable) (hparked : parked <+ q.parked) :
    (leaf info runnable parked).promoteParked.ParksFairly ∧
      q.MovesUp (leaf info runnable parked).promoteParked := by
  let free := info.settings.limit - runnable.length
  have hsplit : (parked.take free ++ parked.drop free).Pairwise fun a b => a.serial < b.serial := by
    rw [List.take_append_drop]
    exact h.ascending.sublist hparked
  obtain ⟨-, hascending, hbefore⟩ := List.pairwise_append.mp hsplit
  have hlength : (runnable ++ parked.take free).length =
      runnable.length + min free parked.length := by
    rw [List.length_append, List.length_take]
  have hstill : ∀ b ∈ parked.drop free, b ∈ q.parked :=
    fun b hb => hparked.subset (List.mem_of_mem_drop hb)
  refine ⟨⟨?_, ?_, hascending, fun a ha => h.idle a (hstill a ha)⟩, ?_, ?_⟩
  · intro a ha b hb
    obtain ha | ha := List.mem_append.mp ha
    · exact h.apart a (hrunnable.subset ha) b (hstill b hb)
    · exact (hbefore a ha b hb).ne
  · intro hsome
    change info.settings.limit ≤ (runnable ++ parked.take free).length
    have hleft : free < parked.length := by
      by_contra hnot
      exact hsome (List.drop_eq_nil_of_le (Nat.le_of_not_lt hnot))
    omega
  · intro a ha b hb hsame c hc
    obtain hb | hb := List.mem_append.mp hb
    · exact absurd hsame (h.apart b (hrunnable.subset hb) a ha)
    · rw [← hsame]
      exact hbefore b hb c hc
  · intro hover
    change info.settings.limit < (runnable ++ parked.take free).length at hover
    change (runnable ++ parked.take free).length ≤ q.runnable.length
    have hfewer := hrunnable.length_le
    omega

section Submission

variable {info : QueueInfo F} {runnable parked : List (Attempt F)} {a : Attempt F}

/-- An application more runs if there is a place for it. Nobody is parked then. -/
theorem runLast (h : (leaf info runnable parked).ParksFairly)
    (hplace : runnable.length < info.settings.limit) :
    (leaf info (runnable ++ [a]) parked).ParksFairly ∧
      (leaf info runnable parked).MovesUp (leaf info (runnable ++ [a]) parked) := by
  obtain rfl : parked = [] := by
    by_contra hsome
    exact absurd (h.full hsome) (Nat.not_le_of_lt hplace)
  refine ⟨⟨by simp [Queue.parked], by simp [Queue.parked], .nil, by simp [Queue.parked]⟩,
    by simp [Queue.parked], ?_⟩
  intro hover
  change info.settings.limit < (runnable ++ [a]).length at hover
  rw [List.length_append, List.length_singleton] at hover
  exact absurd hover (Nat.not_lt_of_le hplace)

/-- An application more, which has nothing yet and was submitted after the others, is the last of the parked
ones if there is no place for it. -/
theorem parkLast (h : (leaf info runnable parked).ParksFairly)
    (hfull : info.settings.limit ≤ runnable.length) (hidle : a.live = [])
    (hran : ∀ b ∈ runnable, b.serial < a.serial) (hwaited : ∀ b ∈ parked, b.serial < a.serial) :
    (leaf info runnable (parked ++ [a])).ParksFairly ∧
      (leaf info runnable parked).MovesUp (leaf info runnable (parked ++ [a])) := by
  refine ⟨⟨?_, fun _ => hfull, ?_, ?_⟩, ?_, fun _ => Nat.le_refl _⟩
  · intro b hb c hc
    obtain hc | hc := List.mem_append.mp hc
    · exact h.apart b hb c hc
    · rw [List.mem_singleton.mp hc]
      exact (hran b hb).ne
  · refine List.pairwise_append.mpr ⟨h.ascending, List.pairwise_singleton _ _, ?_⟩
    intro b hb c hc
    rw [List.mem_singleton.mp hc]
    exact hwaited b hb
  · intro b hb
    obtain hb | hb := List.mem_append.mp hb
    · exact h.idle b hb
    · rw [List.mem_singleton.mp hb, hidle]
  · intro b hb c hc hsame
    exact absurd hsame (h.apart c hc b hb)

end Submission

/-- An application more, which has nothing yet and was submitted after the others, disturbs no turns. -/
theorem addAttempt (h : q.ParksFairly) {a : Attempt F} (hidle : a.live = [])
    (hlast : ∀ b ∈ q.attempts, b.serial < a.serial) :
    (q.addAttempt a).ParksFairly ∧ q.MovesUp (q.addAttempt a) := by
  cases q with
  | parent info children => exact ⟨h, .refl h⟩
  | leaf info runnable parked =>
    rw [attempts_leaf] at hlast
    rw [Queue.addAttempt]
    split
    · rename_i hplace
      exact h.runLast hplace
    · rename_i hnone
      exact h.parkLast (Nat.le_of_not_lt hnone) hidle (fun b hb => hlast b (List.mem_append_left parked hb))
        fun b hb => hlast b (List.mem_append_right runnable hb)

/-- An application less lets parked ones move up. -/
theorem removeAttempt (h : q.ParksFairly) (id : String) :
    (q.removeAttempt id).ParksFairly ∧ q.MovesUp (q.removeAttempt id) := by
  cases q with
  | parent info children => exact ⟨h, .refl h⟩
  | leaf info runnable parked =>
    rw [Queue.removeAttempt]
    split
    · exact h.promoteParked List.eraseP_sublist (.refl _)
    · exact h.promoteParked (.refl _) List.eraseP_sublist

/-- A queue that is renewed lets parked applications move up if its new limit allows. -/
theorem renew (h : q.ParksFairly) (p : Planned F) :
    (p.renew q).ParksFairly ∧ q.MovesUp (p.renew q) := by
  cases q with
  | parent info children => exact ⟨.of_empty rfl rfl, .of_empty _ rfl⟩
  | leaf info runnable parked => exact h.promoteParked (.refl _) (.refl _)

end ParksFairly

@[simp] theorem runnable_bare (q : Queue F) : q.bare.runnable = q.runnable := by
  cases q <;> rfl

@[simp] theorem parked_bare (q : Queue F) : q.bare.parked = q.parked := by
  cases q <;> rfl

/-- A queue parks fairly if it does so without those below it. -/
theorem ParksFairly.of_bare (h : q.bare.ParksFairly) : q.ParksFairly := by
  cases q with
  | leaf info runnable parked => exact h
  | parent info children => exact .of_empty rfl rfl

/-- A queue has moved applications up by turns if it has done so without those below it. -/
theorem MovesUp.of_bare (h : q.bare.MovesUp q'.bare) : q.MovesUp q' := by
  obtain ⟨heldest, hwithin⟩ := h
  simp only [runnable_bare, parked_bare, info_bare] at heldest hwithin
  exact ⟨heldest, hwithin⟩

/-- Nobody is in a listed queue of a tree without applications. -/
theorem empty_of_seats {q b : Queue F} (hnone : q.seats = []) (hb : b ∈ q.bares) :
    b.runnable = [] ∧ b.parked = [] := by
  obtain ⟨r, hr, rfl⟩ := List.mem_map.mp hb
  cases r with
  | parent info children => exact ⟨rfl, rfl⟩
  | leaf info runnable parked =>
    have hown : (leaf info runnable parked).ownAttempts = [] := by
      rw [List.eq_nil_iff_forall_not_mem]
      intro a ha
      have hseat := mem_seats_iff.mpr ⟨_, hr, a, ha, rfl⟩
      rw [hnone] at hseat
      contradiction
    exact List.append_eq_nil_iff.mp hown

/-- Adding an application concerns a queue alone. -/
theorem local_addAttempt (a : Attempt F) : Local (addAttempt a) := by
  refine ⟨?_, ?_, fun info => ⟨info, fun _ => rfl⟩⟩
  · intro q
    cases q with
    | parent info children => rfl
    | leaf info runnable parked =>
      rw [addAttempt]
      split <;> rfl
  · intro info runnable parked
    rw [addAttempt]
    split <;> exact ⟨info, _, _, rfl⟩

/-- Removing an application concerns a queue alone. -/
theorem local_removeAttempt (id : String) : Local (removeAttempt (F := F) id) := by
  refine ⟨?_, ?_, fun info => ⟨info, fun _ => rfl⟩⟩
  · intro q
    cases q with
    | parent info children => rfl
    | leaf info runnable parked =>
      rw [removeAttempt]
      split <;> rfl
  · intro info runnable parked
    rw [removeAttempt]
    split <;> exact ⟨info, _, _, rfl⟩

end Queue

namespace Queue

variable {q : Queue F}

/-- Whether a queue parks fairly and has moved applications up by turns since what it was at an earlier time,
or was not there and has a place for all that run. Its limit may have changed on some condition only. -/
def Succeeds (relimited : Prop) (before : Option (Queue F)) (q : Queue F) : Prop :=
  q.ParksFairly ∧
    ((before = none ∧ q.runnable.length ≤ q.info.settings.limit) ∨
      ∃ b, before = some b ∧ b.MovesUp q ∧
        (q.info.settings.limit = b.info.settings.limit ∨ relimited))

/-- A queue succeeds itself. -/
theorem ParksFairly.succeeds {r : Prop} (h : q.ParksFairly) : Succeeds r (some q) q :=
  ⟨h, .inr ⟨q, rfl, .refl h, .inl rfl⟩⟩

/-- A queue without applications succeeds whatever was there, if limits may have changed. -/
theorem Succeeds.of_empty (before : Option (Queue F)) (hrunnable : q.runnable = [])
    (hparked : q.parked = []) : Succeeds True before q := by
  refine ⟨.of_empty hrunnable hparked, ?_⟩
  cases before with
  | none =>
    rw [hrunnable]
    exact .inl ⟨rfl, Nat.zero_le _⟩
  | some b => exact .inr ⟨b, rfl, .of_empty b hrunnable, .inr trivial⟩

end Queue

/-- Nobody is in a queue that was just made. -/
theorem Planned.made_empty (p : Planned F) (serial : ℕ) :
    (p.made serial).runnable = [] ∧ (p.made serial).parked = [] := by
  unfold made
  cases p.config.kind <;> exact ⟨rfl, rfl⟩

namespace QueueTree

variable {t t' t'' : QueueTree F}

/-! ## Whole trees -/

/-- Whether all queues of a tree park fairly. -/
def ParksFairly (t : QueueTree F) : Prop := ∀ n b, t.bare? n = some b → b.ParksFairly

/-- Whether every queue of a tree succeeds what had its name at an earlier time. -/
def Advances (relimited : Prop) (t t' : QueueTree F) : Prop :=
  ∀ n b', t'.bare? n = some b' → b'.Succeeds relimited (t.bare? n)

/-- Whether a tree is another with queues more, in which there are no applications. -/
structure Extends (t t' : QueueTree F) : Prop where
  stays : ∀ n b, t.bare? n = some b → t'.bare? n = some b
  new : ∀ n b, t'.bare? n = some b → t.bare? n = none → b.runnable = [] ∧ b.parked = []

/-- A tree extends itself. -/
theorem Extends.refl (t : QueueTree F) : Extends t t := by
  refine ⟨fun _ _ hb => hb, fun n b hb hnone => ?_⟩
  rw [hnone] at hb
  contradiction

/-- Queues without applications park fairly. -/
theorem Extends.parksFairly (h : t.Extends t') (hfair : t.ParksFairly) : t'.ParksFairly := by
  intro n b hb
  cases hbefore : t.bare? n with
  | none =>
    obtain ⟨hrunnable, hparked⟩ := h.new n b hb hbefore
    exact .of_empty hrunnable hparked
  | some a =>
    obtain rfl := Option.some.inj ((h.stays n a hbefore).symm.trans hb)
    exact hfair n a hbefore

/-- What becomes of a tree with new queues becomes of the tree. -/
theorem Extends.advances {r : Prop} (h : t.Extends t') (ha : Advances r t' t'') : Advances r t t'' := by
  intro n b'' hb''
  obtain ⟨hfair, ⟨hnone, hwithin⟩ | ⟨b', hb', hmoves, hlimit⟩⟩ := ha n b'' hb''
  · refine ⟨hfair, .inl ⟨?_, hwithin⟩⟩
    cases hbefore : t.bare? n with
    | none => rfl
    | some b =>
      rw [h.stays n b hbefore] at hnone
      contradiction
  · refine ⟨hfair, ?_⟩
    cases hbefore : t.bare? n with
    | none =>
      refine .inl ⟨rfl, ?_⟩
      by_contra hover
      have hfew := hmoves.within (Nat.lt_of_not_le hover)
      rw [(h.new n b' hb' hbefore).1, List.length_nil] at hfew
      omega
    | some b =>
      obtain rfl := Option.some.inj ((h.stays n b hbefore).symm.trans hb')
      exact .inr ⟨b, rfl, hmoves, hlimit⟩

/-- A tree advances while nothing happens. -/
theorem ParksFairly.advances {r : Prop} (h : t.ParksFairly) : Advances r t t := by
  intro n b hb
  rw [hb]
  exact (h n b hb).succeeds

namespace Advances

variable {r : Prop}

/-- In a tree that has advanced all queues park fairly. -/
theorem parksFairly (h : Advances r t t') : t'.ParksFairly := fun n b hb => (h n b hb).1

/-- A tree that has advanced and is then left undisturbed has advanced. -/
theorem keep (h : Advances r t t') (h' : t'.WellNamed) (h'' : t''.WellNamed)
    (hkept : t'.root.Undisturbed t''.root) : Advances r t t'' := by
  intro n b'' hb''
  obtain ⟨hmem, hname⟩ := h''.bare?_eq_some_iff.mp hb''
  obtain ⟨b', hb', hkeeps⟩ := hkept b'' hmem
  have hbefore : t'.bare? n = some b' := h'.bare?_eq_some_iff.mpr ⟨hb', hkeeps.name.symm.trans hname⟩
  obtain ⟨hfair, ⟨hnone, hwithin⟩ | ⟨b, hb, hmoves, hlimit⟩⟩ := h n b' hbefore
  · refine ⟨hkeeps.parksFairly hfair, .inl ⟨hnone, ?_⟩⟩
    rw [hkeeps.limit, hkeeps.length_runnable]
    exact hwithin
  · refine ⟨hkeeps.parksFairly hfair, .inr ⟨b, hb, hmoves.keep hkeeps, ?_⟩⟩
    rw [hkeeps.limit]
    exact hlimit

/-- A tree that advances has advanced since before it was left undisturbed, if it has the names that it
had. -/
theorem kept (h : Advances r t' t'') (ht : t.WellNamed) (h' : t'.WellNamed)
    (hkept : t.root.Undisturbed t'.root) (hkinds : ∀ n, t'.kindOf? n = t.kindOf? n) :
    Advances r t t'' := by
  intro n b'' hb''
  obtain ⟨hfair, ⟨hnone, hwithin⟩ | ⟨b', hb', hmoves, hlimit⟩⟩ := h n b'' hb''
  · rw [bare?_eq_none_iff, hkinds, ← bare?_eq_none_iff] at hnone
    exact ⟨hfair, .inl ⟨hnone, hwithin⟩⟩
  · obtain ⟨hmem, hname⟩ := h'.bare?_eq_some_iff.mp hb'
    obtain ⟨b, hb, hkeeps⟩ := hkept b' hmem
    rw [hkeeps.limit] at hlimit
    exact ⟨hfair, .inr ⟨b, ht.bare?_eq_some_iff.mpr ⟨hb, hkeeps.name.symm.trans hname⟩,
      hmoves.kept hkeeps, hlimit⟩⟩

/-- A queue of a tree that has advanced is new, or has moved applications up by turns since it had its name
before. -/
theorem of_mem (h : Advances r t t') (ht : t.WellNamed) (h' : t'.WellNamed) {q' : Queue F}
    (hq' : q' ∈ t'.root.all) :
    ((∀ q ∈ t.root.all, q.name ≠ q'.name) ∧ q'.runnable.length ≤ q'.info.settings.limit) ∨
      ∃ q, t.find? q'.name = some q ∧ q.MovesUp q' ∧
        (q'.info.settings.limit = q.info.settings.limit ∨ r) := by
  have hbare := bare?_of_find? (h'.root.find?_eq_some_iff.mpr ⟨hq', rfl⟩)
  obtain ⟨-, ⟨hnone, hwithin⟩ | ⟨b, hb, hmoves, hlimit⟩⟩ := h q'.name q'.bare hbare
  · rw [Queue.runnable_bare, Queue.info_bare] at hwithin
    refine .inl ⟨fun q hq hname => ?_, hwithin⟩
    rw [bare?_of_find? (ht.root.find?_eq_some_iff.mpr ⟨hq, hname⟩)] at hnone
    contradiction
  · obtain ⟨q, hfind, rfl⟩ := Option.map_eq_some_iff.mp hb
    rw [Queue.info_bare, Queue.info_bare] at hlimit
    exact .inr ⟨q, hfind, hmoves.of_bare, hlimit⟩

/-- A tree advances on a weaker condition. -/
theorem mono {r' : Prop} (h : Advances r t t') (hr : r → r') : Advances r' t t' := by
  intro n b' hb'
  obtain ⟨hfair, hnew | ⟨b, hb, hmoves, hlimit⟩⟩ := h n b' hb'
  · exact ⟨hfair, .inl hnew⟩
  · exact ⟨hfair, .inr ⟨b, hb, hmoves, hlimit.imp_right hr⟩⟩

end Advances

/-- A tree of which one queue moves applications up by turns advances. -/
theorem WellNamed.advances_modify (h : t.WellNamed) {r : Prop} (hfair : t.ParksFairly)
    {f : Queue F → Queue F} (hf : Queue.Local f) (n : String)
    (hmoves : ∀ b, t.bare? n = some b → ((f b).ParksFairly ∧ b.MovesUp (f b)) ∧
      (f b).info.settings.limit = b.info.settings.limit) : Advances r t (t.modify n f) := by
  intro m b' hb'
  rw [(h.modify_local hf n).2] at hb'
  split at hb'
  · rename_i hm
    subst hm
    obtain ⟨b, hb, rfl⟩ := Option.map_eq_some_iff.mp hb'
    obtain ⟨⟨hfair', hmoved⟩, hlimit⟩ := hmoves b hb
    exact ⟨hfair', .inr ⟨b, hb, hmoved, .inl hlimit⟩⟩
  · exact hfair.advances m b' hb'

/-- Removing an application advances a tree. -/
theorem WellNamed.advances_removeAttempt (h : t.WellNamed) {r : Prop} (hfair : t.ParksFairly)
    (n id : String) : Advances r t (t.modify n (Queue.removeAttempt id)) := by
  apply h.advances_modify hfair (Queue.local_removeAttempt id)
  intro b hb
  refine ⟨(hfair n b hb).removeAttempt id, ?_⟩
  cases b with
  | parent info children => rfl
  | leaf info runnable parked =>
    rw [Queue.removeAttempt]
    split <;> rfl

/-- Adding an application that was submitted after those of its leaf advances a tree. -/
theorem WellNamed.advances_addAttempt (h : t.WellNamed) {r : Prop} (hfair : t.ParksFairly) (n : String)
    {a : Attempt F} (hidle : a.live = []) (hlast : ∀ b ∈ t.root.attempts, b.serial < a.serial) :
    Advances r t (t.modify n (Queue.addAttempt a)) := by
  apply h.advances_modify hfair (Queue.local_addAttempt a)
  intro b hb
  obtain ⟨hmem, -⟩ := h.bare?_eq_some_iff.mp hb
  obtain ⟨q, hq, rfl⟩ := List.mem_map.mp hmem
  refine ⟨(hfair n _ hb).addAttempt hidle fun c hc => hlast c ?_, ?_⟩
  · cases q with
    | parent info children => simp [Queue.bare] at hc
    | leaf info runnable parked =>
      rw [Queue.bare, Queue.attempts_leaf] at hc
      exact List.mem_flatMap.mpr ⟨_, hq, hc⟩
  · cases q with
    | parent info children => rfl
    | leaf info runnable parked =>
      rw [Queue.bare, Queue.addAttempt]
      split <;> rfl

/-- A planned queue that is settled succeeds what had its name. -/
theorem Settles.succeeds {p : Planned F} {b : Queue F} (h : t.Settles p b) (hfair : t.ParksFairly) :
    b.Succeeds True (t.bare? p.name) := by
  cases h with
  | renewed b hb _ =>
    obtain ⟨hfair', hmoves⟩ := (hfair p.name b hb).renew p
    exact ⟨hfair', .inr ⟨b, hb, hmoves, .inr trivial⟩⟩
  | kept b hb _ =>
    rw [hb]
    exact (hfair p.name b hb).succeeds
  | made serial _ _ =>
    obtain ⟨hrunnable, hparked⟩ := p.made_empty serial
    exact .of_empty _ hrunnable hparked

/-- A reload advances a tree, and only it sets limits anew. -/
theorem WellNamed.advances_reload (h : t.WellNamed) (hfair : t.ParksFairly) (c : QueueConfig F) :
    Advances True t (t.reload c).1 := by
  obtain ⟨policy, planned, steps, hd, hreload, -⟩ | ⟨e, hreload, -⟩ := h.reload_cases c
  · have hl := (hd.leaves h).2
    rw [hreload]
    intro n b' hb'
    by_cases hwanted : n ∈ wanted planned
    · obtain rfl | hplanned := List.mem_cons.mp hwanted
      · -- The root is a parent, and holds no applications itself.
        rw [hl.root] at hb'
        obtain ⟨b, hb, rfl⟩ := Option.map_eq_some_iff.mp hb'
        have hkind := h.kindOf?_root
        rw [kindOf?_eq_map_bare?, hb, Option.map_some] at hkind
        cases b with
        | leaf info runnable parked => simp [Queue.kind] at hkind
        | parent info children => exact .of_empty _ rfl rfl
      · obtain ⟨p, hp, rfl⟩ := List.mem_map.mp hplanned
        obtain ⟨b, hb, hsettles⟩ := hl.settled p hp
        obtain rfl := Option.some.inj (hb.symm.trans hb')
        exact hsettles.succeeds hfair
    · by_cases hheld : t.Holds n
      · rw [hl.held n hwanted hheld] at hb'
        exact hfair.advances n b' hb'
      · rw [hl.gone n hwanted hheld] at hb'
        contradiction
  · rw [hreload]
    exact hfair.advances

section OnDemand

variable [Scalar F] {kind : QueueKind}

/-- A tree with a branch more extends what it was. -/
theorem Sprouts.extends {name above c : String} {rest : List String}
    (hs : t.Sprouts t' kind name above c rest) (h : t.WellNamed) (h' : t'.WellNamed) : t.Extends t' := by
  refine ⟨?_, ?_⟩
  · intro n b hb
    obtain ⟨hmem, hname⟩ := h.bare?_eq_some_iff.mp hb
    exact h'.bare?_eq_some_iff.mpr ⟨(hs.queues b).mpr (.inl hmem), hname⟩
  · intro n b hb hnone
    obtain ⟨hmem, hname⟩ := h'.bare?_eq_some_iff.mp hb
    obtain hold | hnew := (hs.queues b).mp hmem
    · rw [h.bare?_eq_some_iff.mpr ⟨hold, hname⟩] at hnone
      contradiction
    · exact Queue.empty_of_seats (Queue.seats_branch _ _ _ _ _) hnew

/-- Locating a queue extends a tree. -/
theorem WellNamed.extends_locate (h : t.WellNamed) (name : String) (create : Bool) (kind : QueueKind) :
    t.Extends (t.locate name create kind).1 := by
  have h' := (h.located name create kind).edits.wellNamed h
  cases create with
  | false =>
    unfold locate
    split
    · exact .refl t
    · split <;> exact .refl t
  | true =>
    have hlocates := h.locates name kind
    generalize t.locate name true kind = located at hlocates h'
    cases hlocates with
    | there | blocked => exact .refl t
    | created tree n above c rest hs => exact hs.extends h h'

end OnDemand

end QueueTree

end Allotment
