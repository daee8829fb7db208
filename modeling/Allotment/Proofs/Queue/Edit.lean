import Allotment.Proofs.Queue.Entry

/-!
# Edits of a tree

Whatever is done to a tree comes to edits of four kinds: what is not configured changes, a queue is
given settings and a policy, a queue is removed with all below it, or a new queue is put under a
parent. An edit keeps a tree sound: it stays well named, no two queues share a serial number, and
every policy applies to the place of its queue.
-/

namespace Allotment

open QueueName Shape

variable {F : Type}

/-- Every queue of the second of two similar trees is like one of the first. -/
theorem Queue.Similar.exists_of_mem {α : Type} {key : QueueInfo F → α} {q q' r' : Queue F}
    (h : Similar key q q') (hr : r' ∈ q'.all) :
    ∃ r ∈ q.all, key r'.info = key r.info ∧ r'.kind = r.kind := by
  induction q using Queue.induction generalizing q' with
  | leaf info runnable parked =>
    have hkey := h.key_eq
    have hkind := h.kind_eq
    cases h with
    | leaf _ info' _ _ runnable' parked' _ =>
      rw [all_leaf, List.mem_singleton] at hr
      rw [hr]
      exact ⟨_, mem_all_self _, hkey, hkind⟩
  | parent info children ih =>
    have hkey := h.key_eq
    have hkind := h.kind_eq
    cases h with
    | parent _ info' _ renewed children' _ hall hperm =>
      rw [all_parent, List.mem_cons] at hr
      obtain rfl | hr := hr
      · exact ⟨_, mem_all_self _, hkey, hkind⟩
      · obtain ⟨c', hc', hrc⟩ := List.mem_flatMap.mp hr
        obtain ⟨c, hc, hsim⟩ := exists_of_forall₂ hall (hperm.mem_iff.mpr hc')
        obtain ⟨r, hmem, hsame⟩ := ih c hc hsim hrc
        exact ⟨r, mem_all_of_child hc hmem, hsame⟩

namespace QueueTree

/-- Whether a tree becomes another by one edit. -/
inductive Edit : QueueTree F → QueueTree F → Prop where
  | similar (t : QueueTree F) (root : Queue F) (serial : ℕ)
      (hsim : Queue.Similar QueueInfo.fixture t.root root) (hnext : t.nextSerial ≤ serial) :
      Edit t ⟨root, serial⟩
  | configure (t : QueueTree F) (n : String) (settings : QueueSettings F) (policy : Policy)
      (happlies : ∀ k, t.kindOf? n = some k →
        policy.appliesTo (Queue.place (n = QueueName.root) k) = true) :
      Edit t (t.modify n (Queue.configure settings policy))
  | detach (t : QueueTree F) (n : String) (hn : Shape.isWithin QueueName.root n = false) :
      Edit t (t.detach n)
  | grow (t : QueueTree F) (kind : QueueKind) (parent c : String) (settings : QueueSettings F)
      (policy : Policy) (hc : IsPart c) (hparent : t.kindOf? parent = some .parent)
      (hfresh : t.kindOf? (child parent c) = none)
      (happlies : policy.appliesTo (Queue.place false kind) = true) :
      Edit t (t.grow kind parent (child parent c) settings policy)

/-- Whether a tree becomes another by edits, one after another. -/
abbrev Edits : QueueTree F → QueueTree F → Prop := Relation.ReflTransGen Edit

/-- Whether a tree is well named, all serial numbers have been given out and none twice, and all
policies apply to the places of their queues. -/
structure Sound (t : QueueTree F) : Prop where
  wellNamed : t.WellNamed
  serial_lt : ∀ n b, t.bare? n = some b → b.info.serial < t.nextSerial
  serial_injective : ∀ n n' b b', t.bare? n = some b → t.bare? n' = some b' →
    b.info.serial = b'.info.serial → n = n'
  applies : ∀ n b, t.bare? n = some b →
    b.info.policy.appliesTo (Queue.place (n = QueueName.root) b.kind) = true

variable {t t' : QueueTree F}

/-- In a similar tree every name stands for what is configured alike. -/
theorem WellNamed.bare?_of_similar (h : t.WellNamed) (h' : t'.WellNamed)
    (hsim : Queue.Similar QueueInfo.fixture t.root t'.root) {n : String} {b' : Queue F}
    (hb : t'.bare? n = some b') :
    ∃ b, t.bare? n = some b ∧ b'.info.fixture = b.info.fixture ∧ b'.kind = b.kind := by
  obtain ⟨hmem, hname⟩ := h'.bare?_eq_some_iff.mp hb
  obtain ⟨r', hr', rfl⟩ := List.mem_map.mp hmem
  obtain ⟨r, hr, hfixture, hkind⟩ := hsim.exists_of_mem hr'
  have hrname : r.name = n := by
    rw [← hname, Queue.name_bare]
    exact (congrArg Fixture.name hfixture).symm
  refine ⟨r.bare, h.bare?_eq_some_iff.mpr ⟨List.mem_map.mpr ⟨r, hr, rfl⟩, ?_⟩, ?_, ?_⟩
  · rw [Queue.name_bare, hrname]
  · rw [Queue.info_bare, Queue.info_bare, hfixture]
  · rw [Queue.kind_bare, Queue.kind_bare, hkind]

/-- A tree in which every name stands for something that has a serial number and a policy as before
is as sound as it was. -/
theorem Sound.of_bare? (h : t.Sound) (h' : t'.WellNamed) (hnext : t.nextSerial ≤ t'.nextSerial)
    (hsame : ∀ n b', t'.bare? n = some b' → ∃ b, t.bare? n = some b ∧
      b'.info.serial = b.info.serial ∧
      b'.info.policy.appliesTo (Queue.place (n = QueueName.root) b'.kind) = true) : t'.Sound := by
  refine ⟨h', ?_, ?_, ?_⟩
  · intro n b' hb'
    obtain ⟨b, hb, hserial, -⟩ := hsame n b' hb'
    rw [hserial]
    exact Nat.lt_of_lt_of_le (h.serial_lt n b hb) hnext
  · intro n n' b' c' hb' hc' heq
    obtain ⟨b, hb, hbserial, -⟩ := hsame n b' hb'
    obtain ⟨c, hc, hcserial, -⟩ := hsame n' c' hc'
    exact h.serial_injective n n' b c hb hc (by rw [← hbserial, ← hcserial, heq])
  · intro n b' hb'
    obtain ⟨b, -, -, happlies⟩ := hsame n b' hb'
    exact happlies

/-- An edit keeps a tree well named. -/
theorem Edit.wellNamed (hedit : Edit t t') (h : t.WellNamed) : t'.WellNamed := by
  cases hedit with
  | similar root serial hsim _ => exact (h.of_similar hsim.names serial).1
  | configure n settings policy _ =>
    exact (h.modify_local (Queue.local_configure settings policy) n).1
  | detach n hn => exact (h.detach hn).1
  | grow kind parent c settings policy hc hparent hfresh _ =>
    exact (h.grow hc hparent hfresh settings policy).1

/-- Edits keep a tree well named. -/
theorem Edits.wellNamed (hedits : Edits t t') (h : t.WellNamed) : t'.WellNamed := by
  induction hedits with
  | refl => exact h
  | tail _ hedit ih => exact hedit.wellNamed ih

/-- A sound tree that grows is sound. -/
theorem Sound.grow (h : t.Sound) {kind : QueueKind} {parent c : String} (hc : IsPart c)
    (hparent : t.kindOf? parent = some .parent) (hfresh : t.kindOf? (child parent c) = none)
    (settings : QueueSettings F) {policy : Policy}
    (happlies : policy.appliesTo (Queue.place false kind) = true) :
    (t.grow kind parent (child parent c) settings policy).Sound := by
  obtain ⟨hwell, hbares⟩ := h.wellNamed.grow hc hparent hfresh settings policy
  have hold : ∀ m b, t.bare? m = some b → b.info.serial ≠ t.nextSerial :=
    fun m b hb => Nat.ne_of_lt (h.serial_lt m b hb)
  refine ⟨hwell, ?_, ?_, ?_⟩
  · intro m b hb
    rw [hbares] at hb
    split at hb
    · rw [← Option.some.inj hb, Queue.info_fresh]
      exact Nat.lt_succ_self _
    · exact Nat.lt_succ_of_lt (h.serial_lt m b hb)
  · intro m m' b b' hb hb' heq
    rw [hbares] at hb hb'
    split at hb <;> split at hb'
    · rename_i hm hm'
      rw [hm, hm']
    · rw [← Option.some.inj hb, Queue.info_fresh] at heq
      exact absurd heq.symm (hold m' b' hb')
    · rw [← Option.some.inj hb', Queue.info_fresh] at heq
      exact absurd heq (hold m b hb)
    · exact h.serial_injective m m' b b' hb hb' heq
  · intro m b hb
    rw [hbares] at hb
    split at hb
    · rename_i hm
      have hroot : m ≠ QueueName.root := by
        intro hroot
        rw [← hm, hroot, h.wellNamed.kindOf?_root] at hfresh
        contradiction
      rw [← Option.some.inj hb, Queue.info_fresh, Queue.kind_fresh]
      simpa [hroot] using happlies
    · exact h.applies m b hb

/-- An edit keeps a tree sound. -/
theorem Edit.sound (hedit : Edit t t') (h : t.Sound) : t'.Sound := by
  have h' := hedit.wellNamed h.wellNamed
  cases hedit with
  | similar root serial hsim hnext =>
    refine h.of_bare? h' hnext ?_
    intro n b' hb'
    obtain ⟨b, hb, hfixture, hkind⟩ := h.wellNamed.bare?_of_similar h' hsim hb'
    have hpolicy : b'.info.policy = b.info.policy := congrArg Fixture.policy hfixture
    refine ⟨b, hb, congrArg Fixture.serial hfixture, ?_⟩
    rw [hpolicy, hkind]
    exact h.applies n b hb
  | configure n settings policy happlies =>
    have hbares := (h.wellNamed.modify_local (Queue.local_configure settings policy) n).2
    refine h.of_bare? h' (Nat.le_refl _) ?_
    intro m b' hb'
    rw [hbares] at hb'
    split at hb'
    · rename_i hm
      subst hm
      obtain ⟨b, hb, rfl⟩ := Option.map_eq_some_iff.mp hb'
      have hkind := happlies b.kind (by rw [kindOf?_eq_map_bare?, hb, Option.map_some])
      refine ⟨b, hb, ?_, ?_⟩
      · cases b <;> rfl
      · cases b <;> exact hkind
    · exact ⟨b', hb', rfl, h.applies m b' hb'⟩
  | detach n hn =>
    refine h.of_bare? h' (Nat.le_refl _) ?_
    intro m b hb
    rw [h.wellNamed.bare?_detach hn] at hb
    split at hb
    · contradiction
    · exact ⟨b, hb, rfl, h.applies m b hb⟩
  | grow kind parent c settings policy hc hparent hfresh happlies =>
    exact h.grow hc hparent hfresh settings happlies

/-- Edits keep a tree sound. -/
theorem Edits.sound (hedits : Edits t t') (h : t.Sound) : t'.Sound := by
  induction hedits with
  | refl => exact h
  | tail _ hedit ih => exact hedit.sound ih

/-- Edits give out serial numbers in ascending order. -/
theorem Edits.nextSerial_le (hedits : Edits t t') : t.nextSerial ≤ t'.nextSerial := by
  induction hedits with
  | refl => exact Nat.le_refl _
  | tail _ hedit ih =>
    refine ih.trans ?_
    cases hedit with
    | similar root serial hsim hnext => exact hnext
    | configure | detach => exact Nat.le_refl _
    | grow => exact Nat.le_succ _

end QueueTree

end Allotment
