import Allotment.Proofs.Queue.Reload
import Allotment.Queue.Assignment
import Allotment.Queue.Shares

/-!
# Trees that come about

A tree starts from a configuration. After that queues are asked for, the configuration is reloaded,
applications come, change and go, and queues are given policies, shares and nodes. Each of these comes
to edits, so a tree that comes about in this way, in whatever order, is sound.
-/

namespace Allotment

variable {F : Type}

/-- The queue with another policy if that applies, and as it is if not. -/
def Queue.offerPolicy (q : Queue F) (isRoot : Bool) (policy : Policy) : Queue F :=
  match q.setPolicy isRoot policy with
  | .ok changed => changed
  | .error _ => q

namespace QueueTree

variable [Scalar F]

/-- What can be done to a tree. What applications do on their own may be anything. -/
inductive Operation (F : Type) where
  | locate (name : String) (create : Bool) (kind : QueueKind)
  | reload (c : QueueConfig F)
  | setPolicy (queue : String) (policy : Policy)
  | addAttempt (queue : String) (a : Attempt F)
  | removeAttempt (queue id : String)
  | mapAttempts (f : Attempt F → Attempt F)
  | takeSerial
  | setFairShare (queue : String) (share : Resource)
  | giveFair (queue : String) (share : Resource)
  | giveSteady (queue : String) (share : Resource)
  | updateDemand (queue : String)
  | assign (queue : String) (cluster : Resource) (p : Placement F)
  | preempt (queue : String) (cluster : Resource) (isOver : Resource → Resource → Bool)

/-- The tree after an operation, whether or not that was refused. -/
def apply (t : QueueTree F) : Operation F → QueueTree F
  | .locate name create kind => (t.locate name create kind).1
  | .reload c => (t.reload c).1
  | .setPolicy queue policy => t.modify queue (·.offerPolicy (queue = QueueName.root) policy)
  | .addAttempt queue a => t.modify queue (Queue.addAttempt a)
  | .removeAttempt queue id => t.modify queue (Queue.removeAttempt id)
  | .mapAttempts f => { t with root := t.root.mapAttempts f }
  | .takeSerial => { t with nextSerial := t.nextSerial + 1 }
  | .setFairShare queue share => t.modify queue fun q => q.withInfo ({ · with fairShare := share })
  | .giveFair queue share => t.modify queue (·.giveFair share)
  | .giveSteady queue share => t.modify queue (·.giveSteady share)
  | .updateDemand queue => t.modify queue Queue.updateDemand
  | .assign queue cluster p => t.modify queue fun q => (q.assign cluster p).subject
  | .preempt queue cluster isOver => t.modify queue fun q => (q.preempt cluster isOver).1

/-- Whether a tree comes about from a configuration by operations. -/
inductive Reachable : QueueTree F → Prop where
  | start (c : QueueConfig F) (t : QueueTree F) (hmade : ofConfig c = .ok t) : Reachable t
  | step (t : QueueTree F) (op : Operation F) (h : Reachable t) : Reachable (t.apply op)

/-! ## Trees stay sound -/

variable {t : QueueTree F}

omit [Scalar F] in
/-- Changing the queues of a name for queues of one make is an edit. -/
theorem edit_modify (t : QueueTree F) (n : String) {f : Queue F → Queue F}
    (hf : ∀ q, Queue.Similar QueueInfo.fixture q (f q)) : Edit t (t.modify n f) :=
  .similar t _ _ (Queue.similar_modify n t.root fun q _ _ => hf q) (Nat.le_refl _)

omit [Scalar F] in
/-- Offering a policy changes nothing, or gives the policy to a queue to whose place it applies. -/
theorem WellNamed.offerPolicy_cases (h : t.WellNamed) (n : String) (policy : Policy) :
    t.modify n (·.offerPolicy (n = QueueName.root) policy) = t ∨
      ∃ k settings, t.kindOf? n = some k ∧
        policy.appliesTo (Queue.place (n = QueueName.root) k) = true ∧
        t.modify n (·.offerPolicy (n = QueueName.root) policy) =
          t.modify n (Queue.configure settings policy) := by
  cases hfind : t.find? n with
  | none => exact .inl (h.modify_missing hfind _)
  | some q =>
    rw [← h.modify_found hfind]
    by_cases happlies : policy.appliesTo (Queue.place (n = QueueName.root) q.kind) = true
    · refine .inr ⟨q.kind, q.info.settings, by rw [kindOf?, hfind, Option.map_some], happlies, ?_⟩
      have hconfigured : q.offerPolicy (n = QueueName.root) policy =
          q.configure q.info.settings policy := by
        unfold Queue.offerPolicy Queue.setPolicy
        rw [if_pos happlies]
        cases q <;> rfl
      rw [hconfigured, h.modify_found hfind]
    · left
      have hrefused : q.offerPolicy (n = QueueName.root) policy = id q := by
        unfold Queue.offerPolicy Queue.setPolicy
        rw [if_neg happlies]
        rfl
      rw [hrefused, h.modify_found hfind, modify, Queue.modify_id]

omit [Scalar F] in
/-- Offering a policy comes to an edit, or to none if the policy does not apply. -/
theorem WellNamed.edits_offerPolicy (h : t.WellNamed) (n : String) (policy : Policy) :
    Edits t (t.modify n (·.offerPolicy (n = QueueName.root) policy)) := by
  obtain hsame | ⟨k, settings, hk, happlies, hgiven⟩ := h.offerPolicy_cases n policy
  · rw [hsame]
  · rw [hgiven]
    apply Relation.ReflTransGen.single
    apply Edit.configure
    intro k' hk'
    obtain rfl : k = k' := Option.some.inj (hk.symm.trans hk')
    exact happlies

/-- Operations come to edits. -/
theorem WellNamed.edits_apply (h : t.WellNamed) (op : Operation F) : Edits t (t.apply op) := by
  cases op with
  | locate name create kind => exact (h.located name create kind).edits
  | reload c => exact h.edits_reload c
  | setPolicy queue policy => exact h.edits_offerPolicy queue policy
  | addAttempt queue a => exact .single (t.edit_modify queue (Queue.similar_addAttempt a))
  | removeAttempt queue id => exact .single (t.edit_modify queue (Queue.similar_removeAttempt id))
  | mapAttempts f =>
    exact .single (.similar t _ _ (Queue.similar_mapAttempts f t.root) (Nat.le_refl _))
  | takeSerial => exact .single (.similar t _ _ (.refl _ t.root) (Nat.le_succ _))
  | setFairShare queue share =>
    exact .single (t.edit_modify queue
      (Queue.similar_withInfo ({ · with fairShare := share }) fun _ => rfl))
  | giveFair queue share =>
    exact .single (t.edit_modify queue fun q => q.similar_giveFair share)
  | giveSteady queue share =>
    exact .single (t.edit_modify queue fun q => q.similar_giveSteady share)
  | updateDemand queue => exact .single (t.edit_modify queue fun q => q.similar_updateDemand)
  | assign queue cluster p =>
    exact .single (t.edit_modify queue fun q => q.similar_assign cluster p)
  | preempt queue cluster isOver =>
    exact .single (t.edit_modify queue fun q => q.similar_preempt cluster isOver)

/-- A tree that comes about is sound. -/
theorem Reachable.sound (h : Reachable t) : t.Sound := by
  induction h with
  | start c t hmade => exact sound_ofConfig hmade
  | step t op h ih => exact (ih.wellNamed.edits_apply op).sound ih

/-- A tree that comes about is well named. -/
theorem Reachable.wellNamed (h : Reachable t) : t.WellNamed := h.sound.wellNamed

end QueueTree

end Allotment
