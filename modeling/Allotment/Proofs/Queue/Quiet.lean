import Allotment.Proofs.Queue.Roster
import Allotment.Proofs.Queue.Settled

/-!
# Operations that move nothing

All operations on a tree but four leave every application where it is, with what it holds: queues may
be created, removed and configured, shares given and containers asked back. A tree that becomes
another by such operations has the same posts. Unless containers are asked back, nothing at all of an
application changes but its demand and its fair share.
-/

namespace Allotment.QueueTree

variable {F : Type} [Scalar F]

/-- Whether an operation leaves applications where they are, with what they hold. -/
def Operation.IsQuiet : Operation F → Prop
  | .addAttempt _ _ | .removeAttempt _ _ | .mapAttempts _ | .assign _ _ _ => False
  | .locate _ _ _ | .reload _ | .setPolicy _ _ | .takeSerial | .setFairShare _ _ | .giveFair _ _
  | .giveSteady _ _ | .updateDemand _ | .preempt _ _ _ => True

/-- Whether an operation leaves applications as they are, but for demands and fair shares. -/
def Operation.IsCalm : Operation F → Prop
  | .addAttempt _ _ | .removeAttempt _ _ | .mapAttempts _ | .assign _ _ _ | .preempt _ _ _ => False
  | .locate _ _ _ | .reload _ | .setPolicy _ _ | .takeSerial | .setFairShare _ _ | .giveFair _ _
  | .giveSteady _ _ | .updateDemand _ => True

/-- Whether a tree becomes another by operations that move nothing. -/
def Quietly : QueueTree F → QueueTree F → Prop :=
  Relation.ReflTransGen fun t t' => ∃ op : Operation F, op.IsQuiet ∧ t.apply op = t'

/-- Whether a tree becomes another by operations that leave applications as they are. -/
def Calmly : QueueTree F → QueueTree F → Prop :=
  Relation.ReflTransGen fun t t' => ∃ op : Operation F, op.IsCalm ∧ t.apply op = t'

variable {t t' t'' : QueueTree F}

section View

variable {β : Type} {view : Seat F → β}

omit [Scalar F] in
/-- A change of the queues of a name after which their seats look the same leaves those of the tree
looking the same. -/
theorem map_seats_modify (t : QueueTree F) (n : String) {f : Queue F → Queue F}
    (hf : ∀ q, (f q).seats.map view = q.seats.map view) :
    ((t.modify n f).root.seats.map view).Perm (t.root.seats.map view) := by
  apply Queue.gather_modify (m := fun q : Queue F => q.seats.map view)
  · intro info children
    rw [Queue.seats_parent, List.map_flatMap]
  · intro r _ _
    rw [hf r]

omit [Scalar F] in
/-- A reload keeps the seats, whether or not it is refused. -/
theorem WellNamed.seats_reload (h : t.WellNamed) (c : QueueConfig F) :
    (t.reload c).1.root.seats.Perm t.root.seats := by
  obtain ⟨policy, planned, steps, hd, hreload, -⟩ | ⟨e, hreload, -⟩ := h.reload_cases c
  · rw [hreload]
    exact (hd.leaves h).2.seats
  · rw [hreload]

/-- An operation that leaves applications as they are shows in no steady view of the seats. -/
theorem WellNamed.map_seats_apply (h : t.WellNamed) {op : Operation F} (hop : op.IsCalm)
    (hview : Queue.Steady view) :
    ((t.apply op).root.seats.map view).Perm (t.root.seats.map view) := by
  cases op with
  | addAttempt | removeAttempt | mapAttempts | assign | preempt => exact hop.elim
  | locate name create kind =>
    rw [apply]
    exact (h.located name create kind).seats.map view
  | reload c => exact (h.seats_reload c).map view
  | setPolicy queue policy =>
    have hoffered : ∀ q : Queue F,
        (q.offerPolicy (queue = QueueName.root) policy).seats = q.seats := by
      intro q
      unfold Queue.offerPolicy Queue.setPolicy
      split
      · rename_i changed hset
        split at hset
        · rw [← Except.ok.inj hset]
          apply Queue.seats_withInfo <;> exact fun _ => rfl
        · contradiction
      · rfl
    exact t.map_seats_modify queue fun q => by rw [hoffered]
  | takeSerial => exact .refl _
  | setFairShare queue share =>
    apply t.map_seats_modify queue
    intro q
    rw [Queue.seats_withInfo]
    · exact fun _ => rfl
    · exact fun _ => rfl
  | giveFair queue share =>
    exact t.map_seats_modify queue fun q => Queue.map_seats_giveFair hview q share
  | giveSteady queue share =>
    exact t.map_seats_modify queue fun q => Queue.map_seats_giveSteady q share
  | updateDemand queue => exact t.map_seats_modify queue (Queue.map_seats_updateDemand hview)

end View

/-- An operation that moves nothing keeps the posts. -/
theorem WellNamed.posts_apply (h : t.WellNamed) {op : Operation F} (hop : op.IsQuiet) :
    (t.apply op).root.posts.Perm t.root.posts := by
  cases op with
  | preempt queue cluster isOver =>
    exact t.map_seats_modify queue fun q => q.posts_preempt cluster isOver
  | addAttempt | removeAttempt | mapAttempts | assign => exact hop.elim
  | _ => exact h.map_seats_apply trivial fun _ _ _ => rfl

namespace Calmly

/-- One operation that leaves applications as they are. -/
theorem step (t : QueueTree F) (op : Operation F) (hop : op.IsCalm) : Calmly t (t.apply op) :=
  .single ⟨op, hop, rfl⟩

/-- Operations that leave applications as they are, and more of them. -/
theorem trans (hc : Calmly t t') (hc' : Calmly t' t'') : Calmly t t'' :=
  Relation.ReflTransGen.trans hc hc'

/-- What leaves applications as they are moves nothing. -/
theorem quietly (hc : Calmly t t') : Quietly t t' := by
  refine Relation.ReflTransGen.mono ?_ _ _ hc
  rintro t t' ⟨op, hop, happly⟩
  refine ⟨op, ?_, happly⟩
  cases op <;> trivial

end Calmly

namespace Quietly

/-- One operation that moves nothing. -/
theorem step (t : QueueTree F) (op : Operation F) (hop : op.IsQuiet) : Quietly t (t.apply op) :=
  .single ⟨op, hop, rfl⟩

/-- A tree that comes about goes on coming about. -/
theorem reachable (hq : Quietly t t') (h : t.Reachable) : t'.Reachable := by
  induction hq with
  | refl => exact h
  | tail _ hlast ih =>
    obtain ⟨op, -, rfl⟩ := hlast
    exact .step _ op ih

/-- Applications stay where they are, with what they hold. -/
theorem posts (hq : Quietly t t') (h : t.Reachable) : t'.root.posts.Perm t.root.posts := by
  induction hq with
  | refl => exact .refl _
  | tail hbefore hlast ih =>
    obtain ⟨op, hop, rfl⟩ := hlast
    have hreachable : Quietly _ _ := hbefore
    exact ((hreachable.reachable h).wellNamed.posts_apply hop).trans ih

/-- Serial numbers are given out in ascending order. -/
theorem nextSerial_le (hq : Quietly t t') (h : t.Reachable) : t.nextSerial ≤ t'.nextSerial := by
  induction hq with
  | refl => exact Nat.le_refl _
  | tail hbefore hlast ih =>
    obtain ⟨op, -, rfl⟩ := hlast
    have hreachable : Quietly _ _ := hbefore
    exact ih.trans ((hreachable.reachable h).wellNamed.edits_apply op).nextSerial_le

end Quietly

/-- No steady view of the seats shows what leaves applications as they are. -/
theorem Calmly.map_seats {β : Type} {view : Seat F → β} (hc : Calmly t t') (h : t.Reachable)
    (hview : Queue.Steady view) : (t'.root.seats.map view).Perm (t.root.seats.map view) := by
  induction hc with
  | refl => exact .refl _
  | tail hbefore hlast ih =>
    obtain ⟨op, hop, rfl⟩ := hlast
    have hcalm : Calmly _ _ := hbefore
    exact ((hcalm.quietly.reachable h).wellNamed.map_seats_apply hop hview).trans ih

end Allotment.QueueTree
