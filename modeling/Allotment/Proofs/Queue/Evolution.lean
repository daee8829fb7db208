import Allotment.Proofs.Attempt
import Allotment.Proofs.Policy
import Allotment.Proofs.Queue.Quiet
import Allotment.Proofs.Queue.Serving

/-!
# How applications change

An application that is in a tree after some function was applied to the tree was there before, and has
changed by steps that applications take: it was given a demand or a share, asked for something, was
given a container or gave some back. So what every such step preserves need be shown for these few
steps only. Being asked for a container is not among them.
-/

namespace Allotment

variable {F : Type} [Scalar F]

namespace Attempt

/-- The steps of an application, when no container number below a given one is given out any more. -/
inductive Step (next : ℕ) (a : Attempt F) : Attempt F → Prop where
  | outlook (demand fairShare : Resource) :
    Step next a { a with demand := demand, fairShare := fairShare }
  | ask (r : Request) : Step next a (a.ask r)
  | serve (p : Placement F) (hnext : next ≤ p.nextContainer) : Step next a (a.assign p).subject
  | release (i : ℕ) (hids : (a.live.map Container.id).Nodup) : Step next a (a.release i).1
  | releaseAll : Step next a a.releaseAll.1

/-- Whether an application becomes another by steps. -/
def Evolves (next : ℕ) : Attempt F → Attempt F → Prop := Relation.ReflTransGen (Step next)

variable {next next' : ℕ} {a b : Attempt F}

/-- Steps that give out no number below a larger one give out none below a smaller one. -/
theorem Evolves.mono (hle : next ≤ next') (h : Evolves next' a b) : Evolves next a b := by
  refine Relation.ReflTransGen.mono ?_ _ _ h
  intro a b hstep
  cases hstep with
  | outlook demand fairShare => exact .outlook demand fairShare
  | ask r => exact .ask r
  | serve p hnext => exact .serve p (hle.trans hnext)
  | release i hids => exact .release i hids
  | releaseAll => exact .releaseAll

/-- Giving back all containers on a node is giving them back one after another. -/
theorem evolves_releaseNode (h : (a.live.map Container.id).Nodup) (node : String) :
    Evolves next a (a.releaseNode node) := by
  unfold releaseNode
  generalize (a.live.filter fun c => c.node = node) = cs
  induction cs generalizing a with
  | nil => exact .refl
  | cons c rest ih =>
    have hkept : ((a.release c.id).1.live.map Container.id).Nodup := by
      rw [live_release h]
      exact h.sublist (List.filter_sublist.map _)
    exact .head (.release c.id h) (ih hkept)

/-- Whether all applications of a list stem from applications of another by steps. -/
def Stem (next : ℕ) (before after : List (Attempt F)) : Prop :=
  ∀ b ∈ after, ∃ a ∈ before, Evolves next a b

namespace Stem

variable {as as' as'' : List (Attempt F)}

/-- Applications stem from themselves. -/
theorem of_subset (h : as' ⊆ as) : Stem next as as' := fun b hb => ⟨b, h hb, .refl⟩

/-- Applications stem from whatever those stem from that they stem from. -/
theorem trans (h : Stem next as as') (h' : Stem next as' as'') : Stem next as as'' := by
  intro c hc
  obtain ⟨b, hb, hbc⟩ := h' c hc
  obtain ⟨a, ha, hab⟩ := h b hb
  exact ⟨a, ha, Relation.ReflTransGen.trans hab hbc⟩

/-- Steps that give out no number below a larger one give out none below a smaller one. -/
theorem mono (hle : next ≤ next') (h : Stem next' as as') : Stem next as as' := by
  intro b hb
  obtain ⟨a, ha, hab⟩ := h b hb
  exact ⟨a, ha, hab.mono hle⟩

end Stem

end Attempt

open Attempt (Stem)

namespace Queue

variable {next : ℕ}

omit [Scalar F] in
/-- The applications of a queue in a tree are in the tree. -/
theorem attempts_subset {q r : Queue F} (hr : r ∈ q.all) : r.attempts ⊆ q.attempts := by
  intro a ha
  obtain ⟨s, hs, ha⟩ := List.mem_flatMap.mp ha
  exact List.mem_flatMap.mpr ⟨s, mem_all_trans hr hs, ha⟩

omit [Scalar F] in
/-- The applications of a tree in which the queues of a name were changed are those of the changed
queues and others that were there before. -/
theorem mem_attempts_modify {n : String} {f : Queue F → Queue F} {q : Queue F} {a : Attempt F}
    (h : a ∈ (q.modify n f).attempts) :
    a ∈ q.attempts ∨ ∃ r ∈ q.all, r.name = n ∧ a ∈ (f r).attempts := by
  induction q using Queue.induction with
  | leaf info runnable parked =>
    rw [modify_leaf] at h
    split at h
    · rename_i hname
      exact .inr ⟨_, mem_all_self _, hname, h⟩
    · exact .inl h
  | parent info children ih =>
    rw [modify_parent] at h
    split at h
    · rename_i hname
      exact .inr ⟨_, mem_all_self _, hname, h⟩
    · rw [attempts_parent, List.flatMap_map] at h
      obtain ⟨c, hc, ha⟩ := List.mem_flatMap.mp h
      obtain ha | ⟨r, hr, hname, ha⟩ := ih c hc ha
      · rw [attempts_parent]
        exact .inl (List.mem_flatMap.mpr ⟨c, hc, ha⟩)
      · exact .inr ⟨r, mem_all_of_child hc hr, hname, ha⟩

/-- When queues of a name change so that their applications stem from what they were, those of the tree
do. -/
theorem stem_modify {n : String} {f : Queue F → Queue F} {q : Queue F}
    (hf : ∀ r ∈ q.all, r.name = n → Stem next q.attempts (f r).attempts) :
    Stem next q.attempts (q.modify n f).attempts := by
  intro b hb
  obtain hb | ⟨r, hr, hname, hb⟩ := mem_attempts_modify hb
  · exact ⟨b, hb, .refl⟩
  · exact hf r hr hname b hb

omit [Scalar F] in
/-- Changing every application changes those in the tree. -/
theorem attempts_mapAttempts (f : Attempt F → Attempt F) (q : Queue F) :
    (q.mapAttempts f).attempts = q.attempts.map f := by
  rw [← map_attempt_seats, ← map_attempt_seats, seats_mapAttempts, List.map_map, List.map_map]
  rfl

/-- When every application changes by steps, those in the tree stem from what they were. -/
theorem stem_mapAttempts {f : Attempt F → Attempt F} {q : Queue F}
    (hf : ∀ a ∈ q.attempts, a.Evolves next (f a)) :
    Stem next q.attempts (q.mapAttempts f).attempts := by
  rw [attempts_mapAttempts]
  intro b hb
  obtain ⟨a, ha, rfl⟩ := List.mem_map.mp hb
  exact ⟨a, ha, hf a ha⟩

omit [Scalar F] in
/-- The applications of a leaf with one more are that one and those that were there. -/
theorem mem_attempts_addAttempt {a b : Attempt F} {q : Queue F} (h : b ∈ (q.addAttempt a).attempts) :
    b = a ∨ b ∈ q.attempts := by
  cases q with
  | parent info children => exact .inr h
  | leaf info runnable parked =>
    rw [addAttempt] at h
    split at h <;>
      simp only [attempts_leaf, List.mem_append, List.mem_singleton] at h ⊢ <;> tauto

omit [Scalar F] in
/-- The applications of a leaf with one less were there before. -/
theorem attempts_removeAttempt_subset (id : String) (q : Queue F) :
    (q.removeAttempt id).attempts ⊆ q.attempts := by
  cases q with
  | parent info children => exact fun _ h => h
  | leaf info runnable parked =>
    have hpromoted : ∀ as bs : List (Attempt F),
        (promoteParked (leaf info as bs)).attempts = as ++ bs := by
      intro as bs
      rw [← map_attempt_seats, seats_promoteParked, map_attempt_seats, attempts_leaf]
    rw [removeAttempt]
    split
    · rw [hpromoted, attempts_leaf]
      exact (List.eraseP_sublist.append_right parked).subset
    · rw [hpromoted, attempts_leaf]
      exact (List.eraseP_sublist.append_left runnable).subset

omit [Scalar F] in
/-- Of those who are asked to serve a node, each stays as it is or has served it, never with a container
number below those that were left at the beginning. -/
theorem mem_serveFirst {α : Type} {entries : List (α × (Placement F → Served F α))}
    (hnext : ∀ e ∈ entries, ∀ p, p.nextContainer ≤ (e.2 p).placement.nextContainer)
    {p : Placement F} {x : α} (hx : x ∈ (serveFirst entries p).subject) :
    ∃ e ∈ entries, x = e.1 ∨ ∃ p', p.nextContainer ≤ p'.nextContainer ∧ x = (e.2 p').subject := by
  induction entries generalizing p with
  | nil => simp [serveFirst] at hx
  | cons e rest ih =>
    have hrest := fun d hd => hnext d (List.mem_cons_of_mem e hd)
    rw [serveFirst] at hx
    split at hx
    · obtain rfl | hx := List.mem_cons.mp hx
      · exact ⟨e, List.mem_cons_self, .inr ⟨p, Nat.le_refl _, rfl⟩⟩
      · obtain ⟨d, hd, hx⟩ := ih hrest hx
        refine ⟨d, List.mem_cons_of_mem e hd, hx.imp_right ?_⟩
        rintro ⟨p', hle, rfl⟩
        exact ⟨p', (hnext e List.mem_cons_self p).trans hle, rfl⟩
    · obtain rfl | hx := List.mem_cons.mp hx
      · exact ⟨e, List.mem_cons_self, .inr ⟨p, Nat.le_refl _, rfl⟩⟩
      · obtain ⟨d, hd, rfl⟩ := List.mem_map.mp hx
        exact ⟨d, List.mem_cons_of_mem e hd, .inl rfl⟩

omit [Scalar F] in
/-- Serving a node gives out numbers in ascending order. -/
theorem next_le_of_serves {α : Type} {posts : α → List Post} {x : α} {p : Placement F}
    {s : Served F α} (h : Serves posts x p s) : p.nextContainer ≤ s.placement.nextContainer := by
  obtain ⟨given, hplaces, -⟩ := h
  rw [hplaces.next]
  exact Nat.le_add_right _ _

/-- The applications of a queue that was offered a node stem from what they were. -/
theorem stem_assign (cluster : Resource) (q : Queue F) {p : Placement F}
    (hnext : next ≤ p.nextContainer) :
    Stem next q.attempts (q.assign cluster p).subject.attempts := by
  induction q using Queue.induction generalizing p with
  | leaf info runnable parked =>
    rw [assign, fold_leaf]
    dsimp only
    split
    · intro b hb
      rw [attempts_leaf, List.mem_append] at hb
      rw [attempts_leaf]
      obtain hb | hb := hb
      · obtain ⟨e, he, hb⟩ := mem_serveFirst (by
          intro e he p
          obtain ⟨a, -, rfl⟩ := List.mem_map.mp he
          exact next_le_of_serves (a.serves_assign info.name p)) hb
        obtain ⟨a, ha, rfl⟩ := List.mem_map.mp he
        have ha := List.mem_append_left parked
          ((info.policy.sort_perm cluster Attempt.standing runnable).mem_iff.mp ha)
        obtain rfl | ⟨p', hle, rfl⟩ := hb
        · exact ⟨_, ha, .refl⟩
        · exact ⟨a, ha, .single (.serve p' (hnext.trans hle))⟩
      · exact ⟨b, List.mem_append_right runnable hb, .refl⟩
    · exact .of_subset (List.Subset.refl _)
  | parent info children ih =>
    have hranked := info.policy.sort_perm cluster (fun e => e.1.standing)
      (children.map fun c => (c, c.assign cluster))
    rw [assign_parent]
    split
    · intro b hb
      rw [attempts_parent] at hb
      obtain ⟨d, hd, hb⟩ := List.mem_flatMap.mp hb
      obtain ⟨e, he, hd⟩ := mem_serveFirst (by
        intro e he p
        obtain ⟨c, -, rfl⟩ := List.mem_map.mp (hranked.mem_iff.mp he)
        exact next_le_of_serves (c.serves_assign cluster p)) hd
      obtain ⟨c, hc, rfl⟩ := List.mem_map.mp (hranked.mem_iff.mp he)
      have hchild : c.attempts ⊆ (parent info children).attempts := by
        rw [attempts_parent]
        exact fun a ha => List.mem_flatMap.mpr ⟨c, hc, ha⟩
      obtain rfl | ⟨p', hle, rfl⟩ := hd
      · exact ⟨b, hchild hb, .refl⟩
      · obtain ⟨a, ha, hab⟩ := ih c hc (hnext.trans hle) b hb
        exact ⟨a, hchild ha, hab⟩
    · exact .of_subset (List.Subset.refl _)

end Queue

/-- What leaves applications as they are gives them demands and shares at most. -/
theorem QueueTree.Calmly.stem {t t' : QueueTree F} {next : ℕ} (hc : Calmly t t') (h : t.Reachable) :
    Stem next t.root.attempts t'.root.attempts := by
  let bare : Seat F → Attempt F := fun x => { x.attempt with demand := 0, fairShare := 0 }
  have hsteady : Queue.Steady bare := fun _ _ _ => rfl
  have hperm := hc.map_seats h hsteady
  intro b hb
  obtain ⟨y, hy, rfl⟩ := Queue.mem_attempts_iff.mp hb
  obtain ⟨x, hx, hsame⟩ := List.mem_map.mp (hperm.mem_iff.mp (List.mem_map_of_mem hy))
  have hstep : y.attempt =
      { x.attempt with demand := y.attempt.demand, fairShare := y.attempt.fairShare } := by
    have hback := congrArg (fun a : Attempt F =>
      { a with demand := y.attempt.demand, fairShare := y.attempt.fairShare }) hsame
    exact hback.symm
  refine ⟨x.attempt, Queue.mem_attempts_iff.mpr ⟨x, hx, rfl⟩, ?_⟩
  rw [hstep]
  exact .single (.outlook _ _)

end Allotment
