import Allotment.Proofs.Queue.Evolution
import Allotment.Proofs.Queue.Handles
import Allotment.Proofs.Queue.Victim
import Allotment.Proofs.Scheduler.Numbers

/-!
# What operations do to applications

Every operation that asks for no container leaves applications that were there before and have changed
by steps, besides one that was just submitted. An operation that asks for a container changes nothing if
it gets none, and otherwise marks the container with the application that holds it.
-/

namespace Allotment

open scoped List

variable {F : Type}

/-- In a sound tree siblings bear different serial numbers. -/
theorem QueueTree.Sound.nodup_children {t : QueueTree F} (h : t.Sound) {r : Queue F}
    (hr : r ∈ t.root.all) : (r.children.map fun c => c.info.serial).Nodup := by
  cases r with
  | leaf info runnable parked => exact List.nodup_nil
  | parent info children =>
    obtain ⟨hnames, -⟩ := Queue.wellNamed_parent_iff.mp (h.wellNamed.root.of_mem hr)
    change (children.map fun c => c.info.serial).Nodup
    rw [List.nodup_map_iff_inj_on hnames.of_map]
    intro c hc d hd hserial
    have hbare : ∀ e ∈ children, t.bare? e.name = some e.bare := by
      intro e he
      have hmem := Queue.mem_all_of_mem_children hr he
      exact bare?_of_find? (h.wellNamed.root.find?_eq_some_iff.mpr ⟨hmem, rfl⟩)
    have hname := h.serial_injective c.name d.name c.bare d.bare (hbare c hc) (hbare d hd)
      (by rw [Queue.info_bare, Queue.info_bare, hserial])
    exact List.inj_on_of_nodup_map hnames hc hd hname

namespace Scheduler

open Attempt (Stem)
open QueueTree (Calmly)

variable [Scalar F] {s : Scheduler F} {next : ℕ}

/-- In the tree of a scheduler that comes about siblings bear different serial numbers, and so do
applications. -/
theorem Reachable.apart (h : s.Reachable) : s.tree.root.Apart := by
  obtain ⟨reused, hrun⟩ := h.exists_run
  exact ⟨fun r hr => h.tree.sound.nodup_children hr, hrun.listed.nodup_attempts⟩

omit [Scalar F] in
/-- No application in the tree of a scheduler holds two containers of one number. -/
theorem nodup_live_of_numbered {a : Attempt F} (h : Numbered s.nextContainer s.tree.root.holdings)
    (ha : a ∈ s.tree.root.attempts) : (a.live.map Container.id).Nodup := by
  obtain ⟨x, hx, rfl⟩ := Queue.mem_attempts_iff.mp ha
  exact Queue.nodup_live h.nodup hx

/-! ## Operations that ask for no container -/

/-- When the application of a serial number changes by steps, those in the tree stem from what they
were. -/
theorem stem_modifyApp {serial : ℕ} {f : Attempt F → Attempt F}
    (hf : ∀ a ∈ s.tree.root.attempts, a.serial = serial → a.Evolves next (f a)) :
    Stem next s.tree.root.attempts (s.modifyApp serial f).tree.root.attempts := by
  apply Queue.stem_mapAttempts
  intro a ha
  split
  · rename_i hserial
    exact hf a ha hserial
  · exact .refl

/-- The applications of a scheduler that has filled a node once stem from what they were. -/
theorem stem_assignOnce (hs : s.tree.Reachable) (queue : String) (node : Node) :
    Stem s.nextContainer s.tree.root.attempts (s.assignOnce queue node).1.tree.root.attempts := by
  change Stem _ _ (s.offer queue node).scheduler.tree.root.attempts
  unfold offer
  split
  · exact .of_subset (List.Subset.refl _)
  · rename_i q hfind
    obtain ⟨hq, -⟩ := hs.wellNamed.root.find?_eq_some_iff.mp hfind
    change Stem _ _ (s.tree.root.modify queue fun _ => _).attempts
    apply Queue.stem_modify
    intro r _ _ b hb
    obtain ⟨a, ha, hab⟩ := q.stem_assign s.cluster (Nat.le_refl s.nextContainer) b hb
    exact ⟨a, Queue.attempts_subset hq ha, hab⟩

/-- The applications of a scheduler that has filled a node as often as it can stem from what they
were. -/
theorem stem_heartbeat (hs : s.tree.Reachable)
    (hnumbered : Numbered s.nextContainer s.tree.root.holdings) (node : String) :
    Stem s.nextContainer s.tree.root.attempts (s.heartbeat node).1.tree.root.attempts := by
  refine (fill_induction (P := fun s' => s'.tree.Reachable ∧
    Numbered s'.nextContainer s'.tree.root.holdings ∧ s.nextContainer ≤ s'.nextContainer ∧
    Stem s.nextContainer s.tree.root.attempts s'.tree.root.attempts) ?_
    ⟨hs, hnumbered, Nat.le_refl _, .of_subset (List.Subset.refl _)⟩ _ 0 0).2.2.2
  rintro s' n ⟨hs', hnumbered', hle, hstem⟩ _
  obtain ⟨hafter, hnext⟩ := numbered_assignOnce hs' hnumbered' QueueName.root n
  exact ⟨tree_assignOnce hs' QueueName.root n, hafter, hle.trans hnext,
    hstem.trans ((stem_assignOnce hs' QueueName.root n).mono hle)⟩

/-- The applications of a scheduler from which a node was taken away stem from what they were. -/
theorem stem_removeNode (hs : s.tree.Reachable)
    (hnumbered : Numbered s.nextContainer s.tree.root.holdings) (id : String) :
    Stem next s.tree.root.attempts (s.removeNode id).1.tree.root.attempts := by
  unfold removeNode
  split
  · exact .of_subset (List.Subset.refl _)
  · let f : Attempt F → Attempt F := fun a =>
      if s.apps.values.contains a.serial then a.releaseNode id else a
    let taken : Scheduler F := { s.withRoot (s.tree.root.mapAttempts f) with nodes := s.nodes.erase id }
    have htree : taken.tree.Reachable := hs.step _ (.mapAttempts f)
    have htaken : Stem next s.tree.root.attempts taken.tree.root.attempts := by
      apply Queue.stem_mapAttempts
      intro a ha
      simp only [f]
      split
      · exact Attempt.evolves_releaseNode (nodup_live_of_numbered hnumbered ha) id
      · exact .refl
    exact htaken.trans ((calmly_refreshCluster htree).stem htree)

/-- The applications of a scheduler from which one was taken away stem from what they were. -/
theorem stem_removeApp (s : Scheduler F) (id : String) :
    Stem next s.tree.root.attempts (s.removeApp id).1.tree.root.attempts := by
  unfold removeApp
  split
  · exact .of_subset (List.Subset.refl _)
  · rename_i a _
    have hfreed : Stem next s.tree.root.attempts
        (s.modifyApp a.serial fun a => a.releaseAll.1).tree.root.attempts :=
      stem_modifyApp fun b _ _ => .single .releaseAll
    refine hfreed.trans (Queue.stem_modify ?_)
    intro r hr _
    apply Stem.of_subset
    exact List.Subset.trans (Queue.attempts_removeAttempt_subset id r) (Queue.attempts_subset hr)

/-- The applications of a scheduler to which one was submitted are that one, as new, and others that
stem from what they were. -/
theorem stem_submit (hs : s.tree.Reachable) (id queue user : String) (priority : ℕ) :
    ∀ b ∈ (s.submit id queue user priority).1.tree.root.attempts,
      (∃ leaf serial, b = Attempt.new id user leaf priority serial) ∨
        ∃ a ∈ s.tree.root.attempts, a.Evolves next b := by
  have hlocated := Calmly.step s.tree (.locate queue true .leaf) trivial
  have hstem : Stem next _ _ := hlocated.stem hs
  rw [QueueTree.apply] at hstem
  unfold submit
  intro b hb
  split at hb
  · rename_i tree e hlocate
    rw [hlocate] at hstem
    exact .inr (hstem b hb)
  · rename_i tree leaf hlocate
    rw [hlocate] at hstem
    split at hb
    · obtain hb | ⟨r, hr, -, hb⟩ := Queue.mem_attempts_modify hb
      · exact .inr (hstem b hb)
      · obtain rfl | hb := Queue.mem_attempts_addAttempt hb
        · exact .inl ⟨leaf, tree.nextSerial, rfl⟩
        · exact .inr (hstem b (Queue.attempts_subset hr hb))
    · exact .inr (hstem b hb)

/-! ## Operations that ask for a container -/

/-- Whether an operation asks for a container. -/
def Operation.AsksBack : Operation F → Prop
  | .preempt | .preemptIn _ => True
  | _ => False

/-- The container that an operation asks back. -/
def picked? (s : Scheduler F) : Operation F → Option Container
  | .preempt => s.preempt.2
  | .preemptIn queue => (s.preemptIn queue).2
  | _ => none

/-- An operation that asks for no container gets none. -/
theorem picked?_eq_none (s : Scheduler F) {op : Operation F} (hop : ¬ op.AsksBack) :
    s.picked? op = none := by
  cases op with
  | preempt | preemptIn => exact absurd trivial hop
  | _ => rfl

/-- What has become of the applications of a scheduler that asked for a container. -/
inductive Picks (s s' : Scheduler F) : Option Container → Prop where
  | nothing (h : s'.tree.root.attempts ~ s.tree.root.attempts) : Picks s s' none
  | victim (a : Attempt F) (c : Container) (ha : a ∈ s.tree.root.attempts) (hc : a.Victim c)
    (h : s'.tree.root.attempts ~
      s.tree.root.attempts.map fun b => if b.serial = a.serial then b.mark c.id else b) :
    Picks s s' (some c)

variable [Scalar.Comparable F]

/-- Asking for a container marks one if there is one to be marked. -/
theorem Reachable.picks_preempt (h : s.Reachable) : Picks s s.preempt.1 s.preempt.2 := by
  have hasked := h.apart.outcome s.cluster s.tree.root.info.policy.isOver
  unfold preempt
  generalize s.tree.root.preempt s.cluster s.tree.root.info.policy.isOver = outcome at hasked ⊢
  cases hasked with
  | nothing hnone => exact .nothing (.refl _)
  | victim l a c ha hc =>
    refine .victim a c ha.mem_attempts hc ?_
    change ((s.tree.root.mark a.serial c.id).attempts).Perm _
    rw [Queue.mark, Queue.attempts_mapAttempts]

/-- Asking one queue for a container marks one if there is one to be marked. -/
theorem Reachable.picks_preemptIn (h : s.Reachable) (queue : String) :
    Picks s (s.preemptIn queue).1 (s.preemptIn queue).2 := by
  unfold preemptIn
  split
  · exact .nothing (.refl _)
  · rename_i q hfind
    obtain ⟨hq, hname⟩ := h.tree.wellNamed.root.find?_eq_some_iff.mp hfind
    obtain ⟨rest, hbefore, hafter⟩ :=
      h.tree.wellNamed.root.exists_rest Queue.attempts_parent hq
    have hserials := h.apart.attempts
    rw [(hbefore.map Attempt.serial).nodup_iff, List.map_append, List.nodup_append] at hserials
    obtain ⟨hown, -, hother⟩ := hserials
    have hapart : q.Apart :=
      ⟨fun r hr => h.apart.children r (Queue.mem_all_trans hq hr), hown⟩
    have hasked := hapart.outcome s.cluster
      ((s.tree.root.parentOf? queue).getD q.info).policy.isOver
    dsimp only
    generalize q.preempt s.cluster ((s.tree.root.parentOf? queue).getD q.info).policy.isOver =
      outcome at hasked ⊢
    rw [hname] at hafter
    cases hasked with
    | nothing hnone => exact .nothing ((hafter fun _ => q).trans hbefore.symm)
    | victim l a c ha hc =>
      refine .victim a c (Queue.attempts_subset hq ha.mem_attempts) hc ?_
      -- No application outside the queue bears the serial number.
      have hrest : rest.map (fun b => if b.serial = a.serial then b.mark c.id else b) = rest := by
        rw [List.map_congr_left (g := id) ?_, List.map_id]
        intro b hb
        have hne := hother _ (List.mem_map_of_mem ha.mem_attempts) _ (List.mem_map_of_mem hb)
        rw [if_neg (Ne.symm hne), id]
      refine (hafter fun _ => q.mark a.serial c.id).trans ?_
      rw [Queue.mark, Queue.attempts_mapAttempts]
      refine List.Perm.trans ?_ (hbefore.map _).symm
      rw [List.map_append, hrest]

/-! ## All operations -/

omit [Scalar.Comparable F] in
/-- The applications of a scheduler that was asked for anything but a container stem from what they
were, besides one that was submitted. -/
theorem Reachable.stem_apply (h : s.Reachable) {op : Operation F} (hop : ¬ op.AsksBack) :
    ∀ b ∈ (s.apply op).tree.root.attempts,
      (∃ id user leaf priority serial, b = Attempt.new id user leaf priority serial) ∨
        ∃ a ∈ s.tree.root.attempts, a.Evolves s.nextContainer b := by
  have hs := h.tree
  have hnumbered := h.numbered
  cases op with
  | preempt | preemptIn => exact absurd trivial hop
  | submit id queue user priority =>
    rw [apply]
    intro b hb
    refine (stem_submit hs id queue user priority b hb).imp_left ?_
    rintro ⟨leaf, serial, rfl⟩
    exact ⟨id, user, leaf, priority, serial, rfl⟩
  | addNode id total =>
    let added : Scheduler F := { s with nodes := s.nodes.insert id (Node.new id total) }
    exact fun b hb => .inr ((calmly_refreshCluster (s := added) hs).stem hs b hb)
  | removeNode id => exact fun b hb => .inr (stem_removeNode hs hnumbered id b hb)
  | removeApp id => exact fun b hb => .inr (stem_removeApp s id b hb)
  | request id r =>
    rw [apply, request]
    split
    · exact fun b hb => .inr ⟨b, hb, .refl⟩
    · exact fun b hb => .inr (stem_modifyApp (fun a _ _ => .single (.ask r)) b hb)
  | release id container =>
    rw [apply, release]
    split
    · exact fun b hb => .inr ⟨b, hb, .refl⟩
    · rename_i a happ
      split
      · exact fun b hb => .inr ⟨b, hb, .refl⟩
      · rename_i b c hrelease
        intro b' hb'
        rw [modifyApp, withRoot, Queue.attempts_mapAttempts] at hb'
        obtain ⟨a', ha', rfl⟩ := List.mem_map.mp hb'
        right
        split
        · obtain ⟨-, x, hx, rfl⟩ := exists_seat happ
          have ha : x.attempt ∈ s.tree.root.attempts := Queue.mem_attempts_iff.mpr ⟨x, hx, rfl⟩
          refine ⟨x.attempt, ha, ?_⟩
          have hstep : Attempt.Step s.nextContainer _ _ :=
            .release container (nodup_live_of_numbered hnumbered ha)
          rw [hrelease] at hstep
          exact .single hstep
        · exact ⟨a', ha', .refl⟩
  | heartbeat node => exact fun b hb => .inr (stem_heartbeat hs hnumbered node b hb)
  | assign queue node =>
    have hstem := assign_induction
      (P := fun s' => Stem s.nextContainer s.tree.root.attempts s'.tree.root.attempts)
      (fun n (_ : s.nodes.get? node = some n) => stem_assignOnce hs queue n)
      (.of_subset (List.Subset.refl _))
    exact fun b hb => .inr (hstem b hb)
  | update | start | stop | reload | locate | setPolicy | updateDemand | setFairShare
  | recompute =>
    refine fun b hb => .inr ((calmly_apply hs ?_).stem hs b hb)
    trivial

end Scheduler

end Allotment
