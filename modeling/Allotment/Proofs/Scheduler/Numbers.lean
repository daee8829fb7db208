import Allotment.Proofs.Scheduler.Accounts
import Allotment.Proofs.Scheduler.Membership

/-!
# Container numbers

Whatever a scheduler is asked to do, the containers that are held bear different numbers, all below the
next one. A number that was given out is not given out again.
-/

namespace Allotment.Scheduler

variable {F : Type} [Scalar F] {s s' : Scheduler F}

/-! ## What operations do to numbers -/

section Numbered

variable (h : Numbered s.nextContainer s.tree.root.holdings)

include h

omit [Scalar F] in
/-- What leaves the books as they are leaves containers numbered. -/
theorem numbered_of_still (hstill : Still s s') :
    Numbered s'.nextContainer s'.tree.root.holdings ∧ s.nextContainer ≤ s'.nextContainer := by
  rw [hstill.nextContainer]
  exact ⟨h.of_subperm (hstill.posts.flatMap_right _).subperm, Nat.le_refl _⟩

omit [Scalar F] in
/-- An application is admitted without containers. -/
theorem numbered_of_admits {id : String} (ha : Admits s s' id) :
    Numbered s'.nextContainer s'.tree.root.holdings := by
  obtain ⟨leaf, hposts⟩ := ha.posts
  rw [ha.nextContainer]
  exact h.of_subperm (hposts.flatMap_right Post.holdings).subperm

omit [Scalar F] in
/-- An application that is discharged only gives containers back. -/
theorem numbered_of_discharges {id : String} {a : Attempt F} (hd : Discharges s s' id a) :
    Numbered s'.nextContainer s'.tree.root.holdings := by
  obtain ⟨x, -, -, -, hholdings⟩ := hd.posts
  rw [hd.nextContainer]
  apply h.of_subperm
  exact (List.sublist_append_right x.holdings _).subperm.trans
    (hholdings.symm.subperm.trans List.filter_sublist.subperm)

omit [Scalar F] in
/-- The containers that are left after one was given back stay numbered. -/
theorem numbered_of_releases {y : Member × Container} (hr : Releases s s' y) :
    Numbered s'.nextContainer s'.tree.root.holdings := by
  rw [hr.nextContainer, hr.holdings h.nodup]
  exact h.of_subperm List.filter_sublist.subperm

omit [Scalar F] in
/-- The containers that are left after a node was taken away stay numbered. -/
theorem numbered_of_withdraws {node : String} (hw : Withdraws s s' node) :
    Numbered s'.nextContainer s'.tree.root.holdings := by
  rw [hw.nextContainer]
  exact h.of_subperm ((hw.holdings h.nodup).subperm.trans List.filter_sublist.subperm)

omit [Scalar F] in
/-- Containers that are placed bear the next numbers. -/
theorem numbered_of_fills {node : Node} (hf : Fills s s' node) :
    Numbered s'.nextContainer s'.tree.root.holdings ∧ s.nextContainer ≤ s'.nextContainer := by
  obtain ⟨p', given, hplaces, hholdings, -, hnext⟩ := hf.placed
  rw [hnext]
  constructor
  · exact (h.place hplaces).of_subperm hholdings.subperm
  · rw [hplaces.next]
    exact Nat.le_add_right _ _

end Numbered

/-! ## Along runs -/

/-- Offering a node to a queue keeps containers numbered. -/
theorem numbered_assignOnce (hs : s.tree.Reachable)
    (h : Numbered s.nextContainer s.tree.root.holdings) (queue : String) (node : Node) :
    Numbered (s.assignOnce queue node).1.nextContainer
      (s.assignOnce queue node).1.tree.root.holdings ∧
      s.nextContainer ≤ (s.assignOnce queue node).1.nextContainer := by
  obtain hsame | hfills := assignOnce_cases hs queue node
  · rw [hsame]
    exact ⟨h, Nat.le_refl _⟩
  · exact numbered_of_fills h hfills

/-- Every operation keeps containers numbered, and none gives out a number once more. -/
theorem numbered_apply {reused : List String} (hs : s.tree.Reachable) (hlisted : Listed s reused)
    (h : Numbered s.nextContainer s.tree.root.holdings) (op : Operation F) :
    Numbered (s.apply op).nextContainer (s.apply op).tree.root.holdings ∧
      s.nextContainer ≤ (s.apply op).nextContainer := by
  cases op with
  | addNode id total =>
    let added : Scheduler F := { s with nodes := s.nodes.insert id (Node.new id total) }
    have hposts := (quietly_refreshCluster (s := added) hs).posts hs
    exact ⟨h.of_subperm (hposts.flatMap_right Post.holdings).subperm, Nat.le_refl _⟩
  | removeNode id =>
    rw [apply]
    obtain hsame | hwithdraws := removeNode_cases hs id
    · rw [hsame]
      exact ⟨h, Nat.le_refl _⟩
    · exact ⟨numbered_of_withdraws h hwithdraws, hwithdraws.nextContainer.ge⟩
  | submit id queue user priority =>
    rw [apply]
    obtain ⟨e, -, hstill⟩ | ⟨a, -, hadmits⟩ := submit_cases hs id queue user priority
    · exact numbered_of_still h hstill
    · exact ⟨numbered_of_admits h hadmits, hadmits.nextContainer.ge⟩
  | removeApp id =>
    rw [apply]
    obtain ⟨-, hsame⟩ | ⟨a, -, -, hdischarges⟩ :=
      removeApp_cases hs id fun a ha => hlisted.exists_member ha
    · rw [hsame]
      exact ⟨h, Nat.le_refl _⟩
    · exact ⟨numbered_of_discharges h hdischarges, hdischarges.nextContainer.ge⟩
  | request id r => exact numbered_of_still h (still_request s id r)
  | release id container =>
    rw [apply]
    obtain hsame | ⟨y, hreleases⟩ := release_cases hlisted.serials id container
    · rw [hsame]
      exact ⟨h, Nat.le_refl _⟩
    · exact ⟨numbered_of_releases h hreleases, hreleases.nextContainer.ge⟩
  | heartbeat node =>
    refine (fill_induction (P := fun s' => s'.tree.Reachable ∧
      Numbered s'.nextContainer s'.tree.root.holdings ∧ s.nextContainer ≤ s'.nextContainer) ?_
      ⟨hs, h, Nat.le_refl _⟩ _ 0 0).2
    intro s' n h' _
    obtain ⟨hs', h', hle⟩ := h'
    obtain ⟨hnumbered, hnext⟩ := numbered_assignOnce hs' h' QueueName.root n
    exact ⟨tree_assignOnce hs' QueueName.root n, hnumbered, hle.trans hnext⟩
  | assign queue node =>
    exact assign_induction (P := fun s' => Numbered s'.nextContainer s'.tree.root.holdings ∧
      s.nextContainer ≤ s'.nextContainer) (fun n _ => numbered_assignOnce hs h queue n)
      ⟨h, Nat.le_refl _⟩
  | update | start | stop | preempt | reload | locate | setPolicy | updateDemand | setFairShare
  | recompute | preemptIn =>
    refine numbered_of_still h (still_apply hs ?_)
    trivial

omit [Scalar F] in
/-- A scheduler starts without containers. -/
theorem holdings_of_ofConfig {c : SchedulerConfig F} (hmade : ofConfig c = .ok s) :
    s.tree.root.holdings = [] := by
  obtain ⟨htree, -⟩ := of_ofConfig hmade
  rw [Queue.holdings, Queue.posts, QueueTree.seats_ofConfig htree, List.map_nil, List.flatMap_nil]

omit [Scalar F] in
/-- A scheduler starts without applications. -/
theorem attempts_of_ofConfig {c : SchedulerConfig F} (hmade : ofConfig c = .ok s) :
    s.tree.root.attempts = [] := by
  obtain ⟨htree, -⟩ := of_ofConfig hmade
  rw [← Queue.map_attempt_seats, QueueTree.seats_ofConfig htree, List.map_nil]

/-- The containers that are held bear different numbers, all below the next one. -/
theorem Reachable.numbered (h : s.Reachable) : Numbered s.nextContainer s.tree.root.holdings := by
  induction h with
  | start c s hmade =>
    rw [holdings_of_ofConfig hmade]
    exact ⟨by simp, by simp, by simp⟩
  | step s op h ih =>
    obtain ⟨reused, hrun⟩ := h.exists_run
    exact (numbered_apply h.tree hrun.listed ih op).1

end Allotment.Scheduler
