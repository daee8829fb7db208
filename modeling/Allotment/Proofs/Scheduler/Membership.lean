import Allotment.Proofs.Scheduler.Books

/-!
# The index and the leaves

Along every run of the scheduler an indexed application sits in exactly one leaf, the one its queue
names. The leaves may hold applications besides: each submission that is accepted under an id that
the index has at the time leaves one application of that id behind for good, because a removal takes
one application of the id out of the leaf and the id out of the index. `Run` keeps the list of these
ids.
-/

namespace Allotment.Scheduler

variable {F : Type} [Scalar F] {s s' : Scheduler F} {reused : List String}

/-- The id of a submission, if that is accepted although the index has the id. -/
def resubmitted (s : Scheduler F) (id queue user : String) (priority : ℕ) : List String :=
  if s.apps.contains id && (s.submit id queue user priority).2.isOk then [id] else []

/-- The id that an operation submits once more. -/
def reuses (s : Scheduler F) : Operation F → List String
  | .submit id queue user priority => s.resubmitted id queue user priority
  | _ => []

/-- Whether a scheduler comes about from a configuration by operations, with the ids of the
submissions that were accepted although the index had the id. -/
inductive Run : Scheduler F → List String → Prop where
  | start (c : SchedulerConfig F) (s : Scheduler F) (hmade : ofConfig c = .ok s) : Run s []
  | step (s : Scheduler F) (reused : List String) (op : Operation F) (h : Run s reused) :
    Run (s.apply op) (s.reuses op ++ reused)

/-- A scheduler with a run comes about. -/
theorem Run.reachable (h : Run s reused) : s.Reachable := by
  induction h with
  | start c s hmade => exact .start c s hmade
  | step s reused op h ih => exact .step s op ih

/-- A scheduler that comes about has a run. -/
theorem Reachable.exists_run (h : s.Reachable) : ∃ reused, Run s reused := by
  induction h with
  | start c s hmade => exact ⟨[], .start c s hmade⟩
  | step s op h ih =>
    obtain ⟨reused, hrun⟩ := ih
    exact ⟨_, .step s reused op hrun⟩

/-- Whether the index goes with the members of the leaves: every member is in the leaf that its queue
names, and of every id there is one member for the index and one for each time the id was reused. -/
structure Listed (s : Scheduler F) (reused : List String) : Prop where
  sited : ∀ m ∈ s.tree.root.members, m.leaf = m.queue
  serial_lt : ∀ m ∈ s.tree.root.members, m.serial < s.tree.nextSerial
  serials : (s.tree.root.members.map Member.serial).Nodup
  found : ∀ id serial, s.apps.get? id = some serial →
    ∃ m ∈ s.tree.root.members, m.id = id ∧ m.serial = serial
  count : ∀ id, s.tree.root.members.countP (fun m => m.id = id) =
    (if s.apps.contains id then 1 else 0) + reused.count id

namespace Listed

omit [Scalar F] in
/-- Members, index and serial numbers given out tell whether the index goes with the members. -/
theorem of_perm (h : Listed s reused) (hmembers : s'.tree.root.members.Perm s.tree.root.members)
    (hnext : s.tree.nextSerial ≤ s'.tree.nextSerial) (happs : s'.apps = s.apps) :
    Listed s' reused := by
  refine ⟨?_, ?_, ?_, ?_, ?_⟩
  · exact fun m hm => h.sited m (hmembers.mem_iff.mp hm)
  · exact fun m hm => (h.serial_lt m (hmembers.mem_iff.mp hm)).trans_le hnext
  · exact (hmembers.map _).nodup_iff.mpr h.serials
  · intro id serial hindex
    rw [happs] at hindex
    obtain ⟨m, hm, hsame⟩ := h.found id serial hindex
    exact ⟨m, hmembers.mem_iff.mpr hm, hsame⟩
  · intro id
    rw [hmembers.countP_eq, happs, h.count]

omit [Scalar F] in
/-- Where members bear different serial numbers, applications do. -/
theorem nodup_attempts (h : Listed s reused) : (s.tree.root.attempts.map Attempt.serial).Nodup := by
  have hserials := h.serials
  rw [Queue.members, Queue.posts, List.map_map, List.map_map] at hserials
  rw [← Queue.map_attempt_seats, List.map_map]
  exact hserials

omit [Scalar F] in
/-- What leaves the books as they are keeps index and members together. -/
theorem of_still (h : Listed s reused) (hstill : Still s s') : Listed s' reused :=
  h.of_perm (hstill.posts.map _) hstill.nextSerial hstill.apps

omit [Scalar F] in
/-- An application that is found by its id is in the leaf that its queue names, and of that id. -/
theorem exists_seat (h : Listed s reused) {id : String} {a : Attempt F}
    (happ : s.app? id = some a) :
    ∃ x ∈ s.tree.root.seats, x.attempt = a ∧ x.leaf = a.queue ∧ a.id = id := by
  obtain ⟨hindex, x, hx, rfl⟩ := Scheduler.exists_seat happ
  obtain ⟨m, hm, hid, hserial⟩ := h.found id _ hindex
  obtain ⟨y, hy, rfl⟩ := Queue.mem_members_iff.mp hm
  obtain rfl := Queue.seat_injective h.serials hy hx hserial
  exact ⟨y, hy, rfl, h.sited _ hm, hid⟩

omit [Scalar F] in
/-- The leaf that the queue of an application found by its id names has a member of the id. -/
theorem exists_member (h : Listed s reused) {id : String} {a : Attempt F}
    (happ : s.app? id = some a) :
    ∃ m ∈ s.tree.root.members, m.leaf = a.queue ∧ m.id = id := by
  obtain ⟨x, hx, rfl, hleaf, hid⟩ := h.exists_seat happ
  exact ⟨_, Queue.mem_members_iff.mpr ⟨x, hx, rfl⟩, hleaf, hid⟩

omit [Scalar F] in
/-- The one who is admitted is a member more. -/
theorem members_of_admits {id : String} (ha : Admits s s' id) : ∃ leaf,
    s'.tree.root.members.Perm
      (⟨leaf, id, leaf, s'.tree.nextSerial - 1⟩ :: s.tree.root.members) := by
  obtain ⟨leaf, hposts⟩ := ha.posts
  exact ⟨leaf, hposts.map Post.member⟩

omit [Scalar F] in
/-- Of the id of an application that is admitted there is one member more, and it is for the index if
that did not have the id. -/
theorem count_of_admits {id : String} (h : Listed s reused) (ha : Admits s s' id) (id' : String) :
    s'.tree.root.members.countP (fun m => m.id = id') =
      (if s'.apps.contains id' then 1 else 0) +
        ((if s.apps.contains id then [id] else []) ++ reused).count id' := by
  obtain ⟨leaf, hmembers⟩ := members_of_admits ha
  rw [hmembers.countP_eq, List.countP_cons, h.count, List.count_append, ha.apps, Table.contains,
    Table.contains, Table.get?_insert]
  by_cases hid : id = id'
  · subst hid
    cases hindex : s.apps.get? id with
    | none => simp [Table.contains, hindex, Nat.add_comm]
    | some serial =>
      simp [Table.contains, hindex]
      omega
  · have hcount : List.count id' (if s.apps.contains id then [id] else []) = 0 := by
      split <;> simp [hid]
    simp [hid, hcount]

omit [Scalar F] in
/-- An application that is admitted enters index and members together. -/
theorem of_admits {id : String} (h : Listed s reused) (ha : Admits s s' id) :
    Listed s' ((if s.apps.contains id then [id] else []) ++ reused) := by
  obtain ⟨leaf, hmembers⟩ := members_of_admits ha
  have hnext := ha.nextSerial
  have hold : ∀ m ∈ s.tree.root.members, m.serial < s'.tree.nextSerial - 1 := by
    intro m hm
    have hlt := h.serial_lt m hm
    omega
  refine ⟨?_, ?_, ?_, ?_, h.count_of_admits ha⟩
  · intro m hm
    obtain rfl | hm := List.mem_cons.mp (hmembers.mem_iff.mp hm)
    · rfl
    · exact h.sited m hm
  · intro m hm
    obtain rfl | hm := List.mem_cons.mp (hmembers.mem_iff.mp hm)
    · exact Nat.sub_lt (Nat.zero_lt_of_lt hnext) Nat.one_pos
    · exact (h.serial_lt m hm).trans hnext
  · rw [(hmembers.map _).nodup_iff, List.map_cons, List.nodup_cons]
    refine ⟨?_, h.serials⟩
    intro hmem
    obtain ⟨m, hm, heq⟩ := List.mem_map.mp hmem
    exact absurd heq (Nat.ne_of_lt (hold m hm))
  · intro id' serial hindex
    rw [ha.apps, Table.get?_insert] at hindex
    split at hindex
    · rename_i hid
      exact ⟨_, hmembers.mem_iff.mpr List.mem_cons_self, hid, Option.some.inj hindex⟩
    · obtain ⟨m, hm, hsame⟩ := h.found id' serial hindex
      exact ⟨m, hmembers.mem_iff.mpr (List.mem_cons_of_mem _ hm), hsame⟩

omit [Scalar F] in
/-- An application that is discharged leaves index and members together. -/
theorem of_discharges {id : String} {a : Attempt F} (h : Listed s reused)
    (hindex : s.apps.contains id = true) (hd : Discharges s s' id a) : Listed s' reused := by
  obtain ⟨x, -, hid, hmembers, -⟩ := hd.posts
  have hold : ∀ m ∈ s'.tree.root.members, m ∈ s.tree.root.members :=
    fun m hm => hmembers.mem_iff.mpr (List.mem_cons_of_mem _ hm)
  refine ⟨fun m hm => h.sited m (hold m hm), ?_, ?_, ?_, ?_⟩
  · intro m hm
    rw [hd.nextSerial]
    exact h.serial_lt m (hold m hm)
  · have hserials := (hmembers.map Member.serial).nodup_iff.mp h.serials
    rw [List.map_cons, List.nodup_cons] at hserials
    exact hserials.2
  · intro id' serial hfound
    rw [hd.apps, Table.get?_erase] at hfound
    split at hfound
    · contradiction
    · rename_i hother
      obtain ⟨m, hm, hmid, hserial⟩ := h.found id' serial hfound
      obtain rfl | hm := List.mem_cons.mp (hmembers.mem_iff.mp hm)
      · exact absurd (hid.symm.trans hmid) hother
      · exact ⟨m, hm, hmid, hserial⟩
  · intro id'
    have hcount := h.count id'
    rw [hmembers.countP_eq, List.countP_cons] at hcount
    have hcontains : s'.apps.contains id' = (!decide (id = id') && s.apps.contains id') := by
      rw [hd.apps, Table.contains, Table.get?_erase, Table.contains]
      by_cases hsame : id = id' <;> simp [hsame]
    rw [hcontains]
    by_cases hsame : id = id'
    · subst hsame
      rw [hindex] at hcount
      simp only [hid, decide_true, if_true, Bool.not_true, Bool.false_and] at hcount ⊢
      simp only [Bool.false_eq_true, if_false]
      omega
    · simpa [hid, hsame] using hcount

/-- Offering a node to a queue keeps index and members together. -/
theorem assignOnce (h : Listed s reused) (hs : s.tree.Reachable) (queue : String) (node : Node) :
    Listed (s.assignOnce queue node).1 reused := by
  obtain hsame | hfills := assignOnce_cases hs queue node
  · rw [hsame]
    exact h
  · exact h.of_perm hfills.members (Nat.le_of_eq hfills.nextSerial.symm) hfills.apps

/-- A submission keeps index and members together, up to ids that are reused. -/
theorem submit (h : Listed s reused) (hs : s.tree.Reachable) (id queue user : String)
    (priority : ℕ) :
    Listed (s.submit id queue user priority).1
      (s.resubmitted id queue user priority ++ reused) := by
  obtain ⟨e, herror, hstill⟩ | ⟨a, hok, hadmits⟩ := submit_cases hs id queue user priority
  · simp only [resubmitted, herror, Except.isOk, Except.toBool, Bool.and_false]
    exact h.of_still hstill
  · simp only [resubmitted, hok, Except.isOk, Except.toBool, Bool.and_true]
    exact h.of_admits hadmits

/-- A removal keeps index and members together. -/
theorem removeApp (h : Listed s reused) (hs : s.tree.Reachable) (id : String) :
    Listed (s.removeApp id).1 reused := by
  obtain ⟨-, hsame⟩ | ⟨a, happ, -, hdischarges⟩ :=
    removeApp_cases hs id fun a ha => h.exists_member ha
  · rw [hsame]
    exact h
  · obtain ⟨hindex, -⟩ := Scheduler.exists_seat happ
    exact h.of_discharges (by rw [Table.contains, hindex, Option.isSome_some]) hdischarges

/-- Every operation keeps index and members together, up to ids that are reused. -/
theorem apply (h : Listed s reused) (hs : s.tree.Reachable) (op : Operation F) :
    Listed (s.apply op) (s.reuses op ++ reused) := by
  cases op with
  | submit id queue user priority =>
    rw [Scheduler.apply]
    exact h.submit hs id queue user priority
  | removeApp id => exact h.removeApp hs id
  | addNode id total =>
    let added : Scheduler F := { s with nodes := s.nodes.insert id (Node.new id total) }
    have hquiet := quietly_refreshCluster (s := added) hs
    exact h.of_perm ((hquiet.posts hs).map _) (hquiet.nextSerial_le hs) rfl
  | removeNode id =>
    obtain hsame | hwithdraws := removeNode_cases hs id
    · change Listed (s.removeNode id).1 reused
      rw [hsame]
      exact h
    · exact h.of_perm hwithdraws.members hwithdraws.nextSerial hwithdraws.apps
  | request id r => exact h.of_still (still_request s id r)
  | release id container =>
    obtain hsame | ⟨y, hreleases⟩ := release_cases h.serials id container
    · change Listed (s.release id container).1 reused
      rw [hsame]
      exact h
    · exact h.of_perm (by rw [Scheduler.apply, hreleases.members])
        (Nat.le_of_eq hreleases.nextSerial.symm) hreleases.apps
  | heartbeat node =>
    refine (fill_induction (P := fun s => s.tree.Reachable ∧ Listed s reused) ?_ ⟨hs, h⟩ _ 0 0).2
    intro s n h _
    exact ⟨tree_assignOnce h.1 QueueName.root n, h.2.assignOnce h.1 QueueName.root n⟩
  | assign queue node =>
    exact assign_induction (P := fun s => Listed s reused) (fun n _ => h.assignOnce hs queue n) h
  | update | start | stop | preempt | reload | locate | setPolicy | updateDemand | setFairShare
  | recompute | preemptIn =>
    refine h.of_still (still_apply hs ?_)
    trivial

end Listed

/-- Along every run the index goes with the members of the leaves. -/
theorem Run.listed (h : Run s reused) : Listed s reused := by
  induction h with
  | start c s hmade =>
    obtain ⟨htree, happs, -, -⟩ := of_ofConfig hmade
    have hmembers : s.tree.root.members = [] := by
      rw [Queue.members, Queue.posts, QueueTree.seats_ofConfig htree, List.map_nil, List.map_nil]
    refine ⟨?_, ?_, ?_, ?_, ?_⟩
    · simp [hmembers]
    · simp [hmembers]
    · simp [hmembers]
    · simp [happs, Table.get?, Table.empty]
    · simp [hmembers, happs, Table.contains, Table.get?, Table.empty]
  | step s reused op h ih => exact ih.apply h.reachable.tree op

/-! ## Who is held and who is indexed -/

namespace Listed

variable {id : String}

omit [Scalar F] in
/-- As many applications of an id are held as there are members of it. -/
theorem countP_attempts (s : Scheduler F) (id : String) :
    s.tree.root.attempts.countP (fun a => a.id = id) =
      s.tree.root.members.countP fun m => m.id = id := by
  rw [← Queue.map_attempt_seats, Queue.members, Queue.posts, List.map_map, List.countP_map,
    List.countP_map]
  rfl

omit [Scalar F] in
/-- A held application whose id was never reused is the one that the index has. -/
theorem get?_of_mem (h : Listed s reused) {m : Member} (hm : m ∈ s.tree.root.members)
    (hid : m.id ∉ reused) : s.apps.get? m.id = some m.serial := by
  have hcount := h.count m.id
  rw [List.count_eq_zero_of_not_mem hid, Nat.add_zero] at hcount
  have hpos : 0 < s.tree.root.members.countP fun m' => m'.id = m.id :=
    List.countP_pos_iff.mpr ⟨m, hm, by simp⟩
  cases hindex : s.apps.get? m.id with
  | none =>
    rw [hcount, Table.contains, hindex] at hpos
    simp at hpos
  | some serial =>
    -- The member that the index has is the only one of the id.
    obtain ⟨m', hm', hid', hserial⟩ := h.found m.id serial hindex
    rw [Table.contains, hindex, Option.isSome_some, if_pos rfl, List.countP_eq_length_filter,
      List.length_eq_one_iff] at hcount
    obtain ⟨only, honly⟩ := hcount
    have hsame : ∀ n ∈ s.tree.root.members, n.id = m.id → n = only := by
      intro n hn hnid
      have hmem : n ∈ s.tree.root.members.filter fun m' => m'.id = m.id :=
        List.mem_filter.mpr ⟨hn, by simpa using hnid⟩
      rw [honly, List.mem_singleton] at hmem
      exact hmem
    rw [← hserial, hsame m' hm' hid', hsame m hm rfl]

omit [Scalar F] in
/-- No more than one member bears a serial number. -/
theorem countP_le_one (h : Listed s reused) {p : Member → Bool} {serial : ℕ}
    (hp : ∀ m ∈ s.tree.root.members, p m = true → m.serial = serial) :
    s.tree.root.members.countP p ≤ 1 := by
  have hone := List.subperm_of_subset (h.serials.sublist (List.filter_sublist.map Member.serial))
    (show (s.tree.root.members.filter p).map Member.serial ⊆ [serial] by
      intro n hn
      obtain ⟨m, hm, rfl⟩ := List.mem_map.mp hn
      obtain ⟨hmem, hpm⟩ := List.mem_filter.mp hm
      exact List.mem_singleton.mpr (hp m hmem hpm))
  rw [List.countP_eq_length_filter, ← List.length_map Member.serial]
  exact hone.length_le

omit [Scalar F] in
/-- All held applications are those of the index exactly if no id was reused. -/
theorem forall_get?_iff (h : Listed s reused) :
    (∀ a ∈ s.tree.root.attempts, s.apps.get? a.id = some a.serial) ↔ reused = [] := by
  constructor
  · intro hall
    have hindexed : ∀ m ∈ s.tree.root.members, s.apps.get? m.id = some m.serial := by
      intro m hm
      obtain ⟨x, hx, rfl⟩ := Queue.mem_members_iff.mp hm
      exact hall x.attempt (Queue.mem_attempts_iff.mpr ⟨x, hx, rfl⟩)
    rw [List.eq_nil_iff_forall_not_mem]
    intro id hid
    have hreused := List.count_pos_iff.mpr hid
    have hcount := h.count id
    cases hindex : s.apps.get? id with
    | none =>
      have hnone : s.tree.root.members.countP (fun m => m.id = id) = 0 := by
        rw [List.countP_eq_zero]
        intro m hm hsame
        have hfound := hindexed m hm
        rw [of_decide_eq_true hsame, hindex] at hfound
        contradiction
      omega
    | some serial =>
      have hone := h.countP_le_one (p := fun m => m.id = id) (by
        intro m hm hsame
        have hfound := hindexed m hm
        rw [of_decide_eq_true hsame, hindex] at hfound
        exact (Option.some.inj hfound).symm)
      rw [Table.contains, hindex, Option.isSome_some, if_pos rfl] at hcount
      omega
  · intro hnone a ha
    obtain ⟨x, hx, rfl⟩ := Queue.mem_attempts_iff.mp ha
    exact h.get?_of_mem (Queue.mem_members_iff.mpr ⟨x, hx, rfl⟩) (by simp [hnone])

omit [Scalar F] in
/-- An indexed application is held by exactly one leaf, the one that its queue names. -/
theorem exists_unique_leaf (h : Listed s reused) (hwell : s.tree.WellNamed) {serial : ℕ}
    (hindex : s.apps.get? id = some serial) :
    ∃ q ∈ s.tree.root.all, ∃ a ∈ q.ownAttempts, a.id = id ∧ a.serial = serial ∧ q.name = a.queue ∧
      ∀ q' ∈ s.tree.root.all, ∀ a' ∈ q'.ownAttempts, a'.serial = serial → q' = q ∧ a' = a := by
  obtain ⟨m, hm, hid, hserial⟩ := h.found id serial hindex
  have hsited := h.sited m hm
  obtain ⟨x, hx, rfl⟩ := Queue.mem_members_iff.mp hm
  obtain ⟨q, hq, a, ha, rfl⟩ := Queue.mem_seats_iff.mp hx
  refine ⟨q, hq, a, ha, hid, hserial, hsited, ?_⟩
  intro q' hq' a' ha' hserial'
  have hsame := Queue.seat_injective h.serials (Queue.mem_seats_iff.mpr ⟨q', hq', a', ha', rfl⟩) hx
    (hserial'.trans hserial.symm)
  have hname : q'.name = q.name := congrArg Seat.leaf hsame
  exact ⟨List.inj_on_of_nodup_map hwell.root.nodup_names hq' hq hname, congrArg Seat.attempt hsame⟩

omit [Scalar F] in
/-- A held application whose id was never reused is the only one of its id. -/
theorem filter_attempts (h : Listed s reused) {a : Attempt F} (ha : a ∈ s.tree.root.attempts)
    (hindex : s.apps.contains a.id = true) (hid : a.id ∉ reused) :
    s.tree.root.attempts.filter (fun b => b.id = a.id) = [a] := by
  have hcount := h.count a.id
  rw [hindex, if_pos rfl, List.count_eq_zero_of_not_mem hid, Nat.add_zero, ← countP_attempts,
    List.countP_eq_length_filter, List.length_eq_one_iff] at hcount
  obtain ⟨only, honly⟩ := hcount
  have hmem : a ∈ s.tree.root.attempts.filter fun b => b.id = a.id :=
    List.mem_filter.mpr ⟨ha, by simp⟩
  rw [honly, List.mem_singleton] at hmem
  rw [honly, hmem]

end Listed

/-- After a removal an application of the id is held exactly if the id was ever reused. The containers
that were given back to the nodes are those of the application that the index had, which is the only
one of the id if that was never reused. -/
theorem Run.of_removeApp (h : Run s reused) {id : String} (hok : (s.removeApp id).2 = .ok ()) :
    ((∀ a ∈ (s.removeApp id).1.tree.root.attempts, a.id ≠ id) ↔ id ∉ reused) ∧
      ∃ a ∈ s.tree.root.attempts, s.apps.get? id = some a.serial ∧
        (s.removeApp id).1.nodes = a.live.foldl freeContainer s.nodes ∧
        (id ∉ reused → s.tree.root.attempts.filter (fun b => b.id = id) = [a]) := by
  have hl := h.listed
  obtain ⟨-, hrefused⟩ | ⟨a, happ, -, hd⟩ :=
    removeApp_cases h.reachable.tree id fun a ha => hl.exists_member ha
  · rw [hrefused] at hok
    contradiction
  · obtain ⟨hindex, -⟩ := exists_seat happ
    obtain ⟨x, hx, rfl, -, rfl⟩ := hl.exists_seat happ
    have hafter := hl.removeApp h.reachable.tree x.attempt.id
    constructor
    · have hcount := hafter.count x.attempt.id
      have hgone : (s.removeApp x.attempt.id).1.apps.contains x.attempt.id = false := by
        rw [hd.apps, Table.contains, Table.get?_erase, if_pos rfl, Option.isSome_none]
      rw [hgone, if_neg (by simp), Nat.zero_add, ← Listed.countP_attempts] at hcount
      rw [← List.count_eq_zero, ← hcount, List.countP_eq_zero]
      simp
    · have ha : x.attempt ∈ s.tree.root.attempts := Queue.mem_attempts_iff.mpr ⟨x, hx, rfl⟩
      refine ⟨x.attempt, ha, hindex, hd.nodes, ?_⟩
      exact hl.filter_attempts ha (by rw [Table.contains, hindex, Option.isSome_some])

/-- Along every run an indexed application is held by exactly one leaf, the one that its queue names.
All held applications are those of the index exactly if no submission was accepted under an id that
the index had. After a removal no application of the id is held exactly if the id was never so reused;
the containers of the application that the index had are given back, and without reuse it was the only
one of the id. -/
theorem Run.index_and_leaves (h : Run s reused) :
    (∀ id serial, s.apps.get? id = some serial →
      ∃ q ∈ s.tree.root.all, ∃ a ∈ q.ownAttempts,
        a.id = id ∧ a.serial = serial ∧ q.name = a.queue ∧
        ∀ q' ∈ s.tree.root.all, ∀ a' ∈ q'.ownAttempts, a'.serial = serial → q' = q ∧ a' = a) ∧
    ((∀ a ∈ s.tree.root.attempts, s.apps.get? a.id = some a.serial) ↔ reused = []) ∧
    (∀ id, (s.removeApp id).2 = .ok () →
      ((∀ a ∈ (s.removeApp id).1.tree.root.attempts, a.id ≠ id) ↔ id ∉ reused) ∧
      ∃ a ∈ s.tree.root.attempts, s.apps.get? id = some a.serial ∧
        (s.removeApp id).1.nodes = a.live.foldl freeContainer s.nodes ∧
        (id ∉ reused → s.tree.root.attempts.filter (fun b => b.id = id) = [a])) :=
  ⟨fun _ _ => h.listed.exists_unique_leaf h.reachable.tree.wellNamed, h.listed.forall_get?_iff,
    fun _ => h.of_removeApp⟩

/-- A scheduler with one leaf. -/
def oneLeaf : Scheduler Float where
  assignMultiple := false
  maxAssign := none
  tree := QueueTree.oneLeaf
  nodes := Table.empty
  apps := Table.empty
  cluster := 0
  nextContainer := 1
  metrics := Table.empty
  running := false

/-- The scheduler with one leaf is that of a configuration. -/
theorem ofConfig_oneLeaf : ofConfig
    { queues := .parent "root" [.leaf "a"]
      assignMultiple := false
      maxAssign := none
      updateIntervalMs := 500 } = .ok oneLeaf := rfl

/-- The scheduler after an application was submitted to the leaf twice. -/
def submittedTwice : Scheduler Float :=
  (oneLeaf.apply (.submit "app" "a" "user" 0)).apply (.submit "app" "a" "user" 0)

/-- The application was submitted twice. -/
theorem run_submittedTwice : Run submittedTwice ["app"] := by
  have hfirst := (Run.start _ oneLeaf ofConfig_oneLeaf).step _ _ (.submit "app" "a" "user" 0)
  exact hfirst.step _ _ (.submit "app" "a" "user" 0)

/-- The application that the index has is in its leaf. After its removal the leaf still has an
application of the id. -/
theorem index_and_leaves_of_submittedTwice :
    Run submittedTwice ["app"] ∧ submittedTwice.apps.get? "app" = some 3 ∧
      (∃ q ∈ submittedTwice.tree.root.all, ∃ a ∈ q.ownAttempts,
        a.id = "app" ∧ a.serial = 3 ∧ q.name = a.queue) ∧
      (submittedTwice.removeApp "app").2 = .ok () ∧
      ¬ ∀ a ∈ (submittedTwice.removeApp "app").1.tree.root.attempts, a.id ≠ "app" := by
  have hindex : submittedTwice.apps.get? "app" = some 3 := rfl
  have hok : (submittedTwice.removeApp "app").2 = .ok () := rfl
  obtain ⟨hsited, -, hremoved⟩ := run_submittedTwice.index_and_leaves
  obtain ⟨q, hq, a, ha, hid, hserial, hname, -⟩ := hsited "app" 3 hindex
  refine ⟨run_submittedTwice, hindex, ⟨q, hq, a, ha, hid, hserial, hname⟩, hok, ?_⟩
  intro hgone
  exact (hremoved "app" hok).1.mp hgone List.mem_cons_self

/-- An application that was submitted twice is held in a leaf without being the one of the index, and
after a removal that succeeds an application of the id is still held. -/
theorem orphan_of_submittedTwice :
    submittedTwice.Reachable ∧
      (∃ a ∈ submittedTwice.tree.root.attempts,
        submittedTwice.apps.get? a.id ≠ some a.serial) ∧
      (submittedTwice.removeApp "app").2 = .ok () ∧
      ∃ a ∈ (submittedTwice.removeApp "app").1.tree.root.attempts, a.id = "app" := by
  refine ⟨run_submittedTwice.reachable, ?_, rfl, ?_⟩
  · refine ⟨_, List.mem_cons_self, ?_⟩
    change some 3 ≠ some 2
    decide
  · exact ⟨_, List.mem_cons_self, rfl⟩

end Allotment.Scheduler
