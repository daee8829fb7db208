import Allotment.Proofs.Scheduler.Capacity
import Allotment.Proofs.Scheduler.Evolution

/-!
# Containers asked back

A run keeps a list of all containers that were asked back on the way, from whichever queue. Applications
remember of the containers they hold exactly those on the list: a number that was given out is never
given out again, so what an application forgets with a container that it gives back is not missed.

From this it follows that no container is asked back twice, and that a container is asked back whenever
the one application that is asked holds a container that is not on the list. Only one application is
asked. If it has nothing to give up, no other is asked in its place, and a container that another holds
in a leaf over its fair share stays where it is.
-/

namespace Allotment

variable {F : Type}

/-! ## What an application remembers -/

/-- Whether an application remembers of the containers that it holds exactly those that were asked
back, and nothing else. -/
structure Attempt.Remembers (recalled : List Container) (a : Attempt F) : Prop where
  asked : ∀ c ∈ a.live, c ∈ recalled → c.id ∈ a.preempting
  same : ∀ c ∈ a.live, ∀ d ∈ recalled, d.id = c.id → d = c
  known : ∀ i ∈ a.preempting, ∃ d ∈ recalled, d.id = i

namespace Attempt

variable {next : ℕ} {a b : Attempt F} {recalled : List Container}

/-- Of the containers it holds, an application remembers those that were asked back. -/
theorem Remembers.mem_iff (h : a.Remembers recalled) {c : Container} (hc : c ∈ a.live) :
    c.id ∈ a.preempting ↔ c ∈ recalled := by
  refine ⟨fun hmem => ?_, h.asked c hc⟩
  obtain ⟨d, hd, hid⟩ := h.known c.id hmem
  rwa [← h.same c hc d hd hid]

/-- An application that holds nothing remembers nothing. -/
theorem Remembers.of_idle (hlive : a.live = []) (hpreempting : a.preempting = []) :
    a.Remembers recalled :=
  ⟨by simp [hlive], by simp [hlive], by simp [hpreempting]⟩

/-- An application that holds nothing new, and has forgotten at most what it gave back, remembers what
it did. -/
theorem Remembers.of_subset (h : a.Remembers recalled) (hlive : b.live ⊆ a.live)
    (hpreempting : b.preempting ⊆ a.preempting)
    (hkept : ∀ c ∈ b.live, c.id ∈ a.preempting → c.id ∈ b.preempting) : b.Remembers recalled :=
  ⟨fun c hc hmem => hkept c hc (h.asked c (hlive hc) hmem), fun c hc => h.same c (hlive hc),
    fun i hi => h.known i (hpreempting hi)⟩

/-- A container of a new number was not asked back. -/
theorem Remembers.hold (h : a.Remembers recalled) {c : Container}
    (hnew : ∀ d ∈ recalled, d.id < c.id) : (a.hold c).Remembers recalled := by
  have hother : ∀ d ∈ recalled, d.id ≠ c.id := fun d hd => Nat.ne_of_lt (hnew d hd)
  refine ⟨?_, ?_, h.known⟩
  · intro d hd hmem
    obtain hd | rfl := List.mem_append.mp hd |>.imp_right List.mem_singleton.mp
    · exact h.asked d hd hmem
    · exact absurd rfl (hother d hmem)
  · intro d hd e he hid
    obtain hd | rfl := List.mem_append.mp hd |>.imp_right List.mem_singleton.mp
    · exact h.same d hd e he hid
    · exact absurd hid (hother e he)

/-- An application that was served a node remembers what it did. -/
theorem Remembers.assign (h : a.Remembers recalled) (p : Placement F)
    (hold : ∀ d ∈ recalled, d.id < p.nextContainer) :
    (a.assign p).subject.Remembers recalled := by
  unfold Attempt.assign
  split
  · exact h
  · rename_i r _
    split
    · exact h
    · have htaken : (a.takeOne r).Remembers recalled := by
        unfold takeOne
        split <;> exact ⟨h.asked, h.same, h.known⟩
      exact htaken.hold hold

/-- An application that gives a container back forgets only that. -/
theorem Remembers.release (h : a.Remembers recalled) (hids : (a.live.map Container.id).Nodup)
    (i : ℕ) : (a.release i).1.Remembers recalled := by
  have hlive := live_release hids i
  have hpreempting : (a.release i).1.preempting = a.preempting ∨
      (a.release i).1.preempting = a.preempting.filter (· ≠ i) := by
    unfold Attempt.release
    split
    · exact .inl rfl
    · exact .inr rfl
  refine h.of_subset ?_ ?_ ?_
  · rw [hlive]
    exact List.filter_subset_self _
  · obtain heq | heq := hpreempting <;> rw [heq]
    · exact List.Subset.refl _
    · exact List.filter_subset_self _
  · intro c hc hmem
    rw [hlive, List.mem_filter, decide_eq_true_eq] at hc
    obtain heq | heq := hpreempting <;> rw [heq]
    · exact hmem
    · exact List.mem_filter.mpr ⟨hmem, decide_eq_true hc.2⟩

variable [Scalar F]

/-- Every step leaves what an application remembers in line with the list. -/
theorem Step.remembers (h : a.Remembers recalled) (hold : ∀ d ∈ recalled, d.id < next)
    (hstep : Step next a b) : b.Remembers recalled := by
  cases hstep with
  | outlook demand fairShare => exact ⟨h.asked, h.same, h.known⟩
  | ask r =>
    unfold Attempt.ask
    dsimp only
    split <;> exact ⟨h.asked, h.same, h.known⟩
  | serve p hnext => exact h.assign p fun d hd => (hold d hd).trans_le hnext
  | release i hids => exact h.release hids i
  | releaseAll => exact .of_idle rfl rfl

/-- Steps leave what an application remembers in line with the list. -/
theorem Evolves.remembers (h : a.Remembers recalled) (hold : ∀ d ∈ recalled, d.id < next)
    (hevolves : Evolves next a b) : b.Remembers recalled := by
  induction hevolves with
  | refl => exact h
  | tail _ hlast ih => exact hlast.remembers ih hold

end Attempt

namespace Scheduler

variable [Scalar F] {s s' : Scheduler F} {recalled : List Container}

/-! ## Runs -/

/-- The runs of a scheduler, with the containers that were asked back on the way. -/
inductive RecallRun : Scheduler F → List Container → Prop where
  | start (c : SchedulerConfig F) (s : Scheduler F) (hmade : ofConfig c = .ok s) : RecallRun s []
  | step (s : Scheduler F) (recalled : List Container) (op : Operation F) (h : RecallRun s recalled) :
    RecallRun (s.apply op) ((s.picked? op).toList ++ recalled)

/-- What comes about by a run comes about. -/
theorem RecallRun.reachable (h : RecallRun s recalled) : s.Reachable := by
  induction h with
  | start c s hmade => exact .start c s hmade
  | step s recalled op h ih => exact .step s op ih

/-- Operations of which none asks for a container leave the list as it is. -/
theorem RecallRun.append (h : RecallRun s recalled) (ops : List (Operation F))
    (hops : ∀ op ∈ ops, ¬ op.AsksBack) :
    RecallRun (ops.foldl apply s) recalled := by
  induction ops generalizing s with
  | nil => exact h
  | cons op rest ih =>
    have hstep := h.step s recalled op
    rw [s.picked?_eq_none (hops op List.mem_cons_self)] at hstep
    exact ih hstep fun op hop => hops op (List.mem_cons_of_mem _ hop)

omit [Scalar F] in
/-- A container is held once. -/
theorem held_once {next : ℕ} (h : Numbered next s.tree.root.holdings) {a b : Attempt F}
    (ha : a ∈ s.tree.root.attempts) (hb : b ∈ s.tree.root.attempts) {c d : Container}
    (hc : c ∈ a.live) (hd : d ∈ b.live) (hid : c.id = d.id) : a.serial = b.serial ∧ c = d := by
  obtain ⟨x, hx, rfl⟩ := Queue.mem_attempts_iff.mp ha
  obtain ⟨y, hy, rfl⟩ := Queue.mem_attempts_iff.mp hb
  have hsame := List.inj_on_of_nodup_map h.nodup (Queue.mem_holdings_iff.mpr ⟨x, hx, c, hc, rfl⟩)
    (Queue.mem_holdings_iff.mpr ⟨y, hy, d, hd, rfl⟩) hid
  obtain ⟨hmember, hcontainer⟩ := Prod.mk.inj hsame
  exact ⟨congrArg Member.serial hmember, hcontainer⟩

omit [Scalar F] in
/-- Asking for a container, applications keep remembering what was asked back. -/
theorem Picks.remembers {next : ℕ} {c : Option Container} (hpicks : Picks s s' c)
    (hnumbered : Numbered next s.tree.root.holdings)
    (h : ∀ a ∈ s.tree.root.attempts, a.Remembers recalled) :
    ∀ b ∈ s'.tree.root.attempts, b.Remembers (c.toList ++ recalled) := by
  intro b hb
  cases hpicks with
  | nothing hperm => exact h b (hperm.mem_iff.mp hb)
  | victim a c ha hc hperm =>
    obtain ⟨a', ha', rfl⟩ := List.mem_map.mp (hperm.mem_iff.mp hb)
    have hbefore := h a' ha'
    have hsame : ∀ d ∈ a'.live, ∀ e ∈ c :: recalled, e.id = d.id → e = d := by
      intro d hd e he hid
      obtain rfl | he := List.mem_cons.mp he
      · exact (held_once hnumbered ha ha' hc.live hd hid).2
      · exact hbefore.same d hd e he hid
    split
    · refine ⟨?_, hsame, ?_⟩
      · intro d hd hmem
        obtain rfl | hmem := List.mem_cons.mp hmem
        · exact List.mem_cons_self
        · exact List.mem_cons_of_mem _ (hbefore.asked d hd hmem)
      · intro i hi
        obtain rfl | hi := List.mem_cons.mp hi
        · exact ⟨c, List.mem_cons_self, rfl⟩
        · obtain ⟨d, hd, hid⟩ := hbefore.known i hi
          exact ⟨d, List.mem_cons_of_mem c hd, hid⟩
    · rename_i hother
      refine ⟨?_, hsame, ?_⟩
      · intro d hd hmem
        obtain rfl | hmem := List.mem_cons.mp hmem
        · exact absurd (held_once hnumbered ha' ha hd hc.live rfl).1 hother
        · exact hbefore.asked d hd hmem
      · intro i hi
        obtain ⟨d, hd, hid⟩ := hbefore.known i hi
        exact ⟨d, List.mem_cons_of_mem c hd, hid⟩

omit [Scalar F] in
/-- A container that is asked back is held by an application. -/
theorem Picks.lt_next {next : ℕ} {c : Container} (hpicks : Picks s s' (some c))
    (hnumbered : Numbered next s.tree.root.holdings) : c.id < next := by
  cases hpicks with
  | victim a c ha hc hperm =>
    obtain ⟨x, hx, rfl⟩ := Queue.mem_attempts_iff.mp ha
    exact hnumbered.lt_next _ (Queue.mem_holdings_iff.mpr ⟨x, hx, c, hc.live, rfl⟩)

variable [Scalar.Comparable F]

/-- Whatever an operation asks back was numbered before. -/
theorem Reachable.lt_next_of_picked (h : s.Reachable) {op : Operation F} {c : Container}
    (hc : s.picked? op = some c) : c.id < s.nextContainer := by
  cases op with
  | preempt =>
    have hpicks := h.picks_preempt
    rw [show s.preempt.2 = some c from hc] at hpicks
    exact hpicks.lt_next h.numbered
  | preemptIn queue =>
    have hpicks := h.picks_preemptIn queue
    rw [show (s.preemptIn queue).2 = some c from hc] at hpicks
    exact hpicks.lt_next h.numbered
  | _ => contradiction

/-- The numbers of containers that were asked back are below the next one. -/
theorem RecallRun.lt_next (h : RecallRun s recalled) : ∀ d ∈ recalled, d.id < s.nextContainer := by
  induction h with
  | start c s hmade => simp
  | step s recalled op h ih =>
    intro d hd
    have hreached := h.reachable
    obtain ⟨reused, hrun⟩ := hreached.exists_run
    have hle := (numbered_apply hreached.tree hrun.listed hreached.numbered op).2
    obtain hd | hd := List.mem_append.mp hd
    · exact (hreached.lt_next_of_picked (Option.mem_toList.mp hd)).trans_le hle
    · exact (ih d hd).trans_le hle

/-- Along every run applications remember of what they hold exactly what was asked back. -/
theorem RecallRun.remembers (h : RecallRun s recalled) :
    ∀ a ∈ s.tree.root.attempts, a.Remembers recalled := by
  induction h with
  | start c s hmade =>
    simp [attempts_of_ofConfig hmade]
  | step s recalled op h ih =>
    have hreached := h.reachable
    have hstem : ¬ op.AsksBack → _ := hreached.stem_apply
    cases op with
    | preempt => exact hreached.picks_preempt.remembers hreached.numbered ih
    | preemptIn queue => exact (hreached.picks_preemptIn queue).remembers hreached.numbered ih
    | _ =>
      intro b hb
      obtain ⟨id, user, leaf, priority, serial, rfl⟩ | ⟨a, ha, hab⟩ := hstem id b hb
      · exact .of_idle rfl rfl
      · exact hab.remembers (ih a ha) h.lt_next

/-! ## What is asked back -/

/-- Asking a scheduler for a container asks the application at the end of the path of those that come
last: if it holds nothing that was not asked back before, nothing changes, and otherwise the container
to be asked back next is marked and counted. -/
theorem RecallRun.preempt_cases (h : RecallRun s recalled) :
    (s.preempt = (s, none) ∧
      ∀ l a, Queue.Nominates s.cluster s.tree.root.info.policy.isOver s.tree.root l a →
        ∀ c ∈ a.live, c ∈ recalled) ∨
    ∃ l a c, Queue.Nominates s.cluster s.tree.root.info.policy.isOver s.tree.root l a ∧
      a.Victim c ∧ s.preempt =
        ({ s.modifyApp a.serial (·.mark c.id) with
            metrics := s.metrics.increment c.queue "preemptions" 1 }, some c) := by
  have hasked := h.reachable.apart.outcome s.cluster s.tree.root.info.policy.isOver
  unfold preempt
  generalize s.tree.root.preempt s.cluster s.tree.root.info.policy.isOver = outcome at hasked ⊢
  cases hasked with
  | nothing hnone =>
    refine .inl ⟨rfl, fun l a ha c hc => ?_⟩
    exact ((h.remembers a ha.mem_attempts).mem_iff hc).mp (hnone l a ha c hc)
  | victim l a c ha hc => exact .inr ⟨l, a, c, ha, hc, rfl⟩

/-- A container that is asked back is held by a runnable application of a leaf that is over its fair
share by the judgement of the queue above it. The two are found by going at every queue to the child,
and in the leaf to the application, that comes last by its policy. Of the containers that the
application holds and that were not asked back before it is the newest of the largest priority number.
It was never asked back before, and nothing changes but that the application, which shares its serial
number with none, remembers it and that it is counted. -/
theorem RecallRun.preempt_justified (h : RecallRun s recalled) {c : Container}
    (hc : s.preempt.2 = some c) :
    ∃ l a, Queue.Nominates s.cluster s.tree.root.info.policy.isOver s.tree.root l a ∧
      s.tree.root.OverShare l ∧ a ∈ l.runnable ∧ c ∈ a.live ∧
      (∀ d ∈ a.live, d ∉ recalled →
        d.priority < c.priority ∨ d.priority = c.priority ∧ d.id ≤ c.id) ∧
      (∀ d ∈ recalled, d.id ≠ c.id) ∧
      (∀ b ∈ s.tree.root.attempts, b.serial = a.serial → b = a) ∧
      s.preempt.1 = { s.modifyApp a.serial (·.mark c.id) with
        metrics := s.metrics.increment c.queue "preemptions" 1 } := by
  obtain ⟨hnone, -⟩ | ⟨l, a, d, ha, hd, hsome⟩ := h.preempt_cases
  · rw [hnone] at hc
    contradiction
  · rw [hsome] at hc
    obtain rfl := Option.some.inj hc
    have hremembers := h.remembers a ha.mem_attempts
    obtain ⟨hover, hrunnable⟩ := ha.overShare h.reachable.tree.wellNamed.root_kind
    refine ⟨l, a, ha, hover, hrunnable, hd.live, ?_, ?_, ?_, by rw [hsome]⟩
    · intro e he hnot
      have hlater := hd.last e he (mt (hremembers.mem_iff he).mp hnot)
      simpa [Attempt.laterThan] using hlater
    · intro e he hid
      have hmem := hremembers.same d hd.live e he hid ▸ he
      exact hd.fresh ((hremembers.mem_iff hd.live).mpr hmem)
    · intro b hb hserial
      exact List.inj_on_of_nodup_map h.reachable.apart.attempts hb ha.mem_attempts hserial

/-- A run to the scheduler with one container, on which none was asked back. -/
theorem recallRun_oneContainer : RecallRun oneContainer [] :=
  (RecallRun.start _ oneLeaf ofConfig_oneLeaf).append
    [.addNode "node" ⟨4, 4⟩, .submit "app" "a" "user" 0, .request "app" ⟨1, ⟨1, 1⟩, 2⟩,
      .heartbeat "node"] (by simp [Operation.AsksBack])

/-- The container of the only application is asked back first. -/
theorem preempt_justified_of_oneContainer :
    RecallRun oneContainer [] ∧
      oneContainer.preempt.2 = some ⟨1, "app", "root.a", "node", ⟨1, 1⟩, 1⟩ ∧
      ∃ l a, oneContainer.tree.root.OverShare l ∧ a ∈ l.runnable ∧
        oneContainer.preempt.1 = { oneContainer.modifyApp a.serial (·.mark 1) with
          metrics := oneContainer.metrics.increment "root.a" "preemptions" 1 } := by
  have hpicked : oneContainer.preempt.2 = some ⟨1, "app", "root.a", "node", ⟨1, 1⟩, 1⟩ := by
    decide +kernel
  obtain ⟨l, a, -, hover, ha, -, -, -, -, hafter⟩ :=
    recallRun_oneContainer.preempt_justified hpicked
  exact ⟨recallRun_oneContainer, hpicked, l, a, hover, ha, hafter⟩

/-- A container is asked back exactly if the application at the end of the path of those that come last,
which is in a leaf over its fair share, holds one that was not asked back before. -/
theorem RecallRun.preempt_isSome_iff (h : RecallRun s recalled) :
    s.preempt.2.isSome = true ↔
      ∃ l a, Queue.Nominates s.cluster s.tree.root.info.policy.isOver s.tree.root l a ∧
        ∃ c ∈ a.live, c ∉ recalled := by
  obtain ⟨hnone, hall⟩ | ⟨l, a, c, ha, hc, hsome⟩ := h.preempt_cases
  · rw [hnone]
    constructor
    · intro hsome
      contradiction
    · rintro ⟨l, a, ha, c, hc, hnot⟩
      exact absurd (hall l a ha c hc) hnot
  · rw [hsome]
    refine ⟨fun _ => ⟨l, a, ha, c, hc.live, ?_⟩, fun _ => rfl⟩
    exact mt ((h.remembers a ha.mem_attempts).mem_iff hc.live).mpr hc.fresh

/-- In the scheduler with one container the application that is asked holds one. -/
theorem preempt_isSome_iff_of_oneContainer :
    RecallRun oneContainer [] ∧ oneContainer.preempt.2.isSome = true ∧
      ∃ l a, Queue.Nominates oneContainer.cluster oneContainer.tree.root.info.policy.isOver
        oneContainer.tree.root l a ∧ ∃ c ∈ a.live, c ∉ ([] : List Container) := by
  have hpicked : oneContainer.preempt.2.isSome = true := by
    decide +kernel
  exact ⟨recallRun_oneContainer, hpicked, recallRun_oneContainer.preempt_isSome_iff.mp hpicked⟩

/-- A scheduler in which the older of two applications in a leaf served by age holds more than the share
of the leaf, and the younger holds nothing. -/
def olderHolds : Scheduler Float :=
  [.setPolicy "root.a" .fifo, .addNode "node" ⟨4, 4⟩, .submit "older" "a" "user" 0,
    .request "older" ⟨1, ⟨4, 4⟩, 1⟩, .heartbeat "node", .submit "younger" "a" "user" 0,
    .submit "starved" "b" "user" 0, .request "starved" ⟨1, ⟨2, 2⟩, 1⟩, .update].foldl apply oneLeaf

/-- A leaf is over its fair share, and a runnable application of it holds a container that was not asked
back, but none is asked back: the application that is asked is another one of the leaf, and it holds
none. -/
theorem not_asked_back_of_olderHolds :
    RecallRun olderHolds [] ∧
      (∃ l a c, olderHolds.tree.root.OverShare l ∧ a ∈ l.runnable ∧ c ∈ a.live ∧
        c ∉ ([] : List Container)) ∧
      olderHolds.preempt.2 = none := by
  have hrun : RecallRun olderHolds [] :=
    (RecallRun.start _ oneLeaf ofConfig_oneLeaf).append _ (by simp [Operation.AsksBack])
  have hheld : (∃ l ∈ olderHolds.tree.root.children,
      olderHolds.tree.root.info.policy.isOver l.usage l.info.fairShare = true ∧
        ∃ a ∈ l.runnable, ∃ c ∈ a.live, c.id = 1) ∧ olderHolds.preempt.2 = none := by
    decide +kernel
  obtain ⟨⟨l, hl, hover, a, ha, c, hc, -⟩, hnone⟩ := hheld
  exact ⟨hrun, ⟨l, a, c, ⟨_, Queue.mem_all_self _, hl, hover⟩, ha, hc, List.not_mem_nil⟩, hnone⟩

end Scheduler

end Allotment
