import Allotment.Proofs.Queue.Indexed

/-!
# Reloads of a directory

A reload changes tree, index and links together. If it is refused it has changed none of them. If it is
carried out, the index has the root, the configured queues and those in which applications are held, each
under the serial number that it had unless the queue was replaced; and the same reload once more changes
nothing. A tree and its links leave no choice in the index, so what is known of the tree carries over.
-/

namespace Allotment

open QueueName Shape

variable {F : Type}

/-- Whether a measure leaves a queue in its place. -/
def Measure.Stays : Measure → Prop
  | .update _ | .keep _ => True
  | .replace | .create => False

namespace Directory

variable {d d' : Directory F}

/-! ## The links between queues -/

/-- New settings and a new policy leave the links as they are. -/
@[simp] theorem above_reconfigure (d : Directory F) (h : Handle) (isRoot : Bool)
    (settings : QueueSettings F) (policy : Policy) :
    (d.reconfigure h isRoot settings policy).1.above = d.above := by
  unfold reconfigure
  dsimp only
  split
  · rfl
  · split <;> rfl

/-- A queue that is let go of keeps its link. -/
@[simp] theorem above_prune (d : Directory F) (n : String) : (d.prune n).above = d.above := by
  unfold prune detach
  split
  · split
    · dsimp only
      split <;> rfl
    · rfl
  · rfl

/-- Removing queues leaves the links as they are. -/
theorem above_foldl_prune (d : Directory F) (names : List String) :
    (names.foldl prune d).above = d.above := by
  induction names generalizing d with
  | nil => rfl
  | cons n rest ih => rw [List.foldl_cons, ih, above_prune]

/-- A measure that leaves a queue in its place leaves the links as they are. -/
theorem above_applyMeasure (d : Directory F) (p : Planned F) {m : Measure} (hm : m.Stays) :
    (d.applyMeasure p m).1.above = d.above := by
  cases m with
  | update found =>
    have habove := d.above_reconfigure found false (.ofOptions p.config.options false) p.policy
    unfold applyMeasure
    dsimp only
    generalize d.reconfigure found false (.ofOptions p.config.options false) p.policy = r at habove ⊢
    obtain ⟨d', _ | _⟩ := r
    · exact habove
    · -- Applications that move up concern the tree alone.
      have hsame : (if found.kind = .leaf then d'.change found Queue.promoteParked else d').above =
          d'.above := by split <;> rfl
      exact hsame.trans habove
  | keep found => rfl
  | replace | create => exact hm.elim

/-- Such measures one after another leave the links as they are. -/
theorem above_applyMeasures (d : Directory F) {entries : List (Planned F × Measure)}
    (h : ∀ e ∈ entries, e.2.Stays) : (d.applyMeasures entries).1.above = d.above := by
  induction entries generalizing d with
  | nil => rfl
  | cons e rest ih =>
    obtain ⟨hfirst, hrest⟩ := List.forall_mem_cons.mp h
    have habove := d.above_applyMeasure e.1 hfirst
    rw [applyMeasures]
    generalize d.applyMeasure e.1 e.2 = r at habove ⊢
    obtain ⟨d', _ | _⟩ := r
    · exact habove
    · exact (ih d' hrest).trans habove

/-- A reload whose measures leave every queue in its place leaves the links as they are. -/
theorem above_reload {c : QueueConfig F} (h : ∀ planned measures, c.plan = .ok planned →
    d.resolve d.shape planned = .ok measures → ∀ m ∈ measures, m.Stays) :
    (d.reload c).1.above = d.above := by
  unfold reload
  cases hplan : c.plan with
  | error e => rfl
  | ok planned =>
    cases hpolicy : c.policy with
    | error e => rfl
    | ok policy =>
      cases hmeasures : d.resolve d.shape planned with
      | error e => simp [hmeasures, bind, Except.bind]
      | ok measures =>
        have hstays : ∀ e ∈ planned.zip measures, e.2.Stays := fun e he =>
          h planned measures hplan hmeasures e.2 (List.of_mem_zip he).2
        have hroot := d.above_reconfigure d.top true (.ofOptions c.options true) policy
        simp only [hmeasures, bind, Except.bind, pure, Except.pure]
        generalize d.reconfigure d.top true (.ofOptions c.options true) policy = r at hroot ⊢
        obtain ⟨d₁, _ | _⟩ := r
        · exact hroot
        · have hall := d₁.above_applyMeasures hstays
          dsimp only at hroot ⊢
          generalize d₁.applyMeasures (planned.zip measures) = r at hall ⊢
          obtain ⟨d₂, _ | _⟩ := r
          · exact hall.trans hroot
          · exact (above_foldl_prune _ _).trans (hall.trans hroot)

namespace Coherent

/-- Tree and links leave no choice in the index. -/
theorem eq_of_tree (hd : d.Coherent) (hd' : d'.Coherent) (htree : d.tree = d'.tree)
    (habove : d.above = d'.above) : d = d' := by
  have hindex : d.index = d'.index := Table.ext_get? fun n => by rw [hd.index, hd'.index, htree]
  cases d
  cases d'
  simp_all

/-! ## Reloads that are refused -/

/-- A reload that is refused leaves the directory as it was. -/
theorem reload_eq_of_error (hd : d.Coherent) {c : QueueConfig F} {e : Error}
    (hrefused : (d.reload c).2 = .error e) : (d.reload c).1 = d := by
  obtain ⟨d', hreload, -⟩ | ⟨e', hreload, -⟩ := hd.reload_cases c
  · rw [hreload] at hrefused
    contradiction
  · rw [hreload]

/-! ## Reloads that are carried out -/

open QueueTree (Decided Leaves)

variable {t : QueueTree F} {c : QueueConfig F} {policy : Policy} {planned : List (Planned F)}
  {steps : List ReloadStep}

/-- The same reload once more changes nothing, index and links included. -/
theorem reload_eq_self (hd : d.Coherent) (h : t.WellNamed) (hdecided : Decided t c policy planned steps)
    (hl : Leaves t c policy planned d.tree) : d.reload c = (d, .ok ()) := by
  have hagain := hl.reload_eq_self h hdecided
  obtain ⟨d', hreload, hd', htree⟩ | ⟨e, -, htree⟩ := hd.reload_cases c
  · rw [hagain] at htree
    -- The next reload finds every planned queue in its place, so it consists of updates and keepings.
    have habove : (d.reload c).1.above = d.above := by
      refine above_reload fun planned' measures hplan hmeasures m hm => ?_
      obtain rfl : planned = planned' := Except.ok.inj (hdecided.plan.symm.trans hplan)
      rw [hd.resolve_eq, hd.shape_eq, QueueTree.resolve_eq_map fun p hp => (hl.step_eq_self h hp).1,
        Except.map, Except.ok.injEq, List.zipWith_map_right, List.zipWith_self] at hmeasures
      rw [← hmeasures] at hm
      obtain ⟨p, hp, rfl⟩ := List.mem_map.mp hm
      obtain hstep | hstep := (hl.step_eq_self h hp).1 <;> rw [hstep] <;> trivial
    rw [hreload] at habove ⊢
    rw [hd'.eq_of_tree hd (congrArg Prod.fst htree).symm habove]
  · rw [hagain] at htree
    cases congrArg Prod.snd htree

/-- The names in the index are those of the root, of the configured queues and of the queues in which
applications were held. -/
theorem mem_keys_iff_of_leaves (hd : d.Coherent) (h : t.WellNamed)
    (hdecided : Decided t c policy planned steps) (hl : Leaves t c policy planned d.tree) {n : String} :
    n ∈ d.index.keys ↔ n = QueueName.root ∨ n ∈ c.configured.map (·.1) ∨
      ∃ q, t.find? n = some q ∧ q.attempts ≠ [] := by
  rw [hd.keys_eq, hl.mem_names_iff h, hdecided.mem_wanted_iff, or_assoc]
  simp [Queue.isVacant]

/-- What the index has under a name is the queue of the tree. -/
theorem get?_eq_map_find? (hd : d.Coherent) (n : String) :
    d.index.get? n = (d.tree.find? n).map Queue.handle := by
  rw [hd.index, QueueTree.bare?, Option.map_map]
  congr 1
  funext q
  rw [Function.comp_apply, Queue.handle, Queue.info_bare, Queue.kind_bare]
  rfl

end Coherent

section Reachable

variable [Scalar F]

/-- A reload of a directory that has come about is refused exactly if the configuration is not that of a
tree, or some queue with configured children is at present a leaf that holds applications. Nothing has then
changed, in the tree, in the index or in the links. -/
theorem Reachable.reload_refused_iff (h : d.Reachable) (c : QueueConfig F) :
    ((∃ e, (d.reload c).2 = .error e) ↔ ¬ c.Admissible ∨
      ∃ entry ∈ c.configured, entry.2.children ≠ [] ∧ d.tree.Blocks entry.1) ∧
    ∀ e, (d.reload c).2 = .error e → (d.reload c).1 = d := by
  obtain ⟨hd, -⟩ := h.coherent
  refine ⟨?_, fun e => hd.reload_eq_of_error⟩
  rw [(hd.reload c).2.2, hd.sound.wellNamed.reload_fails_iff, c.plan_fails_iff]

/-- A reload of a directory that has come about, if it is not refused, leaves in the index exactly the root,
the configured queues and the queues in which applications were held, each name referring to the queue that
the tree has under it, and leaves every application in its leaf. Every configured queue is of the configured
kind, with the configured settings and policy, unless it is of the other kind and was kept for its
applications; then it is as it was. A queue that was there before has its serial number still unless it was
replaced, for being of the other kind and without applications. The same reload once more succeeds and
changes nothing. -/
theorem Reachable.reload_aftermath (h : d.Reachable) {c : QueueConfig F} (hok : d.reload c = (d', .ok ())) :
    (∀ n, n ∈ d'.index.keys ↔ n = QueueName.root ∨ n ∈ c.configured.map (·.1) ∨
      ∃ q, d.tree.find? n = some q ∧ q.attempts ≠ []) ∧
    (∀ n, d'.index.get? n = (d'.tree.find? n).map Queue.handle) ∧
    d'.tree.root.seats.Perm d.tree.root.seats ∧
    (∃ q', d'.tree.find? QueueName.root = some q' ∧ c.Describes true q') ∧
    (∀ e ∈ c.configured,
      (¬ d.tree.Keeps e.1 e.2 → ∃ q', d'.tree.find? e.1 = some q' ∧ e.2.Describes false q') ∧
      (d.tree.Keeps e.1 e.2 → ∃ q q', d.tree.find? e.1 = some q ∧ d'.tree.find? e.1 = some q' ∧
        q'.kind = q.kind ∧ q'.info = q.info)) ∧
    (∀ n q q', d.tree.find? n = some q → d'.tree.find? n = some q' →
      (q'.info.serial = q.info.serial ↔
        ¬ ∃ e ∈ c.configured, e.1 = n ∧ d.tree.Replaces n e.2)) ∧
    d'.reload c = (d', .ok ()) := by
  obtain ⟨hd, -⟩ := h.coherent
  obtain ⟨hd', htree, hanswer⟩ := hd.reload c
  rw [hok] at hd' htree hanswer
  have hwell := hd.sound.wellNamed
  obtain ⟨policy, planned, steps, hdecided, hl⟩ :=
    hwell.exists_leaves (Prod.ext htree.symm hanswer.symm)
  exact ⟨fun n => hd'.mem_keys_iff_of_leaves hwell hdecided hl, hd'.get?_eq_map_find?, hl.seats,
    hl.describes_root hwell hdecided, fun e he => hl.describes hdecided he,
    fun n q q' hq hq' => hl.serial_eq_iff hd.sound hdecided hq hq', hd'.reload_eq_self hwell hdecided hl⟩

/-- A leaf that is limited to three applications. -/
def secondLeaf : QueueConfig Float := .node { QueueOptions.named "b" with maxRunningApps := some 3 } []

/-- The configuration that asks for a parent in the place of the busy leaf, without children as yet, and for
a second leaf. -/
def besideBusy : QueueConfig Float := .parent "root" [.parent "a" [], secondLeaf]

/-- The directory with an application in its leaf. -/
def busyLeaf : Directory Float :=
  oneLeaf.apply (.addAttempt "root.a" (Attempt.new "app" "user" "root.a" 0 2))

/-- The busy leaf is kept where a parent is configured, and a second leaf is put beside it. -/
theorem reload_aftermath_of_busyLeaf :
    ∃ d', busyLeaf.Reachable ∧ busyLeaf.reload besideBusy = (d', .ok ()) ∧
      (∀ n, n ∈ d'.index.keys ↔ n = "root" ∨ n = "root.a" ∨ n = "root.b") ∧
      (∃ q q', busyLeaf.tree.find? "root.a" = some q ∧ d'.tree.find? "root.a" = some q' ∧
        q'.kind = q.kind ∧ q'.info = q.info) ∧
      (∃ q', d'.tree.find? "root.b" = some q' ∧ q'.info.settings.limit = 3) ∧
      d'.reload besideBusy = (d', .ok ()) := by
  have hstart : oneLeaf.Reachable := .start (.parent "root" [.leaf "a"]) oneLeaf rfl
  have hbusy : busyLeaf.Reachable := .step oneLeaf _ hstart
  have hok : busyLeaf.reload besideBusy = ((busyLeaf.reload besideBusy).1, .ok ()) := rfl
  obtain ⟨hnames, -, -, -, hqueues, -, hagain⟩ := hbusy.reload_aftermath hok
  have htree : busyLeaf.tree.root.WellNamed := hbusy.coherent.1.sound.wellNamed.root
  refine ⟨_, hbusy, hok, fun n => ?_, ?_, ?_, hagain⟩
  · rw [hnames, show besideBusy.configured.map (·.1) = ["root.a", "root.b"] from rfl,
      List.mem_cons, List.mem_singleton]
    constructor
    · intro h
      obtain hroot | hconfigured | ⟨q, hq, -⟩ := h
      · exact .inl hroot
      · exact .inr hconfigured
      · obtain ⟨hfound, hname⟩ := htree.find?_eq_some_iff.mp hq
        have hmem : n ∈ busyLeaf.tree.root.all.map Queue.name := List.mem_map.mpr ⟨q, hfound, hname⟩
        rw [show busyLeaf.tree.root.all.map Queue.name = ["root", "root.a"] from rfl,
          List.mem_cons, List.mem_singleton] at hmem
        exact hmem.imp_right .inl
    · exact fun hn => hn.imp_right .inl
  · have hmem : ("root.a", .parent "a" []) ∈ besideBusy.configured := List.mem_cons_self
    exact (hqueues _ hmem).2 ⟨_, rfl, by decide, rfl⟩
  · have hmem : ("root.b", secondLeaf) ∈ besideBusy.configured := List.mem_cons_of_mem _ List.mem_cons_self
    obtain ⟨q', hq', hdescribes⟩ := (hqueues _ hmem).1 fun ⟨q, hq, _⟩ => nomatch hq
    exact ⟨q', hq', hdescribes.settings.limit 3 rfl⟩

end Reachable

end Directory

end Allotment
