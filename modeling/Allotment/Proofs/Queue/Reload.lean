import Allotment.Proofs.Queue.Build
import Allotment.Proofs.Queue.Stale
import Allotment.Proofs.Table

/-!
# Carrying out a reload

What a reload decides on the shape of a tree can be done to the tree itself: as long as shape and
tree agree on the kinds of all names, every step that passes on the shape is carried out on the tree,
and they agree again. So a reload can fail only while it decides, before anything has changed.
-/

namespace Allotment

open QueueName

variable {F : Type}

namespace Shape

/-- Whether a shape tells the kinds of the queues of a tree. -/
def Agrees (s : Shape) (t : QueueTree F) : Prop := ∀ n, s.get? n = t.kindOf? n

/-- The shape of a well named tree agrees with it. -/
theorem agrees_ofTree {t : QueueTree F} (h : t.WellNamed) : (ofTree t).Agrees t := by
  intro n
  apply Option.ext
  intro k
  have hnodup : (t.root.kinds.map (·.1)).Nodup := by
    rw [Queue.map_fst_kinds]
    exact h.root.nodup_names
  rw [h.kindOf?_eq_some_iff]
  exact Table.get?_ofList_eq_some_iff hnodup

/-- A queue put into a shape is found there, and what was within its name is not. -/
theorem get?_put (s : Shape) (n : String) (k : QueueKind) (m : String) :
    (s.put n k).get? m =
      if m = n then some k else if isWithin m n then none else s.get? m := by
  unfold put
  rw [Table.get?_insert, Table.get?_filterMap]
  by_cases hm : m = n
  · simp [hm]
  · rw [if_neg (Ne.symm hm), if_neg hm]
    split <;> cases s.get? m <;> simp

/-- The shape after a step for a planned queue. -/
def after (s : Shape) (p : Planned F) : ReloadStep → Shape
  | .update | .keep => s
  | .replace | .create => s.put p.name p.config.kind

end Shape

namespace QueueTree

open Shape

variable {t t' : QueueTree F} {s : Shape} {p : Planned F}

/-- A step is an update or a queue is kept, or there will be a parent to put a new queue under. -/
theorem resolve_cons_eq_ok {rest : List (Planned F)} {steps : List ReloadStep}
    (h : t.resolve s (p :: rest) = .ok steps) :
    ∃ later, steps = t.stepFor s p :: later ∧
      t.resolve (s.after p (t.stepFor s p)) rest = .ok later ∧
      (t.stepFor s p = .update ∨ t.stepFor s p = .keep ∨ s.get? p.parent = some .parent) := by
  unfold resolve at h
  cases hstep : t.stepFor s p with
  | update =>
    simp only [hstep] at h
    cases hrest : t.resolve s rest with
    | error e => simp [hrest, Except.map] at h
    | ok later =>
      simp only [hrest, Except.map, Except.ok.injEq] at h
      exact ⟨later, h.symm, hrest, .inl rfl⟩
  | keep =>
    simp only [hstep] at h
    cases hrest : t.resolve s rest with
    | error e => simp [hrest, Except.map] at h
    | ok later =>
      simp only [hrest, Except.map, Except.ok.injEq] at h
      exact ⟨later, h.symm, hrest, .inr (.inl rfl)⟩
  | replace | create =>
    simp only [hstep] at h
    split at h
    · rename_i hparent
      cases hrest : t.resolve (s.put p.name p.config.kind) rest with
      | error e => simp [hrest, Except.map] at h
      | ok later =>
        simp only [hrest, Except.map, Except.ok.injEq] at h
        exact ⟨later, h.symm, hrest, .inr (.inr hparent)⟩
    · contradiction
    · contradiction

/-- A step that passes goes before those that are resolved after it. -/
theorem resolve_cons {rest : List (Planned F)} {later : List ReloadStep}
    (hstep : t.stepFor s p = .update ∨ t.stepFor s p = .keep ∨ s.get? p.parent = some .parent)
    (hlater : t.resolve (s.after p (t.stepFor s p)) rest = .ok later) :
    t.resolve s (p :: rest) = .ok (t.stepFor s p :: later) := by
  unfold resolve
  cases hcase : t.stepFor s p with
  | update | keep =>
    rw [hcase] at hlater
    change t.resolve s rest = .ok later at hlater
    simp [hlater, Except.map]
  | replace | create =>
    have hparent : s.get? p.parent = some .parent := by simpa [hcase] using hstep
    rw [hcase] at hlater
    change t.resolve (s.put p.name p.config.kind) rest = .ok later at hlater
    simp [hparent, hlater, Except.map]

/-- A queue is updated only if it is there and of the wanted kind. -/
theorem get?_of_stepFor_update (h : t.stepFor s p = .update) :
    s.get? p.name = some p.config.kind := by
  unfold stepFor at h
  split at h
  · contradiction
  · rename_i kind q hkind hq
    split at h
    · rename_i heq
      rw [hkind, heq]
    · split at h <;> contradiction
  · contradiction

/-- A queue is created only if it is not there. -/
theorem get?_of_stepFor_create (h : t.stepFor s p = .create) : s.get? p.name = none := by
  unfold stepFor at h
  split at h
  · assumption
  · split at h
    · contradiction
    · split at h <;> contradiction
  · contradiction

/-- A queue is kept only if it is there, of another kind, and holds applications. -/
theorem of_stepFor_keep (h : t.stepFor s p = .keep) :
    ∃ k q, s.get? p.name = some k ∧ t.find? p.name = some q ∧ k ≠ p.config.kind ∧
      q.isVacant = false := by
  unfold stepFor at h
  split at h
  · contradiction
  · rename_i k q hk hq
    split at h
    · contradiction
    · rename_i hkind
      split at h
      · contradiction
      · rename_i hheld
        exact ⟨k, q, hk, hq, hkind, by simpa using hheld⟩
  · contradiction

/-- A queue that is in the shape and holds applications is updated or kept. -/
theorem stepFor_of_held {k : QueueKind} {q : Queue F} (hk : s.get? p.name = some k)
    (hq : t.find? p.name = some q) (hheld : q.isVacant = false) :
    t.stepFor s p = .update ∨ t.stepFor s p = .keep := by
  unfold stepFor
  rw [hk, hq]
  by_cases hkind : k = p.config.kind <;> simp [hkind, hheld]

/-- A queue that is not in the tree is put there. -/
theorem stepFor_of_find?_eq_none (hq : t.find? p.name = none) :
    t.stepFor s p = .replace ∨ t.stepFor s p = .create := by
  unfold stepFor
  rw [hq]
  cases s.get? p.name <;> simp

/-- A step changes the shape only within the planned queue's name. -/
theorem get?_after_of_not_isWithin (n : String) (hout : Shape.isWithin n p.name = false) (step : ReloadStep) :
    (s.after p step).get? n = s.get? n := by
  have hne : n ≠ p.name := by
    rintro rfl
    simp at hout
  cases step with
  | update | keep => rfl
  | replace | create =>
    change (s.put p.name p.config.kind).get? n = _
    rw [get?_put, if_neg hne, if_neg (by simp [hout])]

/-- A step puts nothing else into the shape than the planned queue. -/
theorem get?_of_get?_after {n : String} {k : QueueKind} {step : ReloadStep} (hne : n ≠ p.name)
    (h : (s.after p step).get? n = some k) : s.get? n = some k := by
  cases step with
  | update | keep => exact h
  | replace | create =>
    change (s.put p.name p.config.kind).get? n = some k at h
    rw [get?_put, if_neg hne] at h
    split at h
    · contradiction
    · exact h

/-! ## What a step does -/

end QueueTree

namespace Planned

/-- The queue that is there already with what is planned for it, and parked applications moved up. -/
def renew (p : Planned F) (q : Queue F) : Queue F := (q.configure p.settings p.policy).promoteParked

/-- Renewing concerns a queue alone. -/
theorem local_renew (p : Planned F) : Queue.Local p.renew :=
  (Queue.local_configure p.settings p.policy).comp .promoteParked

end Planned

namespace QueueTree

open Shape

variable {t u : QueueTree F} {s : Shape} {p : Planned F}

/-- The tree after a step for a planned queue. -/
def afterStep (u : QueueTree F) (p : Planned F) : ReloadStep → QueueTree F
  | .update => u.modify p.name p.renew
  | .keep => u
  | .replace => (u.detach p.name).growPlanned p
  | .create => u.growPlanned p

/-- Whether a reload of one tree has come to a planned queue with another, and can place it. -/
structure Ready (t : QueueTree F) (s : Shape) (u : QueueTree F) (p : Planned F) : Prop where
  wellNamed : u.WellNamed
  agrees : s.Agrees u
  fits : p.Fits
  below : Shape.isWithin p.parent QueueName.root = true
  placed : t.stepFor s p = .update ∨ t.stepFor s p = .keep ∨ s.get? p.parent = some .parent

namespace Ready

/-- A planned queue is not the root. -/
theorem ne_root (h : Ready t s u p) : p.name ≠ QueueName.root := by
  intro hroot
  have hout := h.fits.not_isWithin_top h.below
  rw [hroot, isWithin_self] at hout
  contradiction

/-- A queue that is updated is given its settings and its policy, and then its parked applications
move up. -/
theorem update (h : Ready t s u p) (hstep : t.stepFor s p = .update) :
    u.applyStep p .update = (u.afterStep p .update, .ok ()) ∧ Edits u (u.afterStep p .update) ∧
      ∀ m, (u.afterStep p .update).bare? m =
        if m = p.name then (u.bare? m).map p.renew else u.bare? m := by
  have hkind : u.kindOf? p.name = some p.config.kind := by
    rw [← h.agrees]
    exact get?_of_stepFor_update hstep
  have hset := h.wellNamed.reconfigure_eq hkind p.settings h.fits.appliesTo
  have hboth : (u.modify p.name (Queue.configure p.settings p.policy)).modify p.name
      Queue.promoteParked = u.modify p.name p.renew :=
    modify_modify u p.name _ (Queue.local_configure p.settings p.policy).name
  refine ⟨?_, ?_, (h.wellNamed.modify_local p.local_renew p.name).2⟩
  · unfold Planned.settings at hset hboth
    rw [QueueTree.applyStep, hset]
    exact Prod.ext hboth rfl
  · have happlies : ∀ k, u.kindOf? p.name = some k →
        p.policy.appliesTo (Queue.place (p.name = QueueName.root) k) = true := by
      intro k hk
      rw [hkind] at hk
      rw [← Option.some.inj hk]
      simpa [h.ne_root] using h.fits.appliesTo
    have hpromote : Queue.Similar QueueInfo.fixture
        (u.modify p.name (Queue.configure p.settings p.policy)).root (u.modify p.name p.renew).root := by
      rw [← hboth]
      exact Queue.similar_modify p.name _ fun q _ _ => Queue.similar_promoteParked q
    exact .head (.configure u p.name p.settings p.policy happlies)
      (.single (.similar _ _ _ hpromote (Nat.le_refl _)))

/-- A queue that is placed anew has its parent. -/
theorem kindOf?_parent (h : Ready t s u p) (hstep : t.stepFor s p = .replace ∨ t.stepFor s p = .create) :
    u.kindOf? p.parent = some .parent := by
  rw [← h.agrees]
  obtain hcase | hcase := hstep <;> simpa [hcase] using h.placed

/-- There is room for a queue whose name stands for nothing. -/
theorem room (h : Ready t s u p) (hstep : t.stepFor s p = .create) :
    u.kindOf? p.parent = some .parent ∧ u.kindOf? p.name = none := by
  refine ⟨h.kindOf?_parent (.inr hstep), ?_⟩
  rw [← h.agrees]
  exact get?_of_stepFor_create hstep

/-- There is room for a queue once what was within its name is removed. -/
theorem room_detach (h : Ready t s u p) (hstep : t.stepFor s p = .replace) :
    (u.detach p.name).kindOf? p.parent = some .parent ∧ (u.detach p.name).kindOf? p.name = none := by
  have hkinds := (h.wellNamed.detach (h.fits.not_isWithin_top h.below)).2
  constructor
  · rw [hkinds, if_neg (by simp [h.fits.not_isWithin_parent])]
    exact h.kindOf?_parent (.inl hstep)
  · rw [hkinds, if_pos (isWithin_self p.name)]

/-- A queue that is placed anew takes the place of whatever was within its name. -/
theorem place (h : Ready t s u p) {step : ReloadStep} (hcase : t.stepFor s p = step)
    (hstep : step = .replace ∨ step = .create) :
    u.applyStep p step = (u.afterStep p step, .ok ()) ∧ Edits u (u.afterStep p step) ∧
      ∀ m, (u.afterStep p step).bare? m = if m = p.name then some (p.made u.nextSerial)
        else if Shape.isWithin m p.name then none else u.bare? m := by
  obtain rfl | rfl := hstep
  · have hroot := h.fits.not_isWithin_top h.below
    have hwell := (h.wellNamed.detach hroot).1
    obtain ⟨hstays, hgone⟩ := h.room_detach hcase
    obtain ⟨hcreated, hedit, hbares⟩ := hwell.createPlanned h.fits hstays hgone
    refine ⟨hcreated, .head (.detach u p.name hroot) (.single hedit), ?_⟩
    intro m
    rw [afterStep, hbares, h.wellNamed.bare?_detach hroot]
    rfl
  · obtain ⟨hparent, hfresh⟩ := h.room hcase
    obtain ⟨hcreated, hedit, hbares⟩ := h.wellNamed.createPlanned h.fits hparent hfresh
    refine ⟨hcreated, .single hedit, ?_⟩
    intro m
    rw [afterStep, hbares]
    -- Nothing can be within a name that no queue of the tree bears.
    by_cases hwithin : Shape.isWithin m p.name = true
    · have hnone : u.kindOf? m = none := by
        rw [Option.eq_none_iff_forall_ne_some]
        intro k hk
        obtain ⟨k', hk'⟩ := h.wellNamed.exists_of_isWithin hk hwithin
          (isWithin_trans h.fits.isWithin h.below)
        rw [hfresh] at hk'
        contradiction
      rw [bare?_eq_none_iff.mpr hnone, if_pos hwithin]
    · rw [if_neg hwithin]

/-- A step that passes on the shape is carried out. -/
theorem applyStep (h : Ready t s u p) :
    u.applyStep p (t.stepFor s p) = (u.afterStep p (t.stepFor s p), .ok ()) ∧
      Edits u (u.afterStep p (t.stepFor s p)) := by
  cases hcase : t.stepFor s p with
  | update => exact ⟨(h.update hcase).1, (h.update hcase).2.1⟩
  | keep => exact ⟨rfl, .refl⟩
  | replace =>
    obtain ⟨hdone, hedits, -⟩ := h.place hcase (.inl rfl)
    exact ⟨hdone, hedits⟩
  | create =>
    obtain ⟨hdone, hedits, -⟩ := h.place hcase (.inr rfl)
    exact ⟨hdone, hedits⟩

/-- Shape and tree agree again after a step. -/
theorem agrees_after (h : Ready t s u p) :
    (s.after p (t.stepFor s p)).Agrees (u.afterStep p (t.stepFor s p)) := by
  intro n
  have hsame : s.get? n = (u.bare? n).map Queue.kind := by
    rw [h.agrees, kindOf?_eq_map_bare?]
  have hput : ∀ u' : QueueTree F, (∀ m, u'.bare? m = if m = p.name then some (p.made u.nextSerial)
      else if Shape.isWithin m p.name then none else u.bare? m) →
      (s.put p.name p.config.kind).get? n = u'.kindOf? n := by
    intro u' hbares
    rw [get?_put, kindOf?_eq_map_bare?, hbares, hsame, Planned.made]
    split
    · rw [Option.map_some, Queue.kind_fresh]
    · split <;> rfl
  cases hcase : t.stepFor s p with
  | update =>
    obtain ⟨-, -, hbares⟩ := h.update hcase
    rw [kindOf?_eq_map_bare?, hbares]
    change s.get? n = _
    rw [hsame]
    split
    · cases u.bare? n with
      | none => rfl
      | some b => cases b <;> rfl
    · rfl
  | keep => exact h.agrees n
  | replace => exact hput _ (h.place hcase (.inl rfl)).2.2
  | create => exact hput _ (h.place hcase (.inr rfl)).2.2

end Ready

/-! ## All steps -/

/-- The tree after steps, one after another. -/
def afterSteps (u : QueueTree F) (decided : List (Planned F × ReloadStep)) : QueueTree F :=
  decided.foldl (fun u d => u.afterStep d.1 d.2) u

/-- Steps that were resolved are carried out without fail. What each of them passes on, given that
some queues of the plan are done, holds of the tree afterwards. -/
theorem WellNamed.applySteps {Passed : List (Planned F) → QueueTree F → Prop}
    {done rest : List (Planned F)} {steps : List ReloadStep} (h : u.WellNamed) (hs : s.Agrees u)
    (horder : InOrder QueueName.root (done ++ rest)) (hsteps : t.resolve s rest = .ok steps)
    (hpassed : Passed done u)
    (hpass : ∀ done p rest s u, InOrder QueueName.root (done ++ p :: rest) → Ready t s u p →
      Passed done u → Passed (done ++ [p]) (u.afterStep p (t.stepFor s p))) :
    u.applySteps (rest.zip steps) = (u.afterSteps (rest.zip steps), .ok ()) ∧
      Edits u (u.afterSteps (rest.zip steps)) ∧
      Passed (done ++ rest) (u.afterSteps (rest.zip steps)) := by
  induction rest generalizing s u done steps with
  | nil => simpa [QueueTree.applySteps, afterSteps] using ⟨.refl, hpassed⟩
  | cons p rest ih =>
    obtain ⟨later, rfl, hlater, hplaced⟩ := resolve_cons_eq_ok hsteps
    have hp : p ∈ done ++ p :: rest := by simp
    have hready : Ready t s u p := ⟨h, hs, horder.fits p hp, horder.below p hp, hplaced⟩
    obtain ⟨hdone, hedits⟩ := hready.applyStep
    obtain ⟨hall, hmore, hend⟩ := ih (hedits.wellNamed h) hready.agrees_after
      (by simpa using horder) hlater (hpass done p rest s u horder hready hpassed)
    rw [List.append_assoc, List.singleton_append] at hend
    rw [List.zip_cons_cons, QueueTree.applySteps, hdone]
    exact ⟨hall, hedits.trans hmore, hend⟩

/-! ## The whole reload -/

/-- The tree after a reload by which the steps for the planned queues were decided. -/
def reloaded (t : QueueTree F) (c : QueueConfig F) (policy : Policy) (planned : List (Planned F))
    (steps : List ReloadStep) : QueueTree F :=
  let u := (t.modify QueueName.root (Queue.configure (.ofOptions c.options true) policy)).afterSteps
    (planned.zip steps)
  (u.stale (QueueName.root :: planned.map (·.name))).foldl prune u

/-- What has been decided for a reload that is not refused. -/
structure Decided (t : QueueTree F) (c : QueueConfig F) (policy : Policy)
    (planned : List (Planned F)) (steps : List ReloadStep) : Prop where
  plan : c.plan = .ok planned
  wants : c.policy = .ok policy
  applies : policy.appliesTo Depth.top = true
  inOrder : InOrder QueueName.root planned
  configured : planned.map (fun p => (p.name, p.config)) = c.configured
  resolve : t.resolve (Shape.ofTree t) planned = .ok steps

section Decided

variable {c : QueueConfig F} {policy : Policy} {planned : List (Planned F)}
  {steps : List ReloadStep}

/-- The root is given its settings and its policy first. -/
theorem Decided.configureRoot (hd : Decided t c policy planned steps) (h : t.WellNamed) :
    t.reconfigure QueueName.root true (.ofOptions c.options true) policy =
      (t.modify QueueName.root (Queue.configure (.ofOptions c.options true) policy), .ok ()) ∧
    Edit t (t.modify QueueName.root (Queue.configure (.ofOptions c.options true) policy)) ∧
    (Shape.ofTree t).Agrees
      (t.modify QueueName.root (Queue.configure (.ofOptions c.options true) policy)) := by
  have htop : policy.appliesTo (Queue.place true .parent) = true := hd.applies
  refine ⟨h.reconfigure_eq h.kindOf?_root _ htop, ?_, ?_⟩
  · apply Edit.configure
    intro k hk
    rw [h.kindOf?_root] at hk
    rw [← Option.some.inj hk]
    simpa using htop
  · intro n
    have hkinds := (h.of_similar (Queue.similar_modify QueueName.root t.root fun q _ _ =>
      (Queue.local_configure (.ofOptions c.options true) policy).similar q) t.nextSerial).2 n
    rw [agrees_ofTree h]
    exact hkinds.symm

/-- A reload that is decided on is carried out by edits. What the steps pass on holds of the tree
before the queues that are not wanted are removed. -/
theorem Decided.reload (Passed : List (Planned F) → QueueTree F → Prop)
    (hd : Decided t c policy planned steps) (h : t.WellNamed)
    (hpassed : Passed [] (t.modify QueueName.root (Queue.configure (.ofOptions c.options true) policy)))
    (hpass : ∀ done p rest s u, InOrder QueueName.root (done ++ p :: rest) → Ready t s u p →
      Passed done u → Passed (done ++ [p]) (u.afterStep p (t.stepFor s p))) :
    t.reload c = (t.reloaded c policy planned steps, .ok ()) ∧
      Edits t (t.reloaded c policy planned steps) ∧ ∃ u, Edits t u ∧ Passed planned u ∧
        t.reloaded c policy planned steps =
          (u.stale (QueueName.root :: planned.map (·.name))).foldl prune u := by
  obtain ⟨hset, hedit, hagrees⟩ := hd.configureRoot h
  have hwell := hedit.wellNamed h
  have horder : InOrder QueueName.root ([] ++ planned) := hd.inOrder
  obtain ⟨hdone, hedits, hend⟩ := hwell.applySteps hagrees horder hd.resolve hpassed hpass
  have hbefore : Edits t _ := .head hedit hedits
  have hpruned := (hbefore.wellNamed h).edits_stale
    (List.mem_cons_self : QueueName.root ∈ QueueName.root :: planned.map (·.name))
  refine ⟨?_, hbefore.trans hpruned, _, hbefore, hend, rfl⟩
  simp only [QueueTree.reload, hd.plan, hd.wants, hd.resolve, hset, hdone, bind, Except.bind, pure,
    Except.pure]
  rfl

end Decided

/-- A reload either decides on steps and carries them all out, or fails before it changes anything,
for lack of a plan or because a planned queue cannot be placed. -/
theorem WellNamed.reload_cases (h : t.WellNamed) (c : QueueConfig F) :
    (∃ policy planned steps, Decided t c policy planned steps ∧
      t.reload c = (t.reloaded c policy planned steps, .ok ()) ∧
      Edits t (t.reloaded c policy planned steps)) ∨
    ∃ e, t.reload c = (t, .error e) ∧ (c.plan = .error e ∨
      ∃ planned, c.plan = .ok planned ∧ t.resolve (Shape.ofTree t) planned = .error e) := by
  cases hplan : c.plan with
  | error e =>
    refine .inr ⟨e, ?_, .inl rfl⟩
    simp [QueueTree.reload, hplan, bind, Except.bind]
  | ok planned =>
    obtain ⟨⟨policy, hpolicy, happlies⟩, horder, hconfigured⟩ := QueueConfig.plan_eq_ok hplan
    cases hsteps : t.resolve (Shape.ofTree t) planned with
    | error e =>
      refine .inr ⟨e, ?_, .inr ⟨planned, rfl, hsteps⟩⟩
      simp [QueueTree.reload, hplan, hpolicy, hsteps, bind, Except.bind]
    | ok steps =>
      have hd : Decided t c policy planned steps :=
        ⟨hplan, hpolicy, happlies, horder, hconfigured, hsteps⟩
      obtain ⟨hreload, hedits, -⟩ := hd.reload (fun _ _ => True) h trivial
        fun _ _ _ _ _ _ _ _ => trivial
      exact .inl ⟨policy, planned, steps, hd, hreload, hedits⟩

/-- A reload comes to edits. -/
theorem WellNamed.edits_reload (h : t.WellNamed) (c : QueueConfig F) : Edits t (t.reload c).1 := by
  obtain ⟨policy, planned, steps, -, hreload, hedits⟩ | ⟨e, hreload, -⟩ := h.reload_cases c
  · rw [hreload]
    exact hedits
  · rw [hreload]

end QueueTree

end Allotment
