import Allotment.Proofs.Attempt
import Allotment.Proofs.Policy
import Allotment.Proofs.Queue.Entry

/-!
# Trees in which nobody moves up

Offering a node, asking for a container and giving shares change applications and may put the running
ones of a leaf in another order, but whoever runs still runs and whoever is parked still is, in the same
order and without a container. `Undisturbed` says so of a whole tree, queue by queue, with the limits of the
queues as they were.
-/

namespace Allotment

open scoped List

variable {F : Type}

/-! ## One application -/

namespace Attempt

/-- Whether an application is the same as another, and holds nothing if the other did not. -/
structure Waits (a b : Attempt F) : Prop where
  serial : b.serial = a.serial
  live : a.live = [] → b.live = []

namespace Waits

variable {a b c : Attempt F}

/-- An application waits while nothing happens. -/
theorem refl (a : Attempt F) : Waits a a := ⟨rfl, fun hlive => hlive⟩

/-- An application may wait on and on. -/
theorem trans (h : Waits a b) (h' : Waits b c) : Waits a c :=
  ⟨h'.serial.trans h.serial, fun hlive => h'.live (h.live hlive)⟩

end Waits

/-- Applications that are the same, one by one, bear the same serial numbers. -/
theorem map_serial_of_forall₂ {as bs : List (Attempt F)}
    (h : List.Forall₂ (fun a b => b.serial = a.serial) as bs) : bs.map serial = as.map serial := by
  induction h with
  | nil => rfl
  | cons hserial _ ih => rw [List.map_cons, List.map_cons, hserial, ih]

/-- An application that gives a container back waits. -/
theorem waits_release (a : Attempt F) (i : ℕ) : Waits a (a.release i).1 := by
  unfold release
  split
  · exact .refl a
  · rename_i c hfound
    refine ⟨rfl, fun hlive => ?_⟩
    rw [hlive] at hfound
    simp at hfound

/-- An application that gives back what it has on a node waits. -/
theorem waits_releaseNode (a : Attempt F) (node : String) : Waits a (a.releaseNode node) := by
  unfold releaseNode
  generalize (a.live.filter fun c => c.node = node) = cs
  induction cs generalizing a with
  | nil => exact .refl a
  | cons c rest ih => exact (a.waits_release c.id).trans (ih _)

/-- An application that gives back everything waits. -/
theorem waits_releaseAll (a : Attempt F) : Waits a a.releaseAll.1 := ⟨rfl, fun _ => rfl⟩

/-- An application that is asked for a container waits. -/
theorem waits_preempt (a : Attempt F) : Waits a a.preempt.1 := by
  unfold preempt
  split
  · exact .refl a
  · exact ⟨rfl, fun hlive => hlive⟩

/-- An application that asks for something waits. -/
theorem waits_ask [Scalar F] (a : Attempt F) (r : Request) : Waits a (a.ask r) := by
  unfold ask
  dsimp only
  split <;> exact ⟨rfl, fun hlive => hlive⟩

/-- An application that is offered a node stays the same. -/
theorem serial_assign (a : Attempt F) (p : Placement F) : (a.assign p).subject.serial = a.serial := by
  unfold assign
  split
  · rfl
  · split
    · rfl
    · unfold takeOne
      split <;> rfl

end Attempt

/-! ## One queue -/

namespace Queue

open Attempt (Waits)

/-- Whether a queue has the limit of another and the same applications run and wait in it, those that
wait in the same order and without a container if they had none. -/
structure KeepsPlaces (q q' : Queue F) : Prop where
  name : q'.name = q.name
  limit : q'.info.settings.limit = q.info.settings.limit
  runnable : q'.runnable.map Attempt.serial ~ q.runnable.map Attempt.serial
  parked : q'.parked.map Attempt.serial = q.parked.map Attempt.serial
  idle : (∀ a ∈ q.parked, a.live = []) → ∀ a ∈ q'.parked, a.live = []

namespace KeepsPlaces

variable {q q' q'' : Queue F}

/-- Places are kept while nothing happens. -/
theorem refl (q : Queue F) : KeepsPlaces q q := ⟨rfl, rfl, .refl _, rfl, id⟩

/-- Places may be kept on and on. -/
theorem trans (h : KeepsPlaces q q') (h' : KeepsPlaces q' q'') : KeepsPlaces q q'' :=
  ⟨h'.name.trans h.name, h'.limit.trans h.limit, h'.runnable.trans h.runnable,
    h'.parked.trans h.parked, fun hidle => h'.idle (h.idle hidle)⟩

/-- Applications of a leaf that change one by one, the parked ones while they wait, keep their places. -/
theorem of_forall₂ {info info' : QueueInfo F} {runnable ranked runnable' parked parked' : List (Attempt F)}
    (hname : info'.name = info.name) (hlimit : info'.settings.limit = info.settings.limit)
    (hranked : ranked ~ runnable)
    (hrunnable : List.Forall₂ (fun a b => b.serial = a.serial) ranked runnable')
    (hparked : List.Forall₂ Waits parked parked') :
    KeepsPlaces (leaf info runnable parked) (leaf info' runnable' parked') := by
  refine ⟨hname, hlimit, ?_, ?_, fun hidle b hb => ?_⟩
  · change runnable'.map Attempt.serial ~ runnable.map Attempt.serial
    rw [Attempt.map_serial_of_forall₂ hrunnable]
    exact hranked.map _
  · exact Attempt.map_serial_of_forall₂ (hparked.imp fun _ _ hwaits => hwaits.serial)
  · obtain ⟨a, ha, hwaits⟩ := exists_of_forall₂ hparked hb
    exact hwaits.live (hidle a ha)

/-- A leaf whose running applications change one by one keeps its places. -/
theorem of_runnable {info info' : QueueInfo F} {runnable ranked runnable' : List (Attempt F)}
    (hname : info'.name = info.name) (hlimit : info'.settings.limit = info.settings.limit)
    (hranked : ranked ~ runnable)
    (hrunnable : List.Forall₂ (fun a b => b.serial = a.serial) ranked runnable')
    (parked : List (Attempt F)) :
    KeepsPlaces (leaf info runnable parked) (leaf info' runnable' parked) :=
  of_forall₂ hname hlimit hranked hrunnable (List.forall₂_same.mpr fun a _ => .refl a)

end KeepsPlaces

/-! ## Whole trees -/

/-- Whether in every queue of a tree the applications have kept the places that they had in another. -/
def Undisturbed (q q' : Queue F) : Prop := ∀ b' ∈ q'.bares, ∃ b ∈ q.bares, b.KeepsPlaces b'

namespace Undisturbed

variable {q q' q'' : Queue F}

/-- A tree is undisturbed while nothing happens. -/
theorem refl (q : Queue F) : Undisturbed q q := fun b hb => ⟨b, hb, .refl b⟩

/-- A tree may be left undisturbed on and on. -/
theorem trans (h : Undisturbed q q') (h' : Undisturbed q' q'') : Undisturbed q q'' := by
  intro b'' hb''
  obtain ⟨b', hb', hkeeps'⟩ := h' b'' hb''
  obtain ⟨b, hb, hkeeps⟩ := h b' hb'
  exact ⟨b, hb, hkeeps.trans hkeeps'⟩

/-- A leaf is undisturbed if it keeps its places. -/
theorem of_leaf {info info' : QueueInfo F} {runnable runnable' parked parked' : List (Attempt F)}
    (h : KeepsPlaces (leaf info runnable parked) (leaf info' runnable' parked')) :
    Undisturbed (leaf info runnable parked) (leaf info' runnable' parked') := by
  intro b' hb'
  rw [bares_leaf, List.mem_singleton] at hb'
  rw [hb', bares_leaf]
  exact ⟨_, List.mem_singleton_self _, h⟩

/-- A parent is undisturbed if its children are, in whatever order they are then. -/
theorem of_parent {info info' : QueueInfo F} {children renewed children' : List (Queue F)}
    (hname : info'.name = info.name) (hlimit : info'.settings.limit = info.settings.limit)
    (hall : List.Forall₂ Undisturbed children renewed) (hperm : renewed ~ children') :
    Undisturbed (parent info children) (parent info' children') := by
  intro b' hb'
  rw [bares_parent, List.mem_cons] at hb'
  rw [bares_parent]
  obtain rfl | hb' := hb'
  · exact ⟨_, List.mem_cons_self, hname, hlimit, .refl _, rfl, id⟩
  · obtain ⟨c', hc', hb'⟩ := List.mem_flatMap.mp hb'
    obtain ⟨c, hc, hkept⟩ := exists_of_forall₂ hall (hperm.mem_iff.mpr hc')
    obtain ⟨b, hb, hkeeps⟩ := hkept b' hb'
    exact ⟨b, List.mem_cons_of_mem _ (List.mem_flatMap.mpr ⟨c, hc, hb⟩), hkeeps⟩

/-- A parent whose children change one by one is undisturbed if they are. -/
theorem of_map (info : QueueInfo F) (children : List (Queue F)) {f : Queue F → Queue F}
    (hf : ∀ q ∈ children, Undisturbed q (f q)) :
    Undisturbed (parent info children) (parent info (children.map f)) := by
  refine of_parent rfl rfl ?_ (.refl _)
  rw [List.forall₂_map_right_iff, List.forall₂_same]
  exact hf

end Undisturbed

/-- A tree is undisturbed if the queues of a name are that change. -/
theorem undisturbed_modify (n : String) {f : Queue F → Queue F} (q : Queue F)
    (hf : ∀ r ∈ q.all, r.name = n → Undisturbed r (f r)) : Undisturbed q (q.modify n f) := by
  induction q using Queue.induction with
  | leaf info runnable parked =>
    rw [modify_leaf]
    split
    · rename_i hname
      exact hf _ (mem_all_self _) hname
    · exact .refl _
  | parent info children ih =>
    rw [modify_parent]
    split
    · rename_i hname
      exact hf _ (mem_all_self _) hname
    · apply Undisturbed.of_map
      intro c hc
      exact ih c hc fun r hr => hf r (mem_all_of_child hc hr)

/-- Changing the common part of a queue, but neither name nor limit, disturbs nobody. -/
theorem undisturbed_withInfo {f : QueueInfo F → QueueInfo F} (hname : ∀ info, (f info).name = info.name)
    (hlimit : ∀ info, (f info).settings.limit = info.settings.limit) (q : Queue F) :
    Undisturbed q (q.withInfo f) := by
  cases q with
  | leaf info runnable parked =>
    exact .of_leaf ⟨hname info, hlimit info, .refl _, rfl, id⟩
  | parent info children =>
    exact .of_parent (hname info) (hlimit info) (List.forall₂_same.mpr fun q _ => .refl q) (.refl _)

/-- When every application changes while it waits, nobody is disturbed. -/
theorem undisturbed_mapAttempts {f : Attempt F → Attempt F} (q : Queue F)
    (hf : ∀ a ∈ q.attempts, a.Waits (f a)) : Undisturbed q (q.mapAttempts f) := by
  induction q using Queue.induction with
  | leaf info runnable parked =>
    rw [attempts_leaf] at hf
    rw [mapAttempts_leaf]
    refine .of_leaf (.of_forall₂ rfl rfl (.refl runnable) ?_ ?_)
    · rw [List.forall₂_map_right_iff, List.forall₂_same]
      exact fun a ha => (hf a (List.mem_append_left _ ha)).serial
    · rw [List.forall₂_map_right_iff, List.forall₂_same]
      exact fun a ha => hf a (List.mem_append_right _ ha)
  | parent info children ih =>
    rw [mapAttempts_parent]
    apply Undisturbed.of_map
    intro c hc
    refine ih c hc fun a ha => hf a ?_
    rw [attempts_parent]
    exact List.mem_flatMap.mpr ⟨c, hc, ha⟩

section Shares

variable [Scalar F]

/-- Giving fair shares disturbs nobody. -/
theorem undisturbed_giveFair (q : Queue F) (share : Resource) : Undisturbed q (q.giveFair share) := by
  induction q using Queue.induction generalizing share with
  | leaf info runnable parked =>
    rw [giveFair, fold_leaf]
    refine .of_leaf (.of_runnable ?_ ?_ (.refl runnable) (forall₂_zipWith ?_ ?_) parked)
    · rfl
    · rfl
    · rw [length_shares, List.length_map]
    · exact fun _ _ _ => rfl
  | parent info children ih =>
    rw [giveFair_parent]
    refine .of_parent rfl rfl (forall₂_zipWith ?_ ?_) (.refl _)
    · rw [fairShares, length_shares, List.length_map]
    · exact ih

/-- Giving steady shares disturbs nobody. -/
theorem undisturbed_giveSteady (q : Queue F) (share : Resource) :
    Undisturbed q (q.giveSteady share) := by
  induction q using Queue.induction generalizing share with
  | leaf info runnable parked =>
    rw [giveSteady_leaf]
    exact .of_leaf ⟨rfl, rfl, .refl _, rfl, id⟩
  | parent info children ih =>
    rw [giveSteady_parent]
    refine .of_parent rfl rfl (forall₂_zipWith ?_ ?_) (.refl _)
    · rw [steadyShares, length_shares, List.length_map]
    · exact ih

omit [Scalar F] in
/-- Bringing demands up to date disturbs nobody. -/
theorem undisturbed_updateDemand (q : Queue F) : Undisturbed q q.updateDemand := by
  induction q using Queue.induction with
  | leaf info runnable parked =>
    have hmembers := forall₂_renewUntil (R := Waits) Attempt.demand info.settings.maxShare 0
      ((runnable ++ parked).map fun a => (a, a.updateDemand)) (by
        intro e he
        obtain ⟨a, -, rfl⟩ := List.mem_map.mp he
        exact ⟨.refl a, rfl, fun hlive => hlive⟩)
    rw [List.map_map, Function.comp_def, List.map_id'] at hmembers
    have hrunnable := List.forall₂_take runnable.length hmembers
    have hparked := List.forall₂_drop runnable.length hmembers
    rw [List.take_left] at hrunnable
    rw [List.drop_left] at hparked
    rw [updateDemand, fold_leaf]
    exact .of_leaf (.of_forall₂ rfl rfl (.refl runnable) (hrunnable.imp fun _ _ h => h.serial) hparked)
  | parent info children ih =>
    have hmembers := forall₂_renewUntil (R := Undisturbed)
      (fun q : Queue F => q.info.demand) info.settings.maxShare 0
      (children.map fun q => (q, q.updateDemand)) (by
        intro e he
        obtain ⟨q, hq, rfl⟩ := List.mem_map.mp he
        exact ⟨.refl q, ih q hq⟩)
    rw [List.map_map, Function.comp_def, List.map_id'] at hmembers
    rw [updateDemand_parent]
    exact .of_parent rfl rfl hmembers (.refl _)

end Shares

section Assignment

variable [Scalar F]

/-- Offering a node disturbs nobody. -/
theorem undisturbed_assign (cluster : Resource) (q : Queue F) (p : Placement F) :
    Undisturbed q (q.assign cluster p).subject := by
  induction q using Queue.induction generalizing p with
  | leaf info runnable parked =>
    let ranked := info.policy.sort cluster Attempt.standing runnable
    have hranked : ranked ~ runnable := info.policy.sort_perm cluster Attempt.standing runnable
    have hserved := forall₂_serveFirst (R := fun a b : Attempt F => b.serial = a.serial)
      (ranked.map fun a => (a, a.assign)) p (by
        intro e he
        obtain ⟨a, -, rfl⟩ := List.mem_map.mp he
        exact ⟨rfl, a.serial_assign⟩)
    rw [List.map_map, Function.comp_def, List.map_id'] at hserved
    rw [assign, fold_leaf]
    dsimp only
    split
    · exact .of_leaf (.of_runnable rfl rfl hranked hserved parked)
    · exact .refl _
  | parent info children ih =>
    let ranked := info.policy.sort cluster (fun e => e.1.standing)
      (children.map fun q => (q, q.assign cluster))
    have hranked : ranked ~ children.map fun q => (q, q.assign cluster) := List.mergeSort_perm _ _
    have hserved := forall₂_serveFirst (R := Undisturbed) ranked p (by
      intro e he
      obtain ⟨r, hr, rfl⟩ := List.mem_map.mp (hranked.mem_iff.mp he)
      exact ⟨.refl r, ih r hr⟩)
    have hchildren := (hranked.map (·.1)).symm
    rw [List.map_map, Function.comp_def, List.map_id'] at hchildren
    rw [assign_parent]
    split
    · obtain ⟨renewed, hrenewed, hperm⟩ := List.perm_comp_forall₂ hchildren hserved
      exact .of_parent rfl rfl hrenewed hperm
    · exact .refl _

/-- Asking a container back disturbs nobody. -/
theorem undisturbed_preempt (cluster : Resource) (q : Queue F) (isOver : Resource → Resource → Bool) :
    Undisturbed q (q.preempt cluster isOver).1 := by
  induction q using Queue.induction generalizing isOver with
  | leaf info runnable parked =>
    rw [preempt, fold_leaf]
    dsimp only
    split
    · refine .of_leaf (.of_runnable rfl rfl (.refl runnable) ?_ parked)
      unfold askAt
      split
      · rename_i a i ha hi
        rw [hi] at ha
        exact forall₂_set (fun _ _ => rfl) ha a.waits_preempt.serial
      · exact List.forall₂_same.mpr fun _ _ => rfl
    · exact .refl _
  | parent info children ih =>
    rw [preempt_parent]
    split
    · rename_i i q hlast
      obtain ⟨j, -, hj⟩ := Option.bind_eq_some_iff.mp hlast
      obtain ⟨r, hr, heq⟩ := Option.map_eq_some_iff.mp hj
      obtain ⟨rfl, rfl⟩ := Prod.mk.inj heq
      refine .of_parent rfl rfl (forall₂_set (fun q _ => .refl q) hr ?_) (.refl _)
      exact ih r (List.mem_of_getElem? hr) _
    · exact .refl _

end Assignment

end Queue

/-- A queue that is put in the place of one that was found disturbs nobody if it keeps the places that were
in that. -/
theorem QueueTree.WellNamed.undisturbed_found {t : QueueTree F} (h : t.WellNamed) {n : String}
    {q q' : Queue F} (hfind : t.find? n = some q) (hkept : q.Undisturbed q') :
    t.root.Undisturbed (t.modify n fun _ => q').root := by
  change t.root.Undisturbed (t.root.modify n fun _ => q')
  apply Queue.undisturbed_modify
  intro r hr hname
  have hfound : t.find? n = some r := h.root.find?_eq_some_iff.mpr ⟨hr, hname⟩
  obtain rfl := Option.some.inj (hfind.symm.trans hfound)
  exact hkept

end Allotment
