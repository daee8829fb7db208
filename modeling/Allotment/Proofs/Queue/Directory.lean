import Allotment.Proofs.Queue.Coherence

/-!
# Directories that come about

A directory is made from a configuration, and after that everything that is done to a tree is done to
it. What it does to its tree is what the tree does by itself, and index, links and tree go together
at every moment.
-/

namespace Allotment

open QueueName Shape

variable {F : Type}

namespace Directory

variable {d d₀ : Directory F} {n : String} {h : Handle}

/-! ## Reloading -/

/-- The measure of a step for a planned queue. -/
def measure (d : Directory F) (p : Planned F) : ReloadStep → Measure
  | .update => .update ((d.index.get? p.name).getD d.top)
  | .replace => .replace
  | .keep => .keep ((d.index.get? p.name).getD d.top)
  | .create => .create

namespace Coherent

/-- What is to happen to a planned queue is decided on the index as on the tree. -/
theorem measureFor_eq (hd : d.Coherent) (s : Shape) (p : Planned F) :
    d.measureFor s p = d.measure p (d.tree.stepFor s p) := by
  unfold measureFor QueueTree.stepFor
  cases hs : s.get? p.name with
  | none => rfl
  | some kind =>
    cases hn : d.index.get? p.name with
    | none =>
      have hnone : d.tree.find? p.name = none := by
        have hfound := hd.index p.name
        rw [hn, QueueTree.bare?, Option.map_map, eq_comm, Option.map_eq_none_iff] at hfound
        exact hfound
      rw [hnone]
      rfl
    | some h =>
      obtain ⟨q, hq, -⟩ := hd.exists_find? hn
      rw [hq]
      simp only [hd.isVacant_eq hn hq]
      split
      · simp [measure, hn]
      · split <;> simp [measure, hn]

/-- The measures of a reload are decided on the index as the steps are on the tree. -/
theorem resolve_eq (hd : d.Coherent) (s : Shape) (planned : List (Planned F)) :
    d.resolve s planned =
      (d.tree.resolve s planned).map fun steps => List.zipWith d.measure planned steps := by
  induction planned generalizing s with
  | nil => rfl
  | cons p rest ih =>
    unfold Directory.resolve QueueTree.resolve
    rw [hd.measureFor_eq]
    cases d.tree.stepFor s p with
    | update | keep =>
      simp only [measure, ih]
      cases d.tree.resolve s rest <;> rfl
    | replace | create =>
      simp only [measure, ih]
      cases s.get? p.parent with
      | none => rfl
      | some kind =>
        cases kind with
        | leaf => rfl
        | parent => cases d.tree.resolve (s.put p.name p.config.kind) rest <;> rfl

/-- The index has the shape of the tree. -/
theorem shape_eq (hd : d.Coherent) : d.shape = Shape.ofTree d.tree := by
  apply Table.ext_get?
  intro n
  rw [agrees_ofTree hd.sound.wellNamed, hd.kindOf?]
  unfold Directory.shape Table.map
  rw [Table.get?_filterMap]
  cases d.index.get? n <;> rfl

/-- Settings and policy are given by reference as by name. -/
theorem reconfigure_eq (hd : d.Coherent) (hn : d.index.get? n = some h) (isRoot : Bool)
    (settings : QueueSettings F) (policy : Policy) :
    d.reconfigure h isRoot settings policy =
      (d.withTree (d.tree.reconfigure n isRoot settings policy).1,
        (d.tree.reconfigure n isRoot settings policy).2) := by
  have hlocal : Queue.Local fun q : Queue F => q.withInfo ({ · with settings := settings }) :=
    .withInfo fun _ => rfl
  have hset : (d.withTree (d.tree.modify n
      fun q => q.withInfo ({ · with settings := settings }))).Coherent := by
    apply hd.modify hlocal
    · exact fun q => by cases q <;> rfl
    · intro b hb
      have happlies := hd.sound.applies n b hb
      cases b <;> exact happlies
  unfold Directory.reconfigure QueueTree.reconfigure
  simp only [hd.change_eq hn, hset.at?_eq hn, hset.change_eq hn]
  have htree : (d.withTree (d.tree.modify n
      fun q => q.withInfo ({ · with settings := settings }))).tree =
        d.tree.modify n fun q => q.withInfo ({ · with settings := settings }) := rfl
  simp only [htree]
  cases (d.tree.modify n fun q => q.withInfo ({ · with settings := settings })).find? n with
  | none => rfl
  | some q =>
    cases hpolicy : q.setPolicy isRoot policy with
    | ok changed => simp only [hpolicy]; rfl
    | error e => simp only [hpolicy]

/-- A queue is given settings and a policy that applies, and the directory stays coherent. -/
theorem configure (hd : d.Coherent) (hn : d.index.get? n = some h) (settings : QueueSettings F)
    {isRoot : Bool} (hroot : isRoot = decide (n = QueueName.root)) {policy : Policy}
    (happlies : policy.appliesTo (Queue.place isRoot h.kind) = true) :
    d.reconfigure h isRoot settings policy =
        (d.withTree (d.tree.modify n (Queue.configure settings policy)), .ok ()) ∧
      (d.withTree (d.tree.modify n (Queue.configure settings policy))).Coherent := by
  have hkind : d.tree.kindOf? n = some h.kind := by rw [hd.kindOf?, hn, Option.map_some]
  constructor
  · rw [hd.reconfigure_eq hn, hd.sound.wellNamed.reconfigure_eq hkind settings happlies]
  · apply hd.modify (Queue.local_configure settings policy)
    · exact fun q => by cases q <;> rfl
    · intro b hb
      rw [QueueTree.kindOf?_eq_map_bare?, hb, Option.map_some, Option.some.injEq] at hkind
      rw [hkind, ← hroot]
      cases b <;> exact happlies

/-- Parked applications of a leaf move up, and the directory stays coherent. -/
theorem promote (hd : d.Coherent) (hn : d.index.get? n = some h) :
    ∃ d', (if h.kind = .leaf then d.change h Queue.promoteParked else d) = d' ∧ d'.Coherent ∧
      d'.tree = d.tree.modify n Queue.promoteParked := by
  obtain ⟨b, hb, -, hkind⟩ := hd.exists_bare? hn
  by_cases hleaf : h.kind = .leaf
  · refine ⟨_, rfl, ?_⟩
    rw [if_pos hleaf, hd.change_eq hn]
    refine ⟨?_, rfl⟩
    apply hd.modify .promoteParked
    · exact fun q => by cases q <;> rfl
    · intro b hb
      have happlies := hd.sound.applies n b hb
      cases b <;> exact happlies
  · refine ⟨d, if_neg hleaf, hd, ?_⟩
    rw [hd.sound.wellNamed.modify_eq_self .promoteParked]
    intro a ha
    rw [hb, Option.some.injEq] at ha
    cases a with
    | leaf info runnable parked =>
      rw [ha] at hkind
      exact absurd hkind.symm hleaf
    | parent info children => rfl

/-- A measure is carried out on the index as the step is on the tree. -/
theorem applyMeasure {top : Option (Queue F)} {done rest : List (Planned F)} {p : Planned F}
    {s : Shape} (hd₀ : d₀.Coherent) (hd : d.Coherent)
    (horder : InOrder QueueName.root (done ++ p :: rest))
    (hready : QueueTree.Ready d₀.tree s d.tree p) (hpassed : d₀.tree.Passed top done d.tree) :
    Yields (d.applyMeasure p (d₀.measure p (d₀.tree.stepFor s p)))
      (d.tree.afterStep p (d₀.tree.stepFor s p)) := by
  cases hcase : d₀.tree.stepFor s p with
  | update =>
    have hk := QueueTree.get?_of_stepFor_update hcase
    rw [hready.get?_eq_map_bare?] at hk
    obtain ⟨b, hb, hkind⟩ := Option.map_eq_some_iff.mp hk
    -- The queue that was found when the measure was decided on is still there.
    have hfound : d₀.index.get? p.name = some b.handle := by
      rw [hd₀.index, hready.bare?_before horder hpassed hb, Option.map_some]
    have hn : d.index.get? p.name = some b.handle := by rw [hd.index, hb, Option.map_some]
    have happlies : p.policy.appliesTo (Queue.place false b.handle.kind) = true := by
      rw [Queue.handle, hkind]
      exact hready.fits.appliesTo
    obtain ⟨hset, hd'⟩ := hd.configure hn p.settings (by simp [hready.ne_root]) happlies
    obtain ⟨d'', hpromoted, hd'', htree⟩ := hd'.promote hn
    refine ⟨d'', ?_, hd'', ?_⟩
    · unfold Planned.settings at hset hpromoted
      simp only [measure, hfound, Option.getD_some, Directory.applyMeasure, hset, hpromoted]
    · rw [htree]
      exact QueueTree.modify_modify d.tree p.name _ (Queue.local_configure p.settings p.policy).name
  | keep => exact ⟨d, rfl, hd, rfl⟩
  | replace =>
    obtain ⟨b, hb, -⟩ := hready.replaces horder hpassed hcase
    have hn : d.index.get? p.name = some b.handle := by rw [hd.index, hb, Option.map_some]
    obtain ⟨hd', htree⟩ := hd.detach hn (hready.fits.not_isWithin_top hready.below)
    obtain ⟨hstays, hgone⟩ := hready.room_detach hcase
    rw [← htree] at hstays hgone
    have hcreated := hd'.createPlanned hready.fits hstays hgone
    rw [htree] at hcreated
    exact hcreated
  | create =>
    obtain ⟨hparent, hfresh⟩ := hready.room hcase
    exact hd.createPlanned hready.fits hparent hfresh

/-- Measures are carried out on the index as steps are on the tree. -/
theorem applyMeasures {top : Option (Queue F)} {done rest : List (Planned F)} {s : Shape}
    {steps : List ReloadStep} (hd₀ : d₀.Coherent) (hd : d.Coherent) (hs : s.Agrees d.tree)
    (horder : InOrder QueueName.root (done ++ rest)) (hsteps : d₀.tree.resolve s rest = .ok steps)
    (hpassed : d₀.tree.Passed top done d.tree) :
    Yields (d.applyMeasures (rest.zip (List.zipWith d₀.measure rest steps)))
      (d.tree.afterSteps (rest.zip steps)) := by
  induction rest generalizing s d done steps with
  | nil => exact ⟨d, rfl, hd, rfl⟩
  | cons p rest ih =>
    obtain ⟨later, rfl, hlater, hplaced⟩ := QueueTree.resolve_cons_eq_ok hsteps
    have hp : p ∈ done ++ p :: rest := by simp
    have hready : QueueTree.Ready d₀.tree s d.tree p :=
      ⟨hd.sound.wellNamed, hs, horder.fits p hp, horder.below p hp, hplaced⟩
    obtain ⟨d', hdone, hd', htree⟩ := hd₀.applyMeasure hd horder hready hpassed
    have hagrees := hready.agrees_after
    have hnext := hready.passes hd₀.sound.wellNamed horder hpassed
    rw [← htree] at hagrees hnext
    have hrest := ih hd' hagrees (by simpa using horder) hlater hnext
    rw [htree] at hrest
    rw [List.zipWith_cons_cons, List.zip_cons_cons, Directory.applyMeasures, hdone]
    exact hrest

/-- A reload of a directory is carried out as that of its tree, or refused as that, and then the directory is
as it was. -/
theorem reload_cases (hd : d.Coherent) (c : QueueConfig F) :
    (∃ d', d.reload c = (d', .ok ()) ∧ d'.Coherent ∧ d.tree.reload c = (d'.tree, .ok ())) ∨
      ∃ e, d.reload c = (d, .error e) ∧ d.tree.reload c = (d.tree, .error e) := by
  obtain ⟨policy, planned, steps, hdecided, htree, -⟩ | ⟨e, htree, hcause⟩ :=
    hd.sound.wellNamed.reload_cases c
  · have htop : policy.appliesTo (Queue.place true d.top.kind) = true := hdecided.applies
    have hroot : true = decide (QueueName.root = QueueName.root) := rfl
    obtain ⟨hset, hd'⟩ := hd.configure hd.index_root (.ofOptions c.options true) hroot htop
    obtain ⟨-, -, hagrees⟩ := hdecided.configureRoot hd.sound.wellNamed
    have horder : InOrder QueueName.root ([] ++ planned) := hdecided.inOrder
    obtain ⟨d', hdone, hcoherent, hafter⟩ := hd.applyMeasures hd' hagrees horder hdecided.resolve
      (hd.sound.wellNamed.passed_nil c policy)
    have hstale : d'.stale (QueueName.root :: planned.map (·.name)) =
        d'.tree.stale (QueueName.root :: planned.map (·.name)) := by
      rw [stale, hcoherent.keys_eq]
      rfl
    obtain ⟨hpruned, hleft⟩ := hcoherent.pruneAll fun n hn =>
      hcoherent.sound.wellNamed.isWithin_of_stale (List.mem_cons_self : QueueName.root ∈
        QueueName.root :: planned.map (·.name)) hn
    refine .inl ⟨_, ?_, hpruned, ?_⟩
    · rw [← hstale]
      simp only [Directory.reload, hdecided.plan, hdecided.wants, hd.shape_eq, hd.resolve_eq,
        hdecided.resolve, Except.map, hset, hdone, bind, Except.bind, pure, Except.pure]
    · rw [htree, hleft, hafter]
      rfl
  · refine .inr ⟨e, ?_, htree⟩
    obtain hplan | ⟨planned, hplan, hunplaced⟩ := hcause
    · simp [Directory.reload, hplan, bind, Except.bind]
    · obtain ⟨⟨policy, hpolicy, -⟩, -⟩ := QueueConfig.plan_eq_ok hplan
      simp [Directory.reload, hplan, hpolicy, hd.shape_eq, hd.resolve_eq, hunplaced, Except.map,
        bind, Except.bind]

/-- A reload does to a directory what it does to its tree. -/
theorem reload (hd : d.Coherent) (c : QueueConfig F) :
    (d.reload c).1.Coherent ∧ (d.reload c).1.tree = (d.tree.reload c).1 ∧
      (d.reload c).2 = (d.tree.reload c).2 := by
  obtain ⟨d', hreload, hd', htree⟩ | ⟨e, hreload, htree⟩ := hd.reload_cases c
  · rw [hreload, htree]
    exact ⟨hd', rfl, rfl⟩
  · rw [hreload, htree]
    exact ⟨hd, rfl, rfl⟩

end Coherent

/-- The directory of a new root alone is coherent. -/
theorem coherent_ofRoot (c : QueueConfig F) {policy : Policy}
    (happlies : policy.appliesTo Depth.top = true) :
    (ofRoot (QueueTree.seed c policy).root).Coherent := by
  have hbares : ∀ n, (ofRoot (QueueTree.seed c policy).root).tree.bare? n = _ :=
    QueueTree.bare?_seed c policy
  refine ⟨QueueTree.sound_seed c happlies, ?_, ?_, fun _ _ => rfl⟩
  · intro n
    rw [hbares, ofRoot, Table.get?_insert]
    by_cases hn : n = QueueName.root
    · rw [if_pos hn, if_pos hn.symm]
      rfl
    · rw [if_neg hn, if_neg (Ne.symm hn)]
      rfl
  · intro n part b _ hb
    rw [hbares, if_neg (child_ne_root n part)] at hb
    contradiction

/-- The directory of a configuration is coherent, and its tree is that of the configuration, unless
both are refused for the same reason. -/
theorem ofConfig_cases (c : QueueConfig F) :
    (∃ d, ofConfig c = .ok d ∧ d.Coherent ∧ QueueTree.ofConfig c = .ok d.tree) ∨
      ∃ e, ofConfig c = .error e ∧ QueueTree.ofConfig c = .error e := by
  cases hplan : c.plan with
  | error e =>
    refine .inr ⟨e, ?_, ?_⟩
    · simp [ofConfig, hplan, bind, Except.bind]
    · simp [QueueTree.ofConfig, hplan, bind, Except.bind]
  | ok planned =>
    obtain ⟨⟨policy, hpolicy, happlies⟩, horder, -⟩ := QueueConfig.plan_eq_ok hplan
    have hnew : Queue.new? .parent true QueueName.root (.ofOptions c.options true) policy 0 =
        .ok (QueueTree.seed c policy).root :=
      (Queue.new?_eq_ok_iff _ _ _ _ _).mpr ⟨happlies, rfl⟩
    obtain ⟨d, hcreated, hd, htree⟩ :=
      (coherent_ofRoot c happlies).createAll (QueueTree.built_seed c policy) horder
    refine .inl ⟨d, ?_, hd, ?_⟩
    · simp only [ofConfig, hplan, hpolicy, hnew, hcreated, bind, Except.bind, pure, Except.pure]
    · rw [htree]
      exact (QueueTree.ofConfig_of_plan hplan hpolicy happlies).1

/-! ## On demand -/

/-- Whether a queue has been found in a directory as in a tree, or not for the same reason. -/
structure Finds (r : Directory F × Except Error Handle) (s : QueueTree F × Except Error String) :
    Prop where
  coherent : r.1.Coherent
  tree : r.1.tree = s.1
  found : ∀ full, s.2 = .ok full → ∃ h, r.2 = .ok h ∧ r.1.index.get? full = some h
  refused : ∀ e, s.2 = .error e → r.2 = .error e

/-- What the index has under a name is found without more ado. -/
theorem Coherent.finds (hd : d.Coherent) (hn : d.index.get? n = some h) :
    Finds (d, .ok h) (d.tree, .ok n) := by
  refine ⟨hd, rfl, ?_, ?_⟩
  · intro full hfull
    rw [← Except.ok.inj hfull]
    exact ⟨h, rfl, hn⟩
  · intro e he
    contradiction

/-- A directory that refuses what its tree refuses stays as it is. -/
theorem Coherent.refuses (hd : d.Coherent) (e : Error) : Finds (d, .error e) (d.tree, .error e) := by
  refine ⟨hd, rfl, ?_, ?_⟩
  · intro full hfull
    contradiction
  · intro e' he'
    rw [Except.error.inj he']

section OnDemand

variable [Scalar F]

/-- The missing part of a path enters tree and index together. -/
theorem Coherent.descend (hd : d.Coherent) (kind : QueueKind) {path : String} {rest : List String}
    (hparts : ∀ c ∈ rest, IsPart c) (hn : d.index.get? path = some h)
    (hparent : rest ≠ [] → h.kind = .parent) :
    Finds (Directory.descend kind d h path rest) (QueueTree.descend kind d.tree path rest) := by
  induction rest generalizing d h path with
  | nil => exact hd.finds hn
  | cons c rest ih =>
    have hrest : ∀ e ∈ rest, IsPart e := fun e he => hparts e (List.mem_cons_of_mem c he)
    have hkind : (d.tree.find? (child path c)).map Queue.kind = _ := hd.kindOf? (child path c)
    unfold Directory.descend QueueTree.descend
    simp only [hkind]
    cases hfound : d.index.get? (child path c) with
    | some found =>
      simp only [Option.map_some]
      by_cases hwanted : found.kind = if rest = [] then kind else .parent
      · rw [if_pos hwanted, if_pos hwanted]
        apply ih hd hrest hfound
        intro hmore
        rw [hwanted, if_neg hmore]
      · rw [if_neg hwanted, if_neg hwanted]
        exact hd.refuses _
    | none =>
      have hpolicy : ∀ k, Policy.fair.appliesTo (Queue.place false k) = true := by
        intro k
        cases k <;> rfl
      let wanted : QueueKind := if rest = [] then kind else .parent
      have hcreated := hd.create_eq (child path c) .onDemand hn (hpolicy wanted)
      have htree : d.tree.create wanted path (child path c) .onDemand .fair =
          (d.tree.grow wanted path (child path c) .onDemand .fair, .ok ()) :=
        QueueTree.create_eq_ok_iff.mpr ⟨hpolicy wanted, rfl⟩
      have hgrown := hd.grown .onDemand (hparts c List.mem_cons_self) hn
        (hparent (List.cons_ne_nil c rest)) hfound (hpolicy wanted)
      simp only [Option.map_none]
      rw [hcreated, htree]
      apply ih hgrown hrest
      · exact (Table.get?_insert _ _ _ _).trans (if_pos rfl)
      · exact fun hmore => if_neg hmore

/-- A queue is located in a directory as in its tree. -/
theorem Coherent.locate (hd : d.Coherent) (name : String) (create : Bool) (kind : QueueKind) :
    Finds (d.locate name create kind) (d.tree.locate name create kind) := by
  unfold Directory.locate QueueTree.locate
  cases hname : normalize name with
  | error e => exact hd.refuses e
  | ok full =>
    have hkind : (d.tree.find? full).map Queue.kind = _ := hd.kindOf? full
    have hparts := isPart_of_normalize hname
    simp only [hkind]
    cases hfound : d.index.get? full with
    | some found =>
      simp only [Option.map_some]
      by_cases hwanted : found.kind = kind
      · rw [if_pos hwanted, if_pos hwanted]
        exact hd.finds hfound
      · rw [if_neg hwanted, if_neg hwanted]
        exact hd.refuses _
    | none =>
      cases create with
      | false => exact hd.refuses _
      | true =>
        exact hd.descend kind (fun c hc => hparts c (List.mem_of_mem_tail hc)) hd.index_root
          fun _ => rfl

end OnDemand

end Directory

end Allotment
