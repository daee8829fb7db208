import Allotment.Proofs.Queue.Indexed
import Allotment.Proofs.Queue.Normal
import Allotment.Proofs.Queue.Parking

/-!
# The missing path or nothing

Asking for a queue that may be created adds what is missing of the path to it, and nothing else, or is
refused and adds nothing. It is refused if the name is malformed, if there is a leaf above the queue, or if
the queue is of the other kind. Nothing else stands in the way: the queues above one that is there are all
there, so those that are missing are the lower end of the path.
-/

namespace Allotment

open QueueName Shape

/-! ## Above a queue -/

/-- Nothing but the root is above the root. -/
theorem Shape.isWithin_root_iff {n : String} :
    isWithin QueueName.root n = true ↔ n = QueueName.root := by
  constructor
  · intro h
    rw [isWithin, Bool.or_eq_true, decide_eq_true_eq] at h
    obtain rfl | hstart := h
    · rfl
    · have hdot : '.' ∈ QueueName.root.toList := by
        apply (List.isPrefixOf_iff_prefix.mp hstart).subset
        simp [String.toList_append]
      exact absurd hdot (by decide)
  · rintro rfl
    exact isWithin_self _

/-- What is above a queue within the root is within the root. -/
theorem Shape.isWithin_root_of_isWithin {full n : String} (hroot : isWithin full QueueName.root = true)
    (hn : isWithin full n = true) : isWithin n QueueName.root = true := by
  obtain hin | hin := isWithin_total hn hroot
  · exact hin
  · rw [isWithin_root_iff.mp hin]
    exact isWithin_self _

/-- The end of a path is none of the queues above it. -/
theorem Shape.ne_foldl_child (above c : String) (cs : List String) :
    above ≠ (c :: cs).foldl child above := by
  intro heq
  have hend := QueueTree.isWithin_foldl_child (child above c) cs
  rw [List.foldl_cons] at heq
  rw [← heq, not_isWithin_child] at hend
  contradiction

variable {F : Type} [Scalar F]

/-! ## The queues of a branch -/

namespace Queue

omit [Scalar F] in
/-- A queue that has not the changed one in it is still there when that one has a child more. -/
theorem mem_all_addChild {q r : Queue F} {above : String} (hr : r ∈ q.all)
    (hapart : ∀ s ∈ r.all, s.name ≠ above) (c : Queue F) : r ∈ (q.modify above (addChild c)).all := by
  induction q using Queue.induction with
  | leaf info runnable parked =>
    rw [all_leaf, List.mem_singleton] at hr
    rw [hr] at hapart
    rw [hr, modify_eq_self hapart]
    exact mem_all_self _
  | parent info children ih =>
    rw [all_parent, List.mem_cons] at hr
    obtain rfl | hr := hr
    · rw [modify_eq_self hapart]
      exact mem_all_self _
    · obtain ⟨d, hd, hrd⟩ := List.mem_flatMap.mp hr
      rw [modify_parent]
      split
      · exact mem_all_of_child (List.mem_append_left _ hd) hrd
      · exact mem_all_of_child (List.mem_map_of_mem hd) (ih d hd hrd)

/-- A branch has the queues from its top to the end of the path: the last of some kind, the others
parents. -/
theorem mem_kinds_branch {kind k : QueueKind} {above c n : String} {rest : List String} {serial : ℕ}
    (hparts : ∀ d ∈ rest, IsPart d) :
    (n, k) ∈ (branch kind above c rest serial : Queue F).kinds ↔
      isWithin ((c :: rest).foldl child above) n = true ∧ isWithin n (child above c) = true ∧
        k = if n = (c :: rest).foldl child above then kind else .parent := by
  induction rest generalizing above c serial with
  | nil =>
    rw [branch, kinds_eq_map_bares, bares_fresh, List.map_singleton, List.mem_singleton, name_fresh,
      kind_fresh, Prod.mk.injEq, List.foldl_cons, List.foldl_nil]
    constructor
    · rintro ⟨rfl, rfl⟩
      exact ⟨isWithin_self _, isWithin_self _, (if_pos rfl).symm⟩
    · rintro ⟨hn, hback, rfl⟩
      obtain rfl := isWithin_antisymm hback hn
      exact ⟨rfl, if_pos rfl⟩
  | cons d rest ih =>
    obtain ⟨hpart, hrest⟩ := List.forall_mem_cons.mp hparts
    have hend := QueueTree.isWithin_foldl_child (child (child above c) d) rest
    rw [branch, kinds_parent, List.mem_cons, List.flatMap_singleton, ih hrest, Prod.mk.injEq,
      List.foldl_cons, List.foldl_cons, List.foldl_cons]
    constructor
    · rintro (⟨rfl, rfl⟩ | ⟨hn, hbelow, hk⟩)
      · exact ⟨isWithin_trans hend (isWithin_child _ d), isWithin_self _,
          (if_neg (ne_foldl_child (child above c) d rest)).symm⟩
      · exact ⟨hn, isWithin_trans hbelow (isWithin_child _ d), hk⟩
    · rintro ⟨hn, hback, hk⟩
      obtain hbelow | hover := isWithin_total hn hend
      · exact .inr ⟨hn, hbelow, hk⟩
      · obtain rfl | htop := (isWithin_child_iff hpart).mp hover
        · exact .inr ⟨hn, isWithin_self _, hk⟩
        · obtain rfl := isWithin_antisymm hback htop
          exact .inl ⟨rfl, hk.trans (if_neg (ne_foldl_child (child above c) d rest))⟩

end Queue

namespace QueueTree

variable {t t' : QueueTree F} {kind : QueueKind}

/-- What stands in the way of a queue of some kind: a leaf above it, or a queue of its name of the other
kind. -/
def Obstructed (t : QueueTree F) (kind : QueueKind) (full : String) : Prop :=
  (∃ n, t.kindOf? n = some .leaf ∧ n ≠ full ∧ isWithin full n = true) ∨
    ∃ found, t.kindOf? full = some found ∧ found ≠ kind

/-- Whether a tree is another with the path to a queue completed. -/
structure Completes (t t' : QueueTree F) (kind : QueueKind) (full : String) : Prop where
  /-- Nothing was missing, or what was hangs as a branch behind the children of a parent. -/
  tree : t' = t ∨ ∃ above c rest, t.Sprouts t' kind full above c rest
  /-- The queues that were missing on the path are there and no others, parents above the last. -/
  kinds : ∀ n, t'.kindOf? n = if t.kindOf? n = none ∧ isWithin full n = true
    then some (if n = full then kind else .parent) else t.kindOf? n
  /-- A queue that was there has not changed, but perhaps for what is below it. -/
  kept : ∀ n b, t.bare? n = some b → t'.bare? n = some b
  /-- Off the path nothing has changed at all. -/
  apart : ∀ n, isWithin full n = false → t'.find? n = t.find? n
  /-- A queue that was missing is among the children of the one above it on the path. -/
  linked : ∀ n q, t.kindOf? n = none → t'.find? n = some q →
    ∃ r ∈ t'.root.all, q ∈ r.children ∧ ∃ c, IsPart c ∧ n = child r.name c

/-- A tree with a branch more lists the queues of the branch too. -/
theorem Sprouts.mem_kinds {full above c : String} {rest : List String}
    (hs : t.Sprouts t' kind full above c rest) (x : String × QueueKind) :
    x ∈ t'.root.kinds ↔
      x ∈ t.root.kinds ∨ x ∈ (Queue.branch kind above c rest t.nextSerial : Queue F).kinds := by
  simp only [Queue.kinds_eq_map_bares, List.mem_map, hs.queues]
  constructor
  · rintro ⟨b, hold | hnew, heq⟩
    · exact .inl ⟨b, hold, heq⟩
    · exact .inr ⟨b, hnew, heq⟩
  · rintro (⟨b, hold, heq⟩ | ⟨b, hnew, heq⟩)
    · exact ⟨b, .inl hold, heq⟩
    · exact ⟨b, .inr hnew, heq⟩

section Sprouted

variable {full above c n : String} {rest : List String}

/-- The end of a branch is below its top. -/
theorem Sprouts.isWithin_top (hs : t.Sprouts t' kind full above c rest) :
    isWithin full (child above c) = true := by
  rw [hs.path]
  exact isWithin_foldl_child (child above c) rest

/-- Everything above the top of a branch was there, and everything from there to its end was missing. -/
theorem Sprouts.missing_iff (hs : t.Sprouts t' kind full above c rest) (hpart : IsPart c)
    (h : t.WellNamed) (hn : isWithin full n = true) :
    t.kindOf? n = none ↔ isWithin n (child above c) = true := by
  refine ⟨fun hnone => ?_, h.kindOf?_below_missing hs.parent hs.missing⟩
  obtain hbelow | hover := isWithin_total hn hs.isWithin_top
  · exact hbelow
  · obtain rfl | habove := (isWithin_child_iff hpart).mp hover
    · exact isWithin_self _
    · have hroot : isWithin above QueueName.root = true := by
        obtain ⟨q, hq, -⟩ := Option.map_eq_some_iff.mp hs.parent
        obtain ⟨hmem, rfl⟩ := h.root.find?_eq_some_iff.mp hq
        rw [← h.root_name]
        exact h.root.isWithin hmem
      obtain ⟨k, hk⟩ := h.exists_of_isWithin hs.parent habove (isWithin_root_of_isWithin hroot habove)
      rw [hnone] at hk
      contradiction

/-- What was missing on the path to the end of a branch is there, and nothing else has come. -/
theorem Sprouts.kindOf?_eq (hs : t.Sprouts t' kind full above c rest)
    (hparts : ∀ d ∈ c :: rest, IsPart d) (h : t.WellNamed) (h' : t'.WellNamed) (n : String) :
    t'.kindOf? n = if t.kindOf? n = none ∧ isWithin full n = true
      then some (if n = full then kind else .parent) else t.kindOf? n := by
  obtain ⟨hpart, hrest⟩ := List.forall_mem_cons.mp hparts
  apply Option.ext
  intro k
  rw [h'.kindOf?_eq_some_iff, hs.mem_kinds, ← h.kindOf?_eq_some_iff, Queue.mem_kinds_branch hrest,
    ← hs.path]
  by_cases hnew : t.kindOf? n = none ∧ isWithin full n = true
  · obtain ⟨hnone, hn⟩ := hnew
    have hbelow := (hs.missing_iff hpart h hn).mp hnone
    simp only [hnone, hn, hbelow, true_and, reduceCtorEq, false_or, if_true, Option.some.injEq]
    exact eq_comm
  · rw [if_neg hnew, or_iff_left_iff_imp]
    rintro ⟨hn, hbelow, -⟩
    exact absurd ⟨(hs.missing_iff hpart h hn).mpr hbelow, hn⟩ hnew

/-- A queue off the path is the same below as well. -/
theorem Sprouts.find?_eq_of_apart (hs : t.Sprouts t' kind full above c rest)
    (hparts : ∀ d ∈ c :: rest, IsPart d) (h : t.WellNamed) (h' : t'.WellNamed)
    (hapart : isWithin full n = false) : t'.find? n = t.find? n := by
  cases hfound : t.find? n with
  | none =>
    have hsame := hs.kindOf?_eq hparts h h' n
    rw [if_neg (by simp [hapart])] at hsame
    rw [kindOf?, kindOf?, hfound, Option.map_none, Option.map_eq_none_iff] at hsame
    exact hsame
  | some q =>
    obtain ⟨hmem, rfl⟩ := h.root.find?_eq_some_iff.mp hfound
    refine h'.root.find?_eq_some_iff.mpr ⟨?_, rfl⟩
    rw [hs.tree, sprout]
    apply Queue.mem_all_addChild hmem
    intro s hin hname
    have hover := (h.root.of_mem hmem).isWithin hin
    rw [hname] at hover
    rw [isWithin_trans hs.isWithin_top (isWithin_trans (isWithin_child above c) hover)] at hapart
    contradiction

/-- A tree with a branch more has the path to its end completed. -/
theorem Sprouts.completes (hs : t.Sprouts t' kind full above c rest)
    (hparts : ∀ d ∈ c :: rest, IsPart d) (h : t.WellNamed) (h' : t'.WellNamed) :
    t.Completes t' kind full := by
  refine ⟨.inr ⟨above, c, rest, hs⟩, hs.kindOf?_eq hparts h h', (hs.extends h h').stays,
    fun n => hs.find?_eq_of_apart hparts h h', ?_⟩
  intro n q hnone hq
  obtain ⟨hmem, rfl⟩ := h'.root.find?_eq_some_iff.mp hq
  obtain rfl | ⟨info, children, hparent, hchild⟩ := Queue.exists_parent hmem
  · rw [h'.root_name, h.kindOf?_root] at hnone
    contradiction
  · obtain ⟨hname, -⟩ := (Queue.wellNamed_parent_iff.mp (h'.root.of_mem hparent)).2 q hchild
    exact ⟨_, hparent, hchild, hname⟩

end Sprouted

/-- A tree in which nothing is missing on a path has it completed. -/
theorem WellNamed.completes_refl {full : String} (h : t.WellNamed) (hfound : t.kindOf? full = some kind)
    (hroot : isWithin full QueueName.root = true) : t.Completes t kind full := by
  refine ⟨.inl rfl, ?_, fun _ _ hb => hb, fun _ _ => rfl, ?_⟩
  · intro n
    rw [if_neg]
    rintro ⟨hnone, hn⟩
    obtain ⟨k, hk⟩ := h.exists_of_isWithin hfound hn (isWithin_root_of_isWithin hroot hn)
    rw [hnone] at hk
    contradiction
  · intro n q hnone hq
    rw [kindOf?, hq] at hnone
    contradiction

/-- Following a path to a queue that is not there ends at a leaf, or creates what is missing. -/
theorem WellNamed.descend_cases (h : t.WellNamed) (kind : QueueKind) {above : String} {cs : List String}
    (hparts : ∀ c ∈ cs, IsPart c) (habove : t.kindOf? above = some .parent)
    (hmissing : t.kindOf? (cs.foldl child above) = none) :
    (∃ n e, t.kindOf? n = some .leaf ∧ isWithin (cs.foldl child above) n = true ∧
      descend kind t above cs = (t, .error e)) ∨
    ∃ n c rest, (∀ d ∈ c :: rest, IsPart d) ∧ t.kindOf? n = some .parent ∧
      t.kindOf? (child n c) = none ∧ (c :: rest).foldl child n = cs.foldl child above ∧
      descend kind t above cs = (t.sprout kind n c rest, .ok (cs.foldl child above)) := by
  induction cs generalizing above with
  | nil =>
    rw [List.foldl_nil, habove] at hmissing
    contradiction
  | cons c rest ih =>
    cases hfound : t.kindOf? (child above c) with
    | none =>
      exact .inr ⟨above, c, rest, hparts, habove, hfound, rfl,
        h.descend_missing kind hparts habove hfound⟩
    | some found =>
      have hmore : rest ≠ [] := by
        rintro rfl
        rw [List.foldl_cons, List.foldl_nil, hfound] at hmissing
        contradiction
      have hkind : (t.find? (child above c)).map Queue.kind = some found := hfound
      rw [descend]
      simp only [hkind, if_neg hmore]
      cases found with
      | leaf => exact .inl ⟨child above c, _, hfound, isWithin_foldl_child _ rest, rfl⟩
      | parent => exact ih (fun d hd => hparts d (List.mem_cons_of_mem c hd)) hfound hmissing

omit [Scalar F] in
/-- A queue behind a parent that is there is not obstructed when nothing is there of the path to it. -/
theorem WellNamed.not_obstructed (h : t.WellNamed) {n c full : String} (hpart : IsPart c)
    (hparent : t.kindOf? n = some .parent) (hmissing : t.kindOf? (child n c) = none)
    (hfull : isWithin full (child n c) = true) : ¬ t.Obstructed kind full := by
  have hbelow : ∀ m, isWithin m (child n c) = true → t.kindOf? m = none :=
    fun m hm => h.kindOf?_below_missing hparent hmissing hm
  rintro (⟨leaf, hleaf, -, hover⟩ | ⟨found, hfound, -⟩)
  · obtain hin | hout := isWithin_total hover hfull
    · rw [hbelow leaf hin] at hleaf
      contradiction
    · obtain rfl | hout := (isWithin_child_iff hpart).mp hout
      · rw [hmissing] at hleaf
        contradiction
      · rw [h.eq_of_isWithin_leaf hleaf hparent hout, hleaf] at hparent
        contradiction
  · rw [hbelow full hfull] at hfound
    contradiction

/-- Locating a queue that may be created completes the path to it unless something stands in the way. -/
theorem WellNamed.locate_cases (h : t.WellNamed) {name full : String} (hname : normalize name = .ok full)
    (kind : QueueKind) :
    (t.Obstructed kind full ∧ ∃ e, t.locate name true kind = (t, .error e)) ∨
    (¬ t.Obstructed kind full ∧
      ∃ t', t.locate name true kind = (t', .ok full) ∧ t.Completes t' kind full) := by
  have hpath := foldl_tail_components (isAbsolute_of_normalize hname)
  have hroot : isWithin full QueueName.root = true := by
    rw [← hpath]
    exact isWithin_foldl_child _ _
  have hlocated := h.located name true kind
  unfold locate at hlocated ⊢
  simp only [hname] at hlocated ⊢
  cases hfound : t.kindOf? full with
  | some found =>
    have hkind : (t.find? full).map Queue.kind = some found := hfound
    simp only [hkind]
    by_cases hwanted : found = kind
    · subst hwanted
      rw [if_pos rfl]
      refine .inr ⟨?_, t, rfl, h.completes_refl hfound hroot⟩
      rintro (⟨leaf, hleaf, hother, hover⟩ | ⟨other, hsame, hne⟩)
      · exact hother (h.eq_of_isWithin_leaf hleaf hfound hover).symm
      · exact hne (Option.some.inj (hsame.symm.trans hfound))
    · rw [if_neg hwanted]
      exact .inl ⟨.inr ⟨found, hfound, hwanted⟩, _, rfl⟩
  | none =>
    have hkind : (t.find? full).map Queue.kind = none := hfound
    simp only [hkind, if_true] at hlocated ⊢
    have hparts : ∀ c ∈ (components full).tail, IsPart c :=
      fun c hc => isPart_of_normalize hname c (List.mem_of_mem_tail hc)
    have hmissing : t.kindOf? ((components full).tail.foldl child QueueName.root) = none := by
      rw [hpath, hfound]
    obtain ⟨n, e, hleaf, hover, hdescend⟩ | ⟨n, c, rest, hnew, hparent, hnone, hend, hdescend⟩ :=
      h.descend_cases kind hparts h.kindOf?_root hmissing
    · rw [hpath] at hover
      refine .inl ⟨.inl ⟨n, hleaf, ?_, hover⟩, e, hdescend⟩
      rintro rfl
      rw [hfound] at hleaf
      contradiction
    · rw [hpath] at hend hdescend
      rw [hdescend] at hlocated ⊢
      have hwell := hlocated.edits.wellNamed h
      have hsprouts := h.sprouts kind rest hparent hnone
      rw [hend] at hsprouts
      refine .inr ⟨?_, _, rfl, hsprouts.completes hnew h hwell⟩
      apply h.not_obstructed (hnew c List.mem_cons_self) hparent hnone
      rw [← hend]
      exact isWithin_foldl_child (child n c) rest

end QueueTree

namespace Directory

variable {d d' : Directory F} {kind : QueueKind}

/-- Whether a directory is another with the path to a queue completed, in the tree as in the index. -/
structure Completes (d d' : Directory F) (kind : QueueKind) (full : String) : Prop where
  tree : d.tree.Completes d'.tree kind full
  index : ∀ n, (d'.index.get? n).map Handle.kind = d'.tree.kindOf? n
  kept : ∀ n h, d.index.get? n = some h → d'.index.get? n = some h

/-- A path on which something stands in the way is not begun. -/
theorem Coherent.descend_eq_of_error (hd : d.Coherent) {path : String} {h : Handle} {cs : List String}
    (hparts : ∀ c ∈ cs, IsPart c) (hn : d.index.get? path = some h) (hparent : cs ≠ [] → h.kind = .parent)
    {e : Error} (hrefused : (Directory.descend kind d h path cs).2 = .error e) :
    (Directory.descend kind d h path cs).1 = d := by
  induction cs generalizing h path with
  | nil => rfl
  | cons c rest ih =>
    cases hfound : d.index.get? (child path c) with
    | none =>
      -- Once one queue is missing, so are those below it, and all of them are created.
      have habove : d.tree.kindOf? path = some .parent := by
        rw [hd.kindOf?, hn, Option.map_some, hparent (List.cons_ne_nil c rest)]
      have hmissing : d.tree.kindOf? (child path c) = none := by
        rw [hd.kindOf?, hfound, Option.map_none]
      have hcreated := hd.sound.wellNamed.descend_missing kind hparts habove hmissing
      obtain ⟨made, hmade, -⟩ := (hd.descend kind hparts hn hparent).found _ (congrArg Prod.snd hcreated)
      rw [hmade] at hrefused
      contradiction
    | some found =>
      rw [Directory.descend] at hrefused ⊢
      simp only [hfound] at hrefused ⊢
      by_cases hwanted : found.kind = if rest = [] then kind else .parent
      · rw [if_pos hwanted] at hrefused ⊢
        apply ih (fun e he => hparts e (List.mem_cons_of_mem c he)) hfound _ hrefused
        intro hmore
        rw [hwanted, if_neg hmore]
      · rw [if_neg hwanted]

/-- A queue that is refused leaves the directory as it was. -/
theorem Coherent.locate_eq_of_error (hd : d.Coherent) {name : String} {e : Error}
    (hrefused : (d.locate name true kind).2 = .error e) : (d.locate name true kind).1 = d := by
  unfold Directory.locate at hrefused ⊢
  cases hname : normalize name with
  | error e' => rfl
  | ok full =>
    simp only [hname] at hrefused ⊢
    cases hfound : d.index.get? full with
    | some found => rfl
    | none =>
      simp only [hfound, if_true] at hrefused ⊢
      exact hd.descend_eq_of_error
        (fun c hc => isPart_of_normalize hname c (List.mem_of_mem_tail hc)) hd.index_root
        (fun _ => rfl) hrefused

/-- A queue that the index has with the right kind is found as often as it is asked for. -/
theorem locate_of_index {name full : String} {h : Handle} (hname : normalize name = .ok full)
    (hindex : d.index.get? full = some h) : d.locate name true h.kind = (d, .ok h) := by
  unfold locate
  simp only [hname, hindex, if_true]

/-- A queue is found in a directory, with the path to it completed, unless something stands in the way. -/
theorem Coherent.locate_cases (hd : d.Coherent) {name full : String} (hname : normalize name = .ok full)
    (kind : QueueKind) :
    (d.tree.Obstructed kind full ∧ ∃ e, (d.locate name true kind).2 = .error e) ∨
    (¬ d.tree.Obstructed kind full ∧ ∃ d' q, d.locate name true kind = (d', .ok q) ∧
      d'.index.get? full = some q ∧ q.kind = kind ∧ d.Completes d' kind full) := by
  have hfinds := hd.locate name true kind
  obtain ⟨hway, e, he⟩ | ⟨hfree, t', ht', hcompletes⟩ := hd.sound.wellNamed.locate_cases hname kind
  · exact .inl ⟨hway, e, hfinds.refused e (congrArg Prod.snd he)⟩
  · have hlocated := hd.sound.wellNamed.located name true kind
    generalize d.locate name true kind = found at hfinds ⊢
    obtain ⟨d', outcome⟩ := found
    rw [ht'] at hfinds hlocated
    obtain ⟨hd', rfl, hok, -⟩ := hfinds
    obtain ⟨q, rfl, hq⟩ := hok full rfl
    refine .inr ⟨hfree, d', q, rfl, hq, ?_, hcompletes, fun n => (hd'.kindOf? n).symm, ?_⟩
    · have hkind := hlocated.found full rfl
      change d'.tree.kindOf? full = some kind at hkind
      rw [hd'.kindOf?, hq, Option.map_some] at hkind
      exact Option.some.inj hkind
    · intro n h hn
      rw [hd.index] at hn
      obtain ⟨b, hb, rfl⟩ := Option.map_eq_some_iff.mp hn
      rw [hd'.index, hcompletes.kept n b hb, Option.map_some]

/-- In a directory that has come about, asking for a queue that may be created either gives the queue of
the normalized name and the right kind, has added what was missing of the path to it and nothing else, and
when repeated gives the same queue without a change; or it fails and nothing has changed. It fails exactly
if the name is malformed, a queue above is a leaf, or the queue is of the other kind. -/
theorem Reachable.path_or_nothing (h : d.Reachable) (name : String) (kind : QueueKind) :
    (∀ q, (d.locate name true kind).2 = .ok q → ∃ full, normalize name = .ok full ∧
      (d.locate name true kind).1.index.get? full = some q ∧ q.kind = kind ∧
      d.Completes (d.locate name true kind).1 kind full ∧
      (d.locate name true kind).1.locate name true kind = ((d.locate name true kind).1, .ok q)) ∧
    (∀ e, (d.locate name true kind).2 = .error e → (d.locate name true kind).1 = d) ∧
    ((∃ e, (d.locate name true kind).2 = .error e) ↔ (∃ e, normalize name = .error e) ∨
      ∃ full, normalize name = .ok full ∧ d.tree.Obstructed kind full) := by
  obtain ⟨hd, -⟩ := h.coherent
  have hsame : ∀ e, (d.locate name true kind).2 = .error e → (d.locate name true kind).1 = d :=
    fun e he => hd.locate_eq_of_error he
  cases hname : normalize name with
  | error e =>
    have hrefused : d.locate name true kind = (d, .error e) := by
      unfold Directory.locate
      rw [hname]
    simp [hrefused]
  | ok full =>
    obtain ⟨hway, e, he⟩ | ⟨hfree, d', q, hlocate, hq, rfl, hcompletes⟩ := hd.locate_cases hname kind
    · exact ⟨by simp [he], hsame, fun _ => .inr ⟨full, rfl, hway⟩, fun _ => ⟨e, he⟩⟩
    · simp only [hlocate]
      refine ⟨?_, by simp, by simp [hfree]⟩
      intro q' hq'
      obtain rfl := Except.ok.inj hq'
      exact ⟨full, rfl, hq, rfl, hcompletes, locate_of_index hname hq⟩

/-- Below the root a missing parent and a leaf are created, and below the leaf that is there nothing is. -/
theorem path_or_nothing_of_oneLeaf :
    oneLeaf.Reachable ∧ (oneLeaf.locate "b.c" true .leaf).2 = .ok ⟨3, .leaf⟩ ∧
      oneLeaf.Completes (oneLeaf.locate "b.c" true .leaf).1 .leaf "root.b.c" ∧
      (∃ e, (oneLeaf.locate "a.x" true .parent).2 = .error e) ∧
      (oneLeaf.locate "a.x" true .parent).1 = oneLeaf := by
  have hstart : oneLeaf.Reachable := .start (.parent "root" [.leaf "a"]) oneLeaf rfl
  obtain ⟨hfound, -, -⟩ := hstart.path_or_nothing "b.c" .leaf
  obtain ⟨full, hname, -, -, hcompletes, -⟩ := hfound ⟨3, .leaf⟩ rfl
  obtain rfl : "root.b.c" = full := Except.ok.inj hname
  obtain ⟨-, hsame, hfails⟩ := hstart.path_or_nothing "a.x" .parent
  obtain ⟨e, he⟩ := hfails.mpr (.inr ⟨"root.a.x", rfl, .inl ⟨"root.a", rfl, by decide, rfl⟩⟩)
  exact ⟨hstart, rfl, hcompletes, ⟨e, he⟩, hsame e he⟩

end Directory

end Allotment
