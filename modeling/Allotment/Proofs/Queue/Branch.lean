import Allotment.Proofs.Queue.Build

/-!
# Paths created on demand

Locating a queue that is not there creates the missing part of the path to it: a branch of empty queues,
one below the other, behind the children of the last queue on the path that is there. Once one component
is missing, so are all below it, so nothing is created before it is clear that all can be. Whatever stands
in the way is found first, and then the tree stays as it is.
-/

namespace Allotment

open QueueName Shape

variable {F : Type} [Scalar F]

namespace Queue

/-- New queues for the components of a path, one below the other: the last of some kind, the others
parents. -/
def branch (kind : QueueKind) : (parent c : String) → List String → (serial : ℕ) → Queue F
  | above, c, [], serial => fresh kind (child above c) .onDemand .fair serial
  | above, c, d :: rest, serial =>
    parent ⟨child above c, serial, .fair, .onDemand, 0, 0, 0⟩
      [branch kind (child above c) d rest (serial + 1)]

/-- A branch holds no applications. -/
@[simp] theorem seats_branch (kind : QueueKind) (above c : String) (rest : List String) (serial : ℕ) :
    (branch kind above c rest serial : Queue F).seats = [] := by
  induction rest generalizing above c serial with
  | nil => exact seats_fresh _ _ _ _ _
  | cons d rest ih => simp [branch, ih]

omit [Scalar F] in
/-- Changing queues of a name that is not in a tree leaves the tree as it is. -/
theorem modify_eq_self {q : Queue F} {n : String} (h : ∀ r ∈ q.all, r.name ≠ n)
    (f : Queue F → Queue F) : q.modify n f = q := by
  rw [modify_congr q (g := id) fun r hr hname => absurd hname (h r hr), modify_id]

omit [Scalar F] in
/-- Changing queues of a name that only the new child has changes the new child. -/
theorem modify_addChild {q : Queue F} {n : String} (h : ∀ r ∈ q.all, r.name ≠ n) (above : String)
    (c : Queue F) (f : Queue F → Queue F) :
    (q.modify above (addChild c)).modify n f = q.modify above (addChild (c.modify n f)) := by
  induction q using Queue.induction with
  | leaf info runnable parked =>
    have hother : info.name ≠ n := h _ (mem_all_self _)
    rw [modify_leaf, modify_leaf, addChild, addChild, ite_self, modify_leaf, if_neg hother]
  | parent info children ih =>
    have hother : info.name ≠ n := h _ (mem_all_self _)
    have hbelow : ∀ d ∈ children, ∀ r ∈ d.all, r.name ≠ n :=
      fun d hd r hr => h r (mem_all_of_child hd hr)
    rw [modify_parent, modify_parent]
    split
    · have hkept : children.map (modify n f) = children := by
        rw [List.map_congr_left fun d hd => modify_eq_self (hbelow d hd) f, List.map_id']
      rw [addChild, addChild, modify_parent, if_neg hother, List.map_append, hkept]
      rfl
    · rw [modify_parent, if_neg hother, List.map_map]
      congr 1
      exact List.map_congr_left fun d hd => ih d hd (hbelow d hd)

end Queue

namespace QueueTree

variable {t t' : QueueTree F}

/-- The tree with a branch behind the children of a queue. -/
def sprout (t : QueueTree F) (kind : QueueKind) (above c : String) (rest : List String) : QueueTree F :=
  ⟨t.root.modify above (Queue.addChild (.branch kind above c rest t.nextSerial)),
    t.nextSerial + rest.length + 1⟩

omit [Scalar F] in
/-- Nothing is there below a queue that is not there. -/
theorem WellNamed.kindOf?_below_missing (h : t.WellNamed) {above c n : String} {kind : QueueKind}
    (habove : t.kindOf? above = some kind) (hmissing : t.kindOf? (child above c) = none)
    (hn : isWithin n (child above c) = true) : t.kindOf? n = none := by
  cases hcase : t.kindOf? n with
  | none => rfl
  | some k =>
    obtain ⟨r, hr, heq⟩ := List.mem_map.mp (h.kindOf?_eq_some_iff.mp habove)
    obtain ⟨hname, -⟩ := Prod.mk.inj heq
    have hroot : isWithin above QueueName.root = true := by
      rw [← hname, ← h.root_name]
      exact h.root.isWithin hr
    obtain ⟨k', hk'⟩ := h.exists_of_isWithin hcase hn (isWithin_trans (isWithin_child above c) hroot)
    rw [hmissing] at hk'
    contradiction

/-- A path of which nothing is there is created as a branch. -/
theorem WellNamed.descend_missing (h : t.WellNamed) (kind : QueueKind) {above c : String}
    {rest : List String} (hparts : ∀ d ∈ c :: rest, IsPart d)
    (habove : t.kindOf? above = some .parent) (hmissing : t.kindOf? (child above c) = none) :
    descend kind t above (c :: rest) =
      (t.sprout kind above c rest, .ok ((c :: rest).foldl child above)) := by
  induction rest generalizing t above c with
  | nil =>
    have hcreated : t.create kind above (child above c) .onDemand .fair =
        (t.grow kind above (child above c) .onDemand .fair, .ok ()) :=
      create_eq_ok_iff.mpr ⟨by cases kind <;> rfl, rfl⟩
    have hnone : (t.find? (child above c)).map Queue.kind = none := hmissing
    rw [descend]
    simp only [hnone, if_true, hcreated]
    rw [descend]
    rfl
  | cons d rest ih =>
    have hcreated : t.create .parent above (child above c) .onDemand .fair =
        (t.grow .parent above (child above c) .onDemand .fair, .ok ()) :=
      create_eq_ok_iff.mpr ⟨rfl, rfl⟩
    have hnone : (t.find? (child above c)).map Queue.kind = none := hmissing
    have hpart : IsPart c := hparts c List.mem_cons_self
    have hgrown : (t.grow .parent above (child above c) .onDemand .fair).WellNamed ∧ _ :=
      h.grow hpart habove hmissing .onDemand .fair
    obtain ⟨hwell, hbares⟩ := hgrown
    have hmade : (t.grow .parent above (child above c) .onDemand .fair).kindOf? (child above c) =
        some .parent := by
      rw [kindOf?_eq_map_bare?, hbares, if_pos rfl, Option.map_some, Queue.kind_fresh]
    have hbelow := h.kindOf?_below_missing habove hmissing (isWithin_child (child above c) d)
    have hunmade : (t.grow .parent above (child above c) .onDemand .fair).kindOf?
        (child (child above c) d) = none := by
      have hne : child (child above c) d ≠ child above c := by
        intro heq
        have hnot := not_isWithin_child (child above c) d
        rw [heq, isWithin_self] at hnot
        contradiction
      rw [← bare?_eq_none_iff, hbares, if_neg hne, bare?_eq_none_iff, hbelow]
    have hnew : ∀ r ∈ t.root.all, r.name ≠ child above c := by
      intro r hr hname
      have hfound : t.find? (child above c) = some r := h.root.find?_eq_some_iff.mpr ⟨hr, hname⟩
      rw [kindOf?, hfound] at hmissing
      contradiction
    have hrest := ih hwell (fun e he => hparts e (List.mem_cons_of_mem c he)) hmade hunmade
    rw [descend]
    simp only [hnone, List.cons_ne_nil, if_false, hcreated, hrest]
    refine Prod.ext ?_ rfl
    rw [sprout, sprout, QueueTree.grow, Queue.modify_addChild hnew,
      Queue.modify_of_name _ (Queue.name_fresh _ _ _ _ _), List.length_cons]
    simp only [Queue.fresh, Queue.addChild, List.nil_append, Queue.branch]
    congr 1
    omega

/-- Whether a tree is another in which the missing part of the path to a queue has been created as a branch
behind the children of a parent. Of the queues that were there none has changed but for that, and all
applications are where they were. -/
structure Sprouts (t t' : QueueTree F) (kind : QueueKind) (name above c : String) (rest : List String) :
    Prop where
  parent : t.kindOf? above = some .parent
  missing : t.kindOf? (child above c) = none
  path : name = (c :: rest).foldl child above
  absent : t.kindOf? name = none
  tree : t' = t.sprout kind above c rest
  queues : ∀ b, b ∈ t'.root.bares ↔
    b ∈ t.root.bares ∨ b ∈ (Queue.branch kind above c rest t.nextSerial).bares
  seats : t'.root.seats.Perm t.root.seats

omit [Scalar F] in
/-- The end of a path is within its beginning. -/
theorem isWithin_foldl_child (above : String) (cs : List String) :
    isWithin (cs.foldl child above) above = true := by
  induction cs generalizing above with
  | nil => exact isWithin_self above
  | cons c rest ih => exact isWithin_trans (ih (child above c)) (isWithin_child above c)

/-- A branch is all that a tree has got more. -/
theorem WellNamed.sprouts (h : t.WellNamed) (kind : QueueKind) {above c : String} (rest : List String)
    (habove : t.kindOf? above = some .parent) (hmissing : t.kindOf? (child above c) = none) :
    t.Sprouts (t.sprout kind above c rest) kind ((c :: rest).foldl child above) above c rest := by
  have hlisted := h.kindOf?_eq_some_iff.mp habove
  rw [Queue.kinds_eq_map_bares] at hlisted
  obtain ⟨a, ha, heq⟩ := List.mem_map.mp hlisted
  obtain ⟨hname, hkind⟩ := Prod.mk.inj heq
  refine ⟨habove, hmissing, rfl, ?_, rfl, fun b => ?_, ?_⟩
  · exact h.kindOf?_below_missing habove hmissing (isWithin_foldl_child (child above c) rest)
  · rw [sprout, Queue.mem_bares_addChild, and_iff_right ⟨a, ha, hname, hkind⟩]
  · apply Queue.seats_modify
    intro r _ _
    rw [Queue.seats_addChild (Queue.seats_branch _ _ _ _ _)]

/-- What comes of locating a queue of some kind: it is there, or something is in the way and the tree is as
it was, or the missing part of the path to it has been created. -/
inductive Locates (t : QueueTree F) (kind : QueueKind) : QueueTree F × Except Error String → Prop where
  | there (n : String) (hn : t.kindOf? n = some kind) : Locates t kind (t, .ok n)
  | blocked (e : Error) (he : ∀ user queue, e ≠ .accessDenied user queue) : Locates t kind (t, .error e)
  | created (t' : QueueTree F) (n above c : String) (rest : List String)
    (h : t.Sprouts t' kind n above c rest) : Locates t kind (t', .ok n)

/-- Following a path downwards finds the queue, or something in the way, or creates what is missing. -/
theorem WellNamed.locates_descend (h : t.WellNamed) (kind : QueueKind) {parent : String}
    {rest : List String} (hparts : ∀ c ∈ rest, IsPart c)
    (hparent : t.kindOf? parent = some (if rest = [] then kind else .parent)) :
    Locates t kind (descend kind t parent rest) := by
  induction rest generalizing parent with
  | nil => exact .there parent hparent
  | cons c rest ih =>
    rw [if_neg (List.cons_ne_nil c rest)] at hparent
    cases hfound : t.kindOf? (child parent c) with
    | none =>
      rw [h.descend_missing kind hparts hparent hfound]
      exact .created _ _ parent c rest (h.sprouts kind rest hparent hfound)
    | some found =>
      have hkind : (t.find? (child parent c)).map Queue.kind = some found := hfound
      rw [descend]
      simp only [hkind]
      by_cases hwanted : found = if rest = [] then kind else .parent
      · rw [if_pos hwanted]
        apply ih fun d hd => hparts d (List.mem_cons_of_mem c hd)
        rw [hfound, hwanted]
      · rw [if_neg hwanted]
        exact .blocked _ fun _ _ => Error.noConfusion

/-- Locating a queue that may be created finds it, or something in the way, or creates what is missing of
the path to it. -/
theorem WellNamed.locates (h : t.WellNamed) (name : String) (kind : QueueKind) :
    Locates t kind (t.locate name true kind) := by
  unfold locate
  cases hname : normalize name with
  | error e =>
    refine .blocked e fun user queue hdenied => ?_
    dsimp only [QueueName.normalize] at hname
    generalize (if isAbsolute (Text.trim name) then Text.trim name
      else child QueueName.root (Text.trim name)) = completed at hname
    rw [hdenied] at hname
    split at hname <;> simp only [reduceCtorEq, Except.error.injEq] at hname
  | ok full =>
    have hparts := isPart_of_normalize hname
    simp only
    split
    · rename_i found hfound
      split
      · rename_i hkind
        rw [← hkind]
        exact .there full hfound
      · exact .blocked _ fun _ _ => Error.noConfusion
    · rename_i hmissing
      have hroot : full ≠ QueueName.root := by
        intro heq
        have htop := h.kindOf?_root
        rw [← heq, kindOf?, hmissing] at htop
        simp at htop
      rw [if_pos trivial]
      apply h.locates_descend kind fun c hc => hparts c (List.mem_of_mem_tail hc)
      rw [if_neg (tail_components_ne_nil hname hroot)]
      exact h.kindOf?_root

end QueueTree

end Allotment
