import Allotment.Proofs.Queue.Edit
import Allotment.Proofs.Queue.Plan
import Allotment.Proofs.Text

/-!
# Building a tree

A configuration with a plan gives a sound tree, and no queue of the plan is refused. Growing on demand
comes to edits, whatever name is asked for: what stands between the dots of a normalized name has no
dot in it.
-/

namespace Allotment

open QueueName

variable {F : Type}

/-! ## Parts of a normalized name -/

/-- The components of a normalized name can stand in a tree. -/
theorem QueueName.isPart_of_normalize {name full : String} (h : normalize name = .ok full) :
    ∀ c ∈ components full, IsPart c := by
  intro c hc
  have hall : (components full).all isComponent = true := by
    dsimp only [normalize] at h
    generalize (if isAbsolute (Text.trim name) then Text.trim name
      else child root (Text.trim name)) = completed at h
    split at h
    · rename_i hall
      rw [← Except.ok.inj h]
      exact hall
    · contradiction
  exact ⟨List.all_eq_true.mp hall c hc, Text.not_mem_split hc⟩

/-- A normalized name starts at the root. -/
theorem QueueName.isAbsolute_of_normalize {name full : String} (h : normalize name = .ok full) :
    isAbsolute full = true := by
  have hcompleted : full = if isAbsolute (Text.trim name) then Text.trim name
      else child QueueName.root (Text.trim name) := by
    dsimp only [normalize] at h
    generalize (if isAbsolute (Text.trim name) then Text.trim name
      else child QueueName.root (Text.trim name)) = completed at h ⊢
    split at h
    · exact (Except.ok.inj h).symm
    · contradiction
  rw [hcompleted]
  split
  · assumption
  · simp [isAbsolute, child, QueueName.root, String.toList_append]

/-- A normalized name other than the root's has components below the root. -/
theorem QueueName.tail_components_ne_nil {name full : String} (h : normalize name = .ok full)
    (hroot : full ≠ QueueName.root) : (components full).tail ≠ [] := by
  have habsolute := isAbsolute_of_normalize h
  rw [isAbsolute, Bool.or_eq_true, decide_eq_true_eq] at habsolute
  have hstart := List.isPrefixOf_iff_prefix.mp (habsolute.resolve_left hroot)
  have hdot : '.' ∈ full.toList := hstart.subset (by decide)
  unfold components Text.split
  rw [← List.map_tail, ne_eq, List.map_eq_nil_iff]
  exact Text.tail_splitChars_ne_nil hdot

/-! ## Planned queues -/

namespace Planned

/-- The settings that a planned queue is to have. -/
def settings (p : Planned F) : QueueSettings F := .ofOptions p.config.options false

/-- The new queue that is planned. -/
def made (p : Planned F) (serial : ℕ) : Queue F :=
  .fresh p.config.kind p.name p.settings p.policy serial

/-- The policy of a queue that fits applies to its kind below the root. -/
theorem Fits.appliesTo {p : Planned F} (h : p.Fits) :
    p.policy.appliesTo (Queue.place false p.config.kind) = true := by
  rw [← QueueConfig.place_eq]
  exact h.applies

end Planned

namespace QueueTree

variable {t : QueueTree F} {p : Planned F}

/-! ## From a configuration -/

/-- The tree with a planned queue more. -/
def growPlanned (t : QueueTree F) (p : Planned F) : QueueTree F :=
  t.grow p.config.kind p.parent p.name p.settings p.policy

/-- A planned queue is created under its parent, if that is one and the name is new. -/
theorem WellNamed.createPlanned (h : t.WellNamed) (hp : p.Fits)
    (hparent : t.kindOf? p.parent = some .parent) (hfresh : t.kindOf? p.name = none) :
    t.createPlanned p = (t.growPlanned p, .ok ()) ∧ Edit t (t.growPlanned p) ∧
      ∀ m, (t.growPlanned p).bare? m =
        if m = p.name then some (p.made t.nextSerial) else t.bare? m := by
  unfold QueueTree.createPlanned growPlanned Planned.made
  have hkind : (t.find? p.parent).map Queue.kind = some .parent := hparent
  rw [hkind]
  rw [hp.name] at hfresh ⊢
  exact ⟨create_eq_ok_iff.mpr ⟨hp.appliesTo, rfl⟩,
    .grow t _ _ _ _ _ hp.part hparent hfresh hp.appliesTo, (h.grow hp.part hparent hfresh _ _).2⟩

/-- The names of a tree with a planned queue more stand for the kinds they did, but for one. -/
theorem kindOf?_growPlanned (hbares : ∀ m, (t.growPlanned p).bare? m =
      if m = p.name then some (p.made t.nextSerial) else t.bare? m) (m : String) :
    (t.growPlanned p).kindOf? m = if m = p.name then some p.config.kind else t.kindOf? m := by
  rw [kindOf?_eq_map_bare?, hbares, kindOf?_eq_map_bare?]
  split
  · rw [Option.map_some, Planned.made, Queue.kind_fresh]
  · rfl

/-- Whether a tree has a root that is a parent, and planned queues of which it has those already
done. -/
structure Built (t : QueueTree F) (done : List (Planned F)) : Prop where
  wellNamed : t.WellNamed
  kinds : ∀ p ∈ done, t.kindOf? p.name = some p.config.kind
  names : ∀ n k, t.kindOf? n = some k → n = QueueName.root ∨ ∃ p ∈ done, p.name = n

/-- The next queue of a plan has a parent, and its name stands for nothing as yet. -/
theorem Built.placed {done rest : List (Planned F)} (h : t.Built done)
    (horder : InOrder QueueName.root (done ++ p :: rest)) :
    p.Fits ∧ t.kindOf? p.parent = some .parent ∧ t.kindOf? p.name = none := by
  have hp : p ∈ done ++ p :: rest := by simp
  have hfits := horder.fits p hp
  refine ⟨hfits, ?_, ?_⟩
  · obtain htop | ⟨q, hq, hname, hchildren⟩ := horder.rooted done p rest rfl
    · rw [htop]
      exact h.wellNamed.kindOf?_root
    · rw [← hname, h.kinds q hq, QueueConfig.kind_of_children hchildren]
  · rw [Option.eq_none_iff_forall_ne_some]
    intro k hk
    obtain hroot | ⟨q, hq, hname⟩ := h.names p.name k hk
    · have hout := hfits.not_isWithin_top (horder.below p hp)
      rw [hroot, Shape.isWithin_self] at hout
      contradiction
    · exact horder.ne_of_before hq hname

/-- The next queue of a plan is created without fail. -/
theorem Built.createPlanned {done rest : List (Planned F)} (h : t.Built done)
    (horder : InOrder QueueName.root (done ++ p :: rest)) :
    t.createPlanned p = (t.growPlanned p, .ok ()) ∧ Edit t (t.growPlanned p) ∧
      (t.growPlanned p).Built (done ++ [p]) := by
  obtain ⟨hfits, hparent, hfresh⟩ := h.placed horder
  obtain ⟨hcreated, hedit, hbares⟩ := h.wellNamed.createPlanned hfits hparent hfresh
  have hkinds := kindOf?_growPlanned hbares
  refine ⟨hcreated, hedit, hedit.wellNamed h.wellNamed, ?_, ?_⟩
  · intro q hq
    rw [hkinds]
    obtain hq | hq := List.mem_append.mp hq
    · rw [if_neg (horder.ne_of_before hq), h.kinds q hq]
    · rw [List.mem_singleton.mp hq, if_pos rfl]
  · intro n k hk
    rw [hkinds] at hk
    split at hk
    · rename_i hn
      exact .inr ⟨p, by simp, hn.symm⟩
    · obtain hroot | ⟨q, hq, hname⟩ := h.names n k hk
      · exact .inl hroot
      · exact .inr ⟨q, List.mem_append_left _ hq, hname⟩

/-- The queues of a plan are created without fail, one after another. -/
theorem Built.createAll {done rest : List (Planned F)} (h : t.Built done)
    (horder : InOrder QueueName.root (done ++ rest)) :
    t.createAll rest = (rest.foldl growPlanned t, .ok ()) ∧ Edits t (rest.foldl growPlanned t) := by
  induction rest generalizing t done with
  | nil => exact ⟨rfl, .refl⟩
  | cons p rest ih =>
    obtain ⟨hcreated, hedit, hbuilt⟩ := h.createPlanned horder
    obtain ⟨hall, hedits⟩ := ih hbuilt (by simpa using horder)
    refine ⟨?_, .head hedit hedits⟩
    rw [QueueTree.createAll, hcreated]
    exact hall

/-- The tree of a new root alone. -/
def seed (c : QueueConfig F) (policy : Policy) : QueueTree F :=
  ⟨.fresh .parent QueueName.root (.ofOptions c.options true) policy 0, 1⟩

/-- A root alone is well named. -/
theorem wellNamed_seed (c : QueueConfig F) (policy : Policy) : (seed c policy).WellNamed :=
  ⟨Queue.wellNamed_fresh .parent QueueName.root (.ofOptions c.options true) policy 0, rfl, rfl⟩

/-- In the tree of a root alone no other name stands for anything. -/
theorem bare?_seed (c : QueueConfig F) (policy : Policy) (n : String) :
    (seed c policy).bare? n =
      if n = QueueName.root then some (seed c policy).root.bare else none := by
  apply Option.ext
  intro b
  rw [(wellNamed_seed c policy).bare?_eq_some_iff, seed, Queue.bares_fresh, List.mem_singleton]
  constructor
  · rintro ⟨hb, hname⟩
    rw [hb, Queue.name_fresh] at hname
    rw [if_pos hname.symm, hb]
    rfl
  · intro hb
    split at hb
    · rename_i hn
      rw [← Option.some.inj hb, hn]
      exact ⟨rfl, rfl⟩
    · contradiction

/-- A root alone has none of the planned queues. -/
theorem built_seed (c : QueueConfig F) (policy : Policy) : (seed c policy).Built [] := by
  refine ⟨wellNamed_seed c policy, by simp, ?_⟩
  intro n k hk
  rw [kindOf?_eq_map_bare?, bare?_seed] at hk
  split at hk
  · rename_i hn
    exact .inl hn
  · contradiction

/-- A root alone is sound if its policy applies at the top. -/
theorem sound_seed (c : QueueConfig F) {policy : Policy}
    (happlies : policy.appliesTo Depth.top = true) : (seed c policy).Sound := by
  have hbare : ∀ n b, (seed c policy).bare? n = some b →
      n = QueueName.root ∧ (seed c policy).root.bare = b := by
    intro n b hb
    rw [bare?_seed] at hb
    split at hb
    · rename_i hn
      exact ⟨hn, Option.some.inj hb⟩
    · contradiction
  refine ⟨wellNamed_seed c policy, ?_, ?_, ?_⟩
  · intro n b hb
    rw [← (hbare n b hb).2]
    exact Nat.one_pos
  · intro n n' b b' hb hb' _
    rw [(hbare n b hb).1, (hbare n' b' hb').1]
  · intro n b hb
    obtain ⟨rfl, rfl⟩ := hbare n b hb
    exact happlies

/-- A configuration with a plan has a tree, which grows from a sound root. -/
theorem ofConfig_of_plan {c : QueueConfig F} {planned : List (Planned F)} {policy : Policy}
    (hplan : c.plan = .ok planned) (hpolicy : c.policy = .ok policy)
    (happlies : policy.appliesTo Depth.top = true) :
    ofConfig c = .ok (planned.foldl growPlanned (seed c policy)) ∧
      Edits (seed c policy) (planned.foldl growPlanned (seed c policy)) := by
  obtain ⟨-, horder, -⟩ := QueueConfig.plan_eq_ok hplan
  have hnew : Queue.new? .parent true QueueName.root (.ofOptions c.options true) policy 0 =
      .ok (seed c policy).root :=
    (Queue.new?_eq_ok_iff _ _ _ _ _).mpr ⟨happlies, rfl⟩
  obtain ⟨hcreated, hedits⟩ := (built_seed c policy).createAll horder
  refine ⟨?_, hedits⟩
  unfold seed at hcreated
  simp [ofConfig, hplan, hpolicy, hnew, hcreated, seed, bind, Except.bind, pure, Except.pure]

/-- A tree of a configuration has grown by a plan from a root whose policy applies. -/
theorem exists_plan_of_ofConfig {c : QueueConfig F} (h : ofConfig c = .ok t) :
    ∃ planned policy, c.plan = .ok planned ∧ c.policy = .ok policy ∧
      policy.appliesTo Depth.top = true ∧ t = planned.foldl growPlanned (seed c policy) := by
  cases hplan : c.plan with
  | error e => simp [ofConfig, hplan, bind, Except.bind] at h
  | ok planned =>
    obtain ⟨⟨policy, hpolicy, happlies⟩, -⟩ := QueueConfig.plan_eq_ok hplan
    obtain ⟨htree, -⟩ := ofConfig_of_plan hplan hpolicy happlies
    exact ⟨planned, policy, rfl, hpolicy, happlies, Except.ok.inj (h.symm.trans htree)⟩

/-- The tree of a configuration is sound. -/
theorem sound_ofConfig {c : QueueConfig F} (h : ofConfig c = .ok t) : t.Sound := by
  obtain ⟨planned, policy, hplan, hpolicy, happlies, rfl⟩ := exists_plan_of_ofConfig h
  exact (ofConfig_of_plan hplan hpolicy happlies).2.sound (sound_seed c happlies)

/-- The tree of a configuration holds no applications. -/
theorem seats_ofConfig {c : QueueConfig F} (h : ofConfig c = .ok t) : t.root.seats = [] := by
  have hgrown : ∀ (planned : List (Planned F)) (t : QueueTree F),
      (planned.foldl growPlanned t).root.seats.Perm t.root.seats := by
    intro planned
    induction planned with
    | nil => exact fun t => .refl _
    | cons p rest ih => exact fun t => (ih _).trans (seats_grow t _ _ _ _ _)
  obtain ⟨planned, policy, -, -, -, rfl⟩ := exists_plan_of_ofConfig h
  exact (hgrown planned (seed c policy)).eq_nil

/-! ## On demand -/

section OnDemand

variable [Scalar F]

/-- What comes of looking for a queue of a kind, created or not: the tree has undergone edits, no
application has moved, and if a name is found it is that of a queue of the kind. -/
structure Located (t : QueueTree F) (kind : QueueKind) (r : QueueTree F × Except Error String) :
    Prop where
  edits : Edits t r.1
  seats : r.1.root.seats.Perm t.root.seats
  found : ∀ n, r.2 = .ok n → r.1.kindOf? n = some kind

omit [Scalar F] in
/-- A refusal leaves the tree as it is. -/
theorem located_error (t : QueueTree F) (kind : QueueKind) (e : Error) :
    Located t kind (t, .error e) := by
  refine ⟨.refl, .refl _, ?_⟩
  intro n hn
  contradiction

omit [Scalar F] in
/-- A queue that is there is found without a change. -/
theorem located_ok {n : String} {kind : QueueKind} (hn : t.kindOf? n = some kind) :
    Located t kind (t, .ok n) := by
  refine ⟨.refl, .refl _, ?_⟩
  intro n' hn'
  rw [← Except.ok.inj hn']
  exact hn

/-- The missing part of a path is created by edits. -/
theorem WellNamed.located_descend (h : t.WellNamed) (kind : QueueKind) {parent : String}
    {rest : List String} (hparts : ∀ c ∈ rest, IsPart c)
    (hparent : t.kindOf? parent = some (if rest = [] then kind else .parent)) :
    Located t kind (QueueTree.descend kind t parent rest) := by
  induction rest generalizing t parent with
  | nil => exact located_ok hparent
  | cons c rest ih =>
    have hrest : ∀ d ∈ rest, IsPart d := fun d hd => hparts d (List.mem_cons_of_mem c hd)
    rw [if_neg (List.cons_ne_nil c rest)] at hparent
    rw [QueueTree.descend]
    cases hfound : t.kindOf? (child parent c) with
    | some found =>
      have hkind : (t.find? (child parent c)).map Queue.kind = some found := hfound
      simp only [hkind]
      by_cases hwanted : found = if rest = [] then kind else .parent
      · rw [if_pos hwanted]
        apply ih h hrest
        rw [hfound, hwanted]
      · rw [if_neg hwanted]
        exact located_error t kind _
    | none =>
      have hkind : (t.find? (child parent c)).map Queue.kind = none := hfound
      have hpolicy : ∀ k, Policy.fair.appliesTo (Queue.place false k) = true := by
        intro k
        cases k <;> rfl
      let wanted : QueueKind := if rest = [] then kind else .parent
      have hcreated : t.create wanted parent (child parent c) .onDemand .fair =
          (t.grow wanted parent (child parent c) .onDemand .fair, .ok ()) :=
        create_eq_ok_iff.mpr ⟨hpolicy wanted, rfl⟩
      have hpart := hparts c List.mem_cons_self
      have hgrown := Edit.grow t wanted parent c .onDemand .fair hpart hparent hfound
        (hpolicy wanted)
      obtain ⟨hwell, hbares⟩ := h.grow hpart hparent hfound .onDemand .fair
      simp only [hkind]
      rw [hcreated]
      have hmade : (t.grow wanted parent (child parent c) .onDemand .fair).kindOf?
          (child parent c) = some wanted := by
        rw [kindOf?_eq_map_bare?, hbares, if_pos rfl, Option.map_some, Queue.kind_fresh]
      have hbelow := ih hwell hrest hmade
      exact ⟨.head hgrown hbelow.edits, hbelow.seats.trans (seats_grow t _ _ _ _ _), hbelow.found⟩

/-- A queue is located by edits, whether or not it has to be created. -/
theorem WellNamed.located (h : t.WellNamed) (name : String) (create : Bool) (kind : QueueKind) :
    Located t kind (t.locate name create kind) := by
  unfold QueueTree.locate
  cases hname : normalize name with
  | error e => exact located_error t kind e
  | ok full =>
    have hparts := isPart_of_normalize hname
    simp only
    split
    · rename_i found hfound
      split
      · rename_i hkind
        rw [← hkind]
        exact located_ok hfound
      · exact located_error t kind _
    · rename_i hmissing
      cases create with
      | false => exact located_error t kind _
      | true =>
        have hroot : full ≠ QueueName.root := by
          intro heq
          have htop := h.kindOf?_root
          rw [← heq, kindOf?, hmissing] at htop
          simp at htop
        have htail : ∀ c ∈ (components full).tail, IsPart c :=
          fun c hc => hparts c (List.mem_of_mem_tail hc)
        rw [if_pos rfl]
        refine h.located_descend kind htail ?_
        rw [if_neg (tail_components_ne_nil hname hroot)]
        exact h.kindOf?_root

end OnDemand

end QueueTree

end Allotment
