import Allotment.Proofs.Queue.Admissible
import Allotment.Proofs.Queue.Branch
import Allotment.Proofs.Queue.Configured
import Allotment.Proofs.Queue.Indexed
import Allotment.Proofs.Queue.Normal

/-!
# Trees as they are configured

A configuration is accepted exactly if it is well formed, and its tree is then the configured one. The plan
lists the queues parents first and the tree grows by one queue after another, each put behind the children of
its parent, which is looked up by name. Growing by the plan of a queue therefore puts one child more behind
those of its parent, with everything below it as configured: nothing that is planned bears the name of a queue
that was there before.
-/

namespace Allotment

open QueueName

variable {F : Type}

/-! ## Well-formed configurations -/

namespace QueueConfig

/-- Whether the policy of a configured queue has a name that is known, in letters of either case. -/
def KnownPolicy (c : QueueConfig F) : Prop :=
  ∀ n, c.options.policy = some n → n.map Char.toLower ∈ ["fair", "fifo", "drf"]

/-- Whether the policy of a configured queue is the one for leaves only. -/
def AsksFifo (c : QueueConfig F) : Prop :=
  ∃ n, c.options.policy = some n ∧ n.map Char.toLower = "fifo"

/-- Whether a configuration has the form of a tree. -/
structure WellFormed (c : QueueConfig F) : Prop where
  top : c.name = "root"
  names : ∀ e ∈ c.configured,
    e.2.name ≠ "" ∧ '.' ∉ e.2.name.toList ∧ ∀ a ∈ e.2.name.toList, Text.isBlank a = false
  siblings : c.Siblings ∧ ∀ e ∈ c.configured, e.2.Siblings
  known : c.KnownPolicy ∧ ∀ e ∈ c.configured, e.2.KnownPolicy
  fifo : ¬ c.AsksFifo ∧
    ∀ e ∈ c.configured, e.2.AsksFifo → e.2.children = [] ∧ e.2.options.forceParent = false

/-- A component has characters, none of which is a dot or a blank. -/
theorem isPart_iff (n : String) :
    IsPart n ↔ n ≠ "" ∧ '.' ∉ n.toList ∧ ∀ a ∈ n.toList, Text.isBlank a = false := by
  have hwritten : isComponent n = true ↔ n ≠ "" ∧ ∀ a ∈ n.toList, Text.isBlank a = false := by
    simp [isComponent, Text.hasBlank]
  constructor
  · rintro ⟨hcomponent, hundotted⟩
    exact ⟨(hwritten.mp hcomponent).1, hundotted, (hwritten.mp hcomponent).2⟩
  · rintro ⟨hne, hundotted, hblank⟩
    exact ⟨hwritten.mpr ⟨hne, hblank⟩, hundotted⟩

/-- A policy applies to a place if it has a known name and, if it is the one for leaves only, the place is
one of leaves. -/
theorem hasPolicyFor_iff (c : QueueConfig F) (place : Depth) :
    c.HasPolicyFor place ↔ c.KnownPolicy ∧ (c.AsksFifo → Depth.leaves.contains place = true) := by
  unfold HasPolicyFor KnownPolicy AsksFifo QueueConfig.policy
  cases c.options.policy with
  | none => simp [Policy.appliesTo, Policy.depth, Depth.any, Depth.contains]
  | some n =>
    unfold Policy.ofName
    by_cases hfair : n.map Char.toLower = "fair"
    · simp [hfair, Policy.appliesTo, Policy.depth, Depth.any, Depth.contains]
    by_cases hfifo : n.map Char.toLower = "fifo"
    · simp [hfifo, Policy.appliesTo, Policy.depth]
    by_cases hdrf : n.map Char.toLower = "drf"
    · simp [hdrf, Policy.appliesTo, Policy.depth, Depth.any, Depth.contains]
    · simp [hfair, hfifo, hdrf]

/-- Below the root the places of leaves are those of queues without children that are not said to be
parents. -/
theorem leaves_contains_place_iff (c : QueueConfig F) :
    Depth.leaves.contains c.place = true ↔ c.children = [] ∧ c.options.forceParent = false := by
  have hparent := c.kind_eq_parent_iff
  unfold place
  cases hkind : c.kind with
  | leaf =>
    rw [hkind] at hparent
    simp only [reduceCtorEq, false_iff, not_or, not_not, Bool.not_eq_true] at hparent
    exact iff_of_true rfl hparent
  | parent =>
    refine iff_of_false (by decide) fun ⟨hchildren, hforce⟩ => ?_
    exact (hparent.mp hkind).elim (fun h => h hchildren) fun h => by simp [hforce] at h

/-- What is admitted are the well-formed configurations. -/
theorem admissible_iff (c : QueueConfig F) : c.Admissible ↔ c.WellFormed := by
  have hfits : ∀ d : QueueConfig F, d.FitsBelow ↔
      (d.name ≠ "" ∧ '.' ∉ d.name.toList ∧ ∀ a ∈ d.name.toList, Text.isBlank a = false) ∧
        d.Siblings ∧ d.KnownPolicy ∧
          (d.AsksFifo → d.children = [] ∧ d.options.forceParent = false) := by
    intro d
    have hpolicy := d.hasPolicyFor_iff d.place
    rw [leaves_contains_place_iff] at hpolicy
    rw [← isPart_iff]
    constructor
    · rintro ⟨hpart, hhas, hsiblings⟩
      exact ⟨hpart, hsiblings, hpolicy.mp hhas⟩
    · rintro ⟨hpart, hsiblings, hknown⟩
      exact ⟨hpart, hpolicy.mpr hknown, hsiblings⟩
  have htop : c.HasPolicyFor Depth.top ↔ c.KnownPolicy ∧ ¬ c.AsksFifo := by
    rw [hasPolicyFor_iff, show Depth.leaves.contains Depth.top = false from rfl]
    simp
  constructor
  · rintro ⟨hname, hpolicy, hsiblings, hbelow⟩
    have hbelow := fun e he => (hfits e.2).mp (hbelow e he)
    obtain ⟨hknown, hfifo⟩ := htop.mp hpolicy
    exact ⟨hname, fun e he => (hbelow e he).1, ⟨hsiblings, fun e he => (hbelow e he).2.1⟩,
      ⟨hknown, fun e he => (hbelow e he).2.2.1⟩, hfifo, fun e he => (hbelow e he).2.2.2⟩
  · rintro ⟨hname, hnames, ⟨hsiblings, hothers⟩, ⟨hknown, hknowns⟩, hfifo, hfifos⟩
    exact ⟨hname, htop.mpr ⟨hknown, hfifo⟩, hsiblings, fun e he =>
      (hfits e.2).mpr ⟨hnames e he, hothers e he, hknowns e he, hfifos e he⟩⟩

end QueueConfig

/-! ## Trees that match a configuration -/

namespace QueueConfig

/-- Whether a queue, at the top of a tree or below it, is the configured one under its full name, and the
queues directly below it bear the names that are configured, in that order. -/
structure Matches (top : Bool) (full : String) (c : QueueConfig F) (q : Queue F) : Prop where
  name : q.name = full
  describes : c.Describes top q
  vacant : q.ownAttempts = []
  children : q.children.map Queue.name = c.children.map fun d => child full d.name

/-- Whether queues are the configured ones under their full names, in the order of the configuration. -/
def AllMatch (wanted : List (String × QueueConfig F)) (qs : List (Queue F)) : Prop :=
  List.Forall₂ (fun e q => Matches false e.1 e.2 q) wanted qs

/-- Queues bear the names under which they are configured. -/
theorem AllMatch.map_name {wanted : List (String × QueueConfig F)} {qs : List (Queue F)}
    (h : AllMatch wanted qs) : qs.map Queue.name = wanted.map (·.1) := by
  induction h with
  | nil => rfl
  | cons hmatch _ ih => rw [List.map_cons, List.map_cons, hmatch.name, ih]

end QueueConfig

/-! ## Growing by a plan -/

namespace Queue

/-- Whether no queue of a tree is within a name. -/
def Clear (q : Queue F) (n : String) : Prop := ∀ r ∈ q.all, Shape.isWithin r.name n = false

/-- The queue with more children behind the others. -/
def addChildren (rs : List (Queue F)) : Queue F → Queue F
  | leaf info runnable parked => leaf info runnable parked
  | parent info children => parent info (children ++ rs)

theorem addChildren_nil : addChildren ([] : List (Queue F)) = id := by
  funext q
  cases q <;> simp [addChildren]

/-- A child more is a list of one more. -/
theorem addChild_eq_addChildren (r : Queue F) : addChild r = addChildren [r] := by
  funext q
  cases q <;> rfl

/-- Children behind others are put there one list after the other. -/
theorem addChildren_addChildren (qs rs : List (Queue F)) (q : Queue F) :
    addChildren rs (addChildren qs q) = addChildren (qs ++ rs) q := by
  cases q <;> simp [addChildren]

/-- A queue with more children bears its name. -/
theorem name_addChildren (rs : List (Queue F)) (q : Queue F) : (addChildren rs q).name = q.name := by
  cases q <;> rfl

variable {q c : Queue F} {n : String}

/-- A tree is clear of a name if its entries are. -/
theorem clear_iff : q.Clear n ↔ ∀ b ∈ q.bares, Shape.isWithin b.name n = false := by
  unfold Clear bares
  simp only [List.forall_mem_map, name_bare]

/-- No queue of a tree that is clear of a name bears it. -/
theorem Clear.ne (h : q.Clear n) : ∀ r ∈ q.all, r.name ≠ n := by
  intro r hr hname
  have hout := h r hr
  rw [hname, Shape.isWithin_self] at hout
  contradiction

/-- A tree that is clear of a name is clear of those below it. -/
theorem Clear.below (h : q.Clear n) (d : String) : q.Clear (child n d) := by
  intro r hr
  rw [Bool.eq_false_iff]
  intro hwithin
  have hin := Shape.isWithin_trans hwithin (Shape.isWithin_child n d)
  rw [h r hr] at hin
  contradiction

/-- A new queue is clear of the names below its own. -/
theorem clear_fresh (kind : QueueKind) (n : String) (settings : QueueSettings F) (policy : Policy)
    (serial : ℕ) (d : String) : (fresh kind n settings policy serial).Clear (child n d) := by
  rw [clear_iff, bares_fresh, List.forall_mem_singleton, name_fresh]
  exact Shape.not_isWithin_child n d

/-- A child that is clear of a name keeps a tree clear of it. -/
theorem Clear.addChild (h : q.Clear n) (hc : c.Clear n) (above : String) :
    (q.modify above (addChild c)).Clear n := by
  rw [clear_iff] at h hc ⊢
  intro b hb
  obtain hold | ⟨-, hnew⟩ := (mem_bares_addChild q c above b).mp hb
  · exact h b hold
  · exact hc b hnew

/-- Children that are clear of a name keep a tree clear of it. -/
theorem Clear.addChildren (h : q.Clear n) {rs : List (Queue F)} (hrs : ∀ r ∈ rs, r.Clear n)
    (above : String) : (q.modify above (addChildren rs)).Clear n := by
  induction rs generalizing q with
  | nil =>
    rw [addChildren_nil, modify_id]
    exact h
  | cons r rest ih =>
    obtain ⟨hr, hrest⟩ := List.forall_mem_cons.mp hrs
    have hboth : q.modify above (Queue.addChildren (r :: rest)) =
        (q.modify above (Queue.addChild r)).modify above (Queue.addChildren rest) := by
      rw [modify_modify _ _ _ (name_addChild r)]
      congr 1
      funext s
      rw [addChild_eq_addChildren, addChildren_addChildren, List.singleton_append]
    rw [hboth]
    exact ih (h.addChild hr above) hrest

end Queue

namespace QueueConfig

/-- A new queue with children of the configured names is the configured one, and has them and what is below
them below it. -/
theorem matches_addChildren (c : QueueConfig F) (top : Bool) (full : String) (kind : QueueKind)
    {policy : Policy} (hpolicy : c.policy = .ok policy)
    (hkind : kind = .parent ↔ top = true ∨ c.children ≠ [] ∨ c.options.forceParent = true)
    {qs : List (Queue F)} (hnames : qs.map Queue.name = c.children.map fun d => child full d.name)
    (serial : ℕ) :
    ∃ q, q = Queue.addChildren qs (.fresh kind full (.ofOptions c.options top) policy serial) ∧
      Matches top full c q ∧ q.all = q :: qs.flatMap Queue.all := by
  refine ⟨_, rfl, ?_⟩
  cases kind with
  | parent => exact ⟨⟨rfl, describes_of_eq hkind rfl hpolicy, rfl, hnames⟩, Queue.all_parent _ _⟩
  | leaf =>
    have hnone : c.children = [] := by
      by_contra hne
      exact QueueKind.noConfusion (hkind.mpr (.inr (.inl hne)))
    rw [hnone, List.map_nil, List.map_eq_nil_iff] at hnames
    subst hnames
    refine ⟨⟨rfl, describes_of_eq hkind rfl hpolicy, rfl, ?_⟩, Queue.all_leaf _ _ _⟩
    rw [hnone]
    rfl

variable {parent : String}

/-- The names of planned queues can stand in a tree. -/
theorem isPart_of_planAll {children : List (QueueConfig F)} {seen : List String}
    {planned : List (Planned F)} (h : planAll parent seen children = .ok planned) :
    ∀ c ∈ children, IsPart c.name := by
  induction children generalizing seen planned with
  | nil => simp
  | cons c rest ih =>
    obtain ⟨first, others, hfirst, hothers, -⟩ := planAll_cons_eq_ok_iff.mp h
    refine List.forall_mem_cons.mpr ⟨?_, ih hothers⟩
    cases c
    exact (planQueue_eq_ok_iff.mp hfirst).1

/-- Whether growing by planned queues puts some queues, the configured ones, behind the children of a
parent, in any tree that is clear of their names. -/
def Grows (parent : String) (children : List (QueueConfig F)) (wanted : List (String × QueueConfig F))
    (planned : List (Planned F)) : Prop :=
  ∀ t : QueueTree F, (∀ c ∈ children, t.root.Clear (child parent c.name)) →
    ∃ qs : List (Queue F), qs.map Queue.name = children.map (fun c => child parent c.name) ∧
      AllMatch wanted (qs.flatMap Queue.all) ∧
      planned.foldl QueueTree.growPlanned t =
        ⟨t.root.modify parent (Queue.addChildren qs), t.nextSerial + planned.length⟩

/-- Nothing planned puts nothing anywhere. -/
theorem grows_nil (parent : String) : Grows parent ([] : List (QueueConfig F)) [] [] := by
  intro t _
  refine ⟨[], rfl, .nil, ?_⟩
  rw [Queue.addChildren_nil, Queue.modify_id]
  rfl

/-- Growing by one plan after another puts one list of queues behind the other, if the first are not within
names of the others. -/
theorem Grows.append {children children' : List (QueueConfig F)}
    {wanted wanted' : List (String × QueueConfig F)} {planned planned' : List (Planned F)}
    (h : Grows parent children wanted planned) (h' : Grows parent children' wanted' planned')
    (hapart : ∀ e ∈ wanted, ∀ c ∈ children', Shape.isWithin e.1 (child parent c.name) = false) :
    Grows parent (children ++ children') (wanted ++ wanted') (planned ++ planned') := by
  intro t hclear
  rw [List.forall_mem_append] at hclear
  obtain ⟨qs, hnames, hmatch, hgrown⟩ := h t hclear.1
  have hothers : ∀ c ∈ children', ∀ q ∈ qs, q.Clear (child parent c.name) := by
    intro c hc q hq r hr
    have hname : r.name ∈ wanted.map (·.1) := by
      rw [← hmatch.map_name]
      exact List.mem_map_of_mem (List.mem_flatMap.mpr ⟨q, hq, hr⟩)
    obtain ⟨e, he, heq⟩ := List.mem_map.mp hname
    rw [← heq]
    exact hapart e he c hc
  obtain ⟨rs, hnames', hmatch', hgrown'⟩ :=
    h' ⟨t.root.modify parent (Queue.addChildren qs), t.nextSerial + planned.length⟩
      fun c hc => (hclear.2 c hc).addChildren (hothers c hc) parent
  refine ⟨qs ++ rs, ?_, ?_, ?_⟩
  · rw [List.map_append, List.map_append, hnames, hnames']
  · rw [List.flatMap_append]
    exact List.rel_append hmatch hmatch'
  · rw [List.foldl_append, hgrown, hgrown', Queue.modify_modify _ _ _ (Queue.name_addChildren qs),
      List.length_append, Nat.add_assoc]
    simp only [Queue.addChildren_addChildren]

/-- Growing by the plans of several queues one after another puts them behind the children of their parent,
if growing by the plan of each does. -/
theorem grows_planAll {children : List (QueueConfig F)}
    (hchildren : ∀ c ∈ children, ∀ (parent : String) (seen : List String) (planned : List (Planned F)),
      planQueue parent seen c = .ok planned → Grows parent [c] (entries parent c) planned)
    {seen : List String} {planned : List (Planned F)} (h : planAll parent seen children = .ok planned) :
    Grows parent children (entriesBelow parent children) planned := by
  induction children generalizing seen planned with
  | nil =>
    cases h
    rw [entriesBelow]
    exact grows_nil parent
  | cons c rest ih =>
    have hparts := List.forall_mem_cons.mp (isPart_of_planAll h)
    obtain ⟨first, others, hfirst, hothers, rfl⟩ := planAll_cons_eq_ok_iff.mp h
    obtain ⟨hunseen, -⟩ := planAll_lists (fun d _ => planQueue_lists d) parent _ others hothers
    obtain ⟨-, hlists⟩ := planQueue_lists c parent seen first hfirst
    rw [entriesBelow]
    refine (hchildren c List.mem_cons_self parent seen first hfirst).append
      (ih (fun d hd => hchildren d (List.mem_cons_of_mem c hd)) hothers) fun e he d hd => ?_
    rw [← hlists.entries] at he
    obtain ⟨p, hp, rfl⟩ := List.mem_map.mp he
    obtain ⟨n, hn, -, hwithin⟩ := hlists.within p hp
    rw [List.mem_singleton.mp hn] at hwithin
    rw [Bool.eq_false_iff]
    intro hother
    have hsame : c.name = d.name :=
      Shape.child_eq_of_isWithin hparts.1 (hparts.2 d hd) hwithin hother
    exact hunseen d hd (hsame ▸ List.mem_cons_self)

/-- Growing by the plan of a queue puts it behind the children of its parent. -/
theorem grows_planQueue (c : QueueConfig F) (parent : String) (seen : List String)
    (planned : List (Planned F)) (h : planQueue parent seen c = .ok planned) :
    Grows parent [c] (entries parent c) planned := by
  induction c using QueueConfig.induction generalizing parent seen planned with
  | node options children ih =>
    obtain ⟨-, -, policy, below, hpolicy, hbelow, rfl⟩ := planQueue_eq_ok_iff.mp h
    intro t hclear
    let c : QueueConfig F := .node options children
    let full := child parent c.name
    let made : Queue F := .fresh c.kind full (.ofOptions options false) policy t.nextSerial
    have hnew : t.root.Clear full := hclear c List.mem_cons_self
    obtain ⟨qs, hnames, hmatch, hgrown⟩ := grows_planAll ih hbelow
      ⟨t.root.modify parent (Queue.addChild made), t.nextSerial + 1⟩
      fun d _ => (hnew.below d.name).addChild (Queue.clear_fresh _ _ _ _ _ _) parent
    have hkind : c.kind = .parent ↔
        false = true ∨ c.children ≠ [] ∨ c.options.forceParent = true := by
      rw [kind_eq_parent_iff]
      simp
    obtain ⟨q, hq, hfits, hall⟩ := matches_addChildren c false full c.kind
      (policyAt_eq_ok_iff.mp hpolicy).1 hkind hnames t.nextSerial
    -- Only the new queue bears its name, so the queues below it come to stand below it.
    have hroot : (t.root.modify parent (Queue.addChild made)).modify full (Queue.addChildren qs) =
        t.root.modify parent (Queue.addChildren [q]) := by
      rw [Queue.modify_addChild hnew.ne, Queue.modify_of_name _ (Queue.name_fresh _ _ _ _ _), hq,
        ← Queue.addChild_eq_addChildren]
      rfl
    refine ⟨[q], congrArg (fun n => [n]) hfits.name, ?_, ?_⟩
    · rw [List.flatMap_singleton, hall, entries]
      exact .cons hfits hmatch
    · rw [List.foldl_cons, List.length_cons, ← hroot, Nat.add_comm below.length, ← Nat.add_assoc]
      exact hgrown

end QueueConfig

/-! ## The tree of a configuration -/

namespace QueueTree

/-- A configuration has a tree exactly if it is well formed. -/
theorem exists_ofConfig_iff (c : QueueConfig F) : (∃ t, ofConfig c = .ok t) ↔ c.WellFormed := by
  rw [← QueueConfig.admissible_iff, ← QueueConfig.exists_plan_iff]
  constructor
  · rintro ⟨t, ht⟩
    obtain ⟨planned, -, hplan, -⟩ := exists_plan_of_ofConfig ht
    exact ⟨planned, hplan⟩
  · rintro ⟨planned, hplan⟩
    obtain ⟨⟨policy, hpolicy, happlies⟩, -⟩ := QueueConfig.plan_eq_ok hplan
    exact ⟨_, (ofConfig_of_plan hplan hpolicy happlies).1⟩

/-- The tree of a configuration has the configured queues, in their order and under their full names. -/
theorem matches_ofConfig {c : QueueConfig F} {t : QueueTree F} (h : ofConfig c = .ok t) :
    c.Matches true QueueName.root t.root ∧ QueueConfig.AllMatch c.configured t.root.descendants := by
  obtain ⟨planned, policy, hplan, hpolicy, -, rfl⟩ := exists_plan_of_ofConfig h
  obtain ⟨-, -, hall⟩ := QueueConfig.plan_eq_ok_iff.mp hplan
  obtain ⟨qs, hnames, hmatch, hgrown⟩ :=
    QueueConfig.grows_planAll (fun d _ => QueueConfig.grows_planQueue d) hall (seed c policy)
      fun d _ => Queue.clear_fresh .parent QueueName.root (.ofOptions c.options true) policy 0 d.name
  obtain ⟨q, hq, hfits, hqs⟩ := QueueConfig.matches_addChildren c true QueueName.root .parent
    hpolicy (by simp) hnames 0
  have hroot : (planned.foldl growPlanned (seed c policy)).root = q := by
    rw [hgrown, hq]
    exact Queue.modify_of_name _ (wellNamed_seed c policy).root_name
  rw [hroot, Queue.descendants, hqs]
  exact ⟨hfits, hmatch⟩

end QueueTree

namespace Directory

variable {d : Directory F}

/-- Whether a written name leads to a queue, in the tree and through the index. -/
def LeadsTo (d : Directory F) (written : String) (q : Queue F) : Prop :=
  d.tree.lookup? written = some q ∧ d.lookup? written = some q.handle

/-- Whether the queues of a directory are the configured ones: those of the tree, in order, and those of the
index. Their full names lead to them, and so do their names below the root unless they look like full ones. -/
structure Mirrors (d : Directory F) (c : QueueConfig F) : Prop where
  root : c.Matches true QueueName.root d.tree.root
  below : QueueConfig.AllMatch c.configured d.tree.root.descendants
  names : (d.tree.root.all.map Queue.name).Nodup
  index : (d.tree.root.all.map fun q => (q.name, q.handle)).Perm d.index.entries
  full : ∀ q ∈ d.tree.root.all, d.LeadsTo q.name q
  relative : ∀ q ∈ d.tree.root.descendants, ∃ relative, q.name = child QueueName.root relative ∧
    (relative ≠ "root" → ¬ "root.".toList <+: relative.toList → d.LeadsTo relative q)

/-- What is completed to the name of a queue leads to it. -/
theorem Coherent.leadsTo (hd : d.Coherent) {q : Queue F} (hq : q ∈ d.tree.root.all) {written : String}
    (h : normalize written = .ok q.name) : d.LeadsTo written q := by
  have hboth : d.tree.lookup? written = d.tree.find? q.name ∧ d.lookup? written = d.index.get? q.name := by
    unfold QueueTree.lookup? Directory.lookup?
    simp only [h, and_self]
  obtain ⟨htree, hindex⟩ := hboth
  constructor
  · rw [htree]
    exact hd.sound.wellNamed.root.find?_eq_some_iff.mpr ⟨hq, rfl⟩
  · rw [hindex, hd.index, hd.bare?_of_mem hq, Option.map_some, Queue.handle, Queue.info_bare,
      Queue.kind_bare]
    rfl

/-- The directory of a configuration mirrors it. -/
theorem Coherent.mirrors (hd : d.Coherent) {c : QueueConfig F} (h : QueueTree.ofConfig c = .ok d.tree) :
    d.Mirrors c := by
  have hwell := hd.sound.wellNamed
  have hnames := hwell.root.nodup_names
  obtain ⟨hroot, hbelow⟩ := QueueTree.matches_ofConfig h
  have hpath : ∀ q ∈ d.tree.root.all, ∃ cs : List String, (∀ c ∈ cs, IsPart c) ∧
      q.name = cs.foldl child QueueName.root := by
    intro q hq
    rw [← hwell.root_name]
    exact hwell.root.exists_path_name hq
  refine ⟨hroot, hbelow, hnames, hd.traversal, fun q hq => ?_, fun q hq => ?_⟩
  · obtain ⟨cs, hcs, hname⟩ := hpath q hq
    exact hd.leadsTo hq (hname ▸ normalize_foldl_child hcs)
  · have hmem : q ∈ d.tree.root.all := List.mem_of_mem_tail hq
    obtain ⟨cs, hcs, hname⟩ := hpath q hmem
    cases cs with
    | nil =>
      -- Only the root bears its name.
      rw [Queue.all_eq_cons, List.map_cons, List.nodup_cons, hwell.root_name] at hnames
      exact absurd (List.mem_map.mpr ⟨q, hq, hname⟩) hnames.1
    | cons c rest =>
      have hrelative : (c :: rest).foldl child QueueName.root = child QueueName.root (rest.foldl child c) :=
        foldl_child_child QueueName.root c rest
      refine ⟨rest.foldl child c, hname.trans hrelative, fun hroot hstart => hd.leadsTo hmem ?_⟩
      rw [hname]
      refine normalize_relative hcs hrelative ?_
      rw [isAbsolute, Bool.or_eq_false_iff, decide_eq_false_iff_not, Bool.eq_false_iff, ne_eq,
        List.isPrefixOf_iff_prefix]
      exact ⟨hroot, hstart⟩

/-- A configuration is accepted exactly if it is well formed, and its directory then mirrors it. -/
theorem ofConfig_faithful (c : QueueConfig F) :
    QueueTree.ofConfig c = (ofConfig c).map tree ∧
      ((∃ d, ofConfig c = .ok d) ↔ c.WellFormed) ∧
      ∀ d, ofConfig c = .ok d → d.Mirrors c := by
  rw [← QueueTree.exists_ofConfig_iff]
  obtain ⟨d, hd, hcoherent, htree⟩ | ⟨e, hd, htree⟩ := ofConfig_cases c
  · rw [hd, htree]
    refine ⟨rfl, iff_of_true ⟨d, rfl⟩ ⟨d.tree, rfl⟩, fun d' hd' => ?_⟩
    cases hd'
    exact hcoherent.mirrors htree
  · rw [hd, htree]
    exact ⟨rfl, by simp, fun d' hd' => nomatch hd'⟩

/-- A configuration with a queue of the policy for leaves, in capitals, before a parent with a leaf. -/
def nested : QueueConfig Float :=
  .parent "root" [.node { QueueOptions.named "a" with policy := some "FIFO" } [], .parent "b" [.leaf "c"]]

/-- It has a directory, in which the leaf below the parent is reached from the root by a dotted name. -/
theorem ofConfig_faithful_of_nested :
    nested.WellFormed ∧ ∃ d, ofConfig nested = .ok d ∧ d.Mirrors nested ∧
      d.lookup? "b.c" = some ⟨3, .leaf⟩ := by
  have hreached : ((ofConfig nested).toOption.bind fun d => d.lookup? "b.c") = some ⟨3, .leaf⟩ := by
    decide +kernel
  obtain ⟨-, haccepted, hmirrors⟩ := ofConfig_faithful nested
  obtain ⟨d, hsome, hfound⟩ := Option.bind_eq_some_iff.mp hreached
  have hd : ofConfig nested = .ok d := by
    cases hmade : ofConfig nested with
    | error e => simp [hmade, Except.toOption] at hsome
    | ok d' => simpa [hmade, Except.toOption] using hsome
  exact ⟨haccepted.mp ⟨d, hd⟩, d, hd, hmirrors d hd, hfound⟩

end Directory

end Allotment
