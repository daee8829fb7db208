import Allotment.Proofs.Queue.Directory

/-!
# Directories that come about

A directory starts from a configuration and goes through the operations that a tree goes through,
each queue being reached through the index. Whatever the operations were, its tree is one that comes
about, and index, links and tree are one structure.
-/

namespace Allotment

open QueueName Shape

variable {F : Type} [Scalar F]

namespace Directory

open QueueTree (Operation)

/-- The directory after an operation, whether or not that was refused. -/
def apply (d : Directory F) : Operation F → Directory F
  | .locate name create kind => (d.locate name create kind).1
  | .reload c => (d.reload c).1
  | .setPolicy queue policy => d.act queue (·.offerPolicy (queue = QueueName.root) policy)
  | .addAttempt queue a => d.act queue (Queue.addAttempt a)
  | .removeAttempt queue id => d.act queue (Queue.removeAttempt id)
  | .mapAttempts f => { d with tree := { d.tree with root := d.tree.root.mapAttempts f } }
  | .takeSerial => { d with tree := { d.tree with nextSerial := d.tree.nextSerial + 1 } }
  | .setFairShare queue share => d.act queue fun q => q.withInfo ({ · with fairShare := share })
  | .giveFair queue share => d.act queue (·.giveFair share)
  | .giveSteady queue share => d.act queue (·.giveSteady share)
  | .updateDemand queue => d.act queue Queue.updateDemand
  | .assign queue cluster p => d.act queue fun q => (q.assign cluster p).subject
  | .preempt queue cluster isOver => d.act queue fun q => (q.preempt cluster isOver).1

/-- Whether a directory comes about from a configuration by operations. -/
inductive Reachable : Directory F → Prop where
  | start (c : QueueConfig F) (d : Directory F) (hmade : ofConfig c = .ok d) : Reachable d
  | step (d : Directory F) (op : Operation F) (h : Reachable d) : Reachable (d.apply op)

/-- Whether index, links and tree are one structure. -/
structure Consistent (d : Directory F) : Prop where
  /-- Following children from the root reaches every queue of the index once, and nothing else. -/
  traversal : (d.tree.root.all.map fun q => (q.name, q.handle)).Perm d.index.entries
  root_name : d.tree.root.name = QueueName.root
  /-- A child is named by its parent's name and one component more. -/
  child_name : ∀ r ∈ d.tree.root.all, ∀ q ∈ r.children, ∃ c, IsPart c ∧ q.name = child r.name c
  /-- With a name the index has that of the parent above. -/
  closed : ∀ n ∈ d.index.keys, n = QueueName.root ∨
    ∃ m c h, IsPart c ∧ n = child m c ∧ d.index.get? m = some h ∧ h.kind = .parent
  only_parents : ∀ r ∈ d.tree.root.all, r.children ≠ [] → r.kind = .parent
  /-- A queue knows the one among whose children it is. -/
  above : ∀ r ∈ d.tree.root.all, ∀ q ∈ r.children,
    d.above.get? q.info.serial = some r.info.serial
  above_root : d.above.get? d.tree.root.info.serial = none
  serials : (d.tree.root.all.map (·.info.serial)).Nodup
  policies : ∀ q ∈ d.tree.root.all,
    q.info.policy.appliesTo (Queue.place (q.name = QueueName.root) q.kind) = true
  fifo : ∀ q ∈ d.tree.root.all, q.kind = .parent → q.info.policy ≠ .fifo

variable {d : Directory F} {n : String}

namespace Coherent

omit [Scalar F] in
/-- A name that the index lacks stands for nothing. -/
theorem find?_eq_none (hd : d.Coherent) (hn : d.index.get? n = none) : d.tree.find? n = none := by
  rw [hd.index, Option.map_eq_none_iff, QueueTree.bare?, Option.map_eq_none_iff] at hn
  exact hn

omit [Scalar F] in
/-- A change of one queue that keeps the make is made through the index as in the tree. -/
theorem act (hd : d.Coherent) (n : String) {f : Queue F → Queue F}
    (hf : ∀ q, Queue.Similar QueueInfo.fixture q (f q)) :
    (d.act n f).Coherent ∧ (d.act n f).tree = d.tree.modify n f := by
  unfold Directory.act
  cases hn : d.index.get? n with
  | none => exact ⟨hd, (hd.sound.wellNamed.modify_missing (hd.find?_eq_none hn) f).symm⟩
  | some h =>
    simp only [hd.change_eq hn]
    exact ⟨hd.similar (Queue.similar_modify n d.tree.root fun q _ _ => hf q) (Nat.le_refl _), rfl⟩

omit [Scalar F] in
/-- A policy is offered through the index as in the tree. -/
theorem offerPolicy (hd : d.Coherent) (n : String) (policy : Policy) :
    (d.act n (·.offerPolicy (n = QueueName.root) policy)).Coherent ∧
      (d.act n (·.offerPolicy (n = QueueName.root) policy)).tree =
        d.tree.modify n (·.offerPolicy (n = QueueName.root) policy) := by
  unfold Directory.act
  cases hn : d.index.get? n with
  | none => exact ⟨hd, (hd.sound.wellNamed.modify_missing (hd.find?_eq_none hn) _).symm⟩
  | some h =>
    simp only [hd.change_eq hn]
    refine ⟨?_, rfl⟩
    obtain hsame | ⟨k, settings, hk, happlies, hgiven⟩ :=
      hd.sound.wellNamed.offerPolicy_cases n policy
    · rw [hsame]
      exact hd
    · rw [hd.kindOf?, hn, Option.map_some, Option.some.injEq] at hk
      rw [← hk] at happlies
      rw [hgiven]
      exact (hd.configure hn settings rfl happlies).2

/-- An operation on a coherent directory is the operation on its tree. -/
theorem apply (hd : d.Coherent) (op : Operation F) :
    (d.apply op).Coherent ∧ (d.apply op).tree = d.tree.apply op := by
  cases op with
  | locate name create kind =>
    have hfinds := hd.locate name create kind
    unfold Directory.apply QueueTree.apply
    exact ⟨hfinds.coherent, hfinds.tree⟩
  | reload c =>
    obtain ⟨hd', htree, -⟩ := hd.reload c
    exact ⟨hd', htree⟩
  | setPolicy queue policy => exact hd.offerPolicy queue policy
  | addAttempt queue a => exact hd.act queue (Queue.similar_addAttempt a)
  | removeAttempt queue id => exact hd.act queue (Queue.similar_removeAttempt id)
  | mapAttempts f =>
    exact ⟨hd.similar (Queue.similar_mapAttempts f d.tree.root) (Nat.le_refl _), rfl⟩
  | takeSerial => exact ⟨hd.similar (.refl _ d.tree.root) (Nat.le_succ _), rfl⟩
  | setFairShare queue share =>
    exact hd.act queue (Queue.similar_withInfo ({ · with fairShare := share }) fun _ => rfl)
  | giveFair queue share => exact hd.act queue fun q => q.similar_giveFair share
  | giveSteady queue share => exact hd.act queue fun q => q.similar_giveSteady share
  | updateDemand queue => exact hd.act queue fun q => q.similar_updateDemand
  | assign queue cluster p => exact hd.act queue fun q => q.similar_assign cluster p
  | preempt queue cluster isOver => exact hd.act queue fun q => q.similar_preempt cluster isOver

omit [Scalar F] in
/-- A queue of the tree is what its name stands for. -/
theorem bare?_of_mem (hd : d.Coherent) {q : Queue F} (hq : q ∈ d.tree.root.all) :
    d.tree.bare? q.name = some q.bare := by
  rw [hd.sound.wellNamed.bare?_eq_some_iff, Queue.name_bare]
  exact ⟨List.mem_map.mpr ⟨q, hq, rfl⟩, rfl⟩

omit [Scalar F] in
/-- Following children from the root reaches every queue of the index once, and nothing else. -/
theorem traversal (hd : d.Coherent) :
    (d.tree.root.all.map fun q => (q.name, q.handle)).Perm d.index.entries := by
  have hnames : ((d.tree.root.all.map fun q => (q.name, q.handle)).map (·.1)).Nodup := by
    rw [List.map_map]
    exact hd.sound.wellNamed.root.nodup_names
  rw [List.perm_ext_iff_of_nodup hnames.of_map d.index.nodup_keys.of_map]
  rintro ⟨n, h⟩
  rw [← Table.get?_eq_some_iff, hd.index, Option.map_eq_some_iff, List.mem_map]
  constructor
  · rintro ⟨q, hq, heq⟩
    obtain ⟨rfl, rfl⟩ := Prod.mk.inj heq
    exact ⟨q.bare, hd.bare?_of_mem hq, by rw [Queue.handle, Queue.info_bare, Queue.kind_bare]; rfl⟩
  · rintro ⟨b, hb, hhandle⟩
    obtain ⟨hmem, hname⟩ := hd.sound.wellNamed.bare?_eq_some_iff.mp hb
    obtain ⟨q, hq, rfl⟩ := List.mem_map.mp hmem
    rw [Queue.handle, Queue.info_bare, Queue.kind_bare] at hhandle
    rw [Queue.name_bare] at hname
    exact ⟨q, hq, Prod.ext hname hhandle⟩

omit [Scalar F] in
/-- In a coherent directory index, links and tree are one structure. -/
theorem consistent (hd : d.Coherent) : d.Consistent := by
  have hwell := hd.sound.wellNamed
  have hpolicies : ∀ q ∈ d.tree.root.all,
      q.info.policy.appliesTo (Queue.place (q.name = QueueName.root) q.kind) = true := by
    intro q hq
    have happlies := hd.sound.applies q.name q.bare (hd.bare?_of_mem hq)
    rw [Queue.info_bare, Queue.kind_bare] at happlies
    exact happlies
  have hchildren : ∀ r ∈ d.tree.root.all, ∀ q ∈ r.children,
      ∃ c, IsPart c ∧ q.name = child r.name c := by
    intro r hr q hq
    cases r with
    | leaf info runnable parked => simp [Queue.children] at hq
    | parent info children => exact ((Queue.wellNamed_parent_iff.mp (hwell.root.of_mem hr)).2 q hq).1
  constructor
  case traversal => exact hd.traversal
  case root_name => exact hwell.root_name
  case child_name => exact hchildren
  case closed =>
    intro n hn
    rw [hd.keys_eq, hwell.mem_sorted_names_iff] at hn
    obtain ⟨b, hb⟩ := hn
    obtain hroot | ⟨m, c, hc, hname, hkind⟩ := hwell.exists_parent hb
    · exact .inl hroot
    · rw [hd.kindOf?] at hkind
      obtain ⟨h, hm, hparent⟩ := Option.map_eq_some_iff.mp hkind
      exact .inr ⟨m, c, h, hc, hname, hm, hparent⟩
  case only_parents =>
    intro r _ hr
    cases r with
    | leaf info runnable parked => exact absurd rfl hr
    | parent info children => rfl
  case above =>
    intro r hr q hq
    obtain ⟨c, hc, hname⟩ := hchildren r hr q hq
    have hb := hd.bare?_of_mem (Queue.mem_all_of_mem_children hr hq)
    rw [hname] at hb
    obtain ⟨a, ha, habove⟩ := hd.above r.name c q.bare hc hb
    rw [hd.bare?_of_mem hr, Option.some.injEq] at ha
    rw [← ha, Queue.info_bare, Queue.info_bare] at habove
    exact habove
  case above_root =>
    have htop := hd.top d.tree.root.bare hwell.bare?_root
    rw [Queue.info_bare] at htop
    exact htop
  case serials =>
    apply List.Nodup.map_on _ hwell.root.nodup_names.of_map
    intro q hq r hr hserial
    have hname := (hd.sound.serial_iff (hd.bare?_of_mem hr) hq).mp (by rw [Queue.info_bare, hserial])
    exact List.inj_on_of_nodup_map hwell.root.nodup_names hq hr hname
  case policies => exact hpolicies
  case fifo =>
    intro q hq hkind hfifo
    have happlies := hpolicies q hq
    rw [hkind, hfifo] at happlies
    by_cases hroot : q.name = QueueName.root <;> simp [Queue.place, hroot] at happlies <;>
      exact absurd happlies (by decide)

end Coherent

/-! ## Directories and trees that come about -/

/-- A directory that comes about is coherent, and its tree comes about too. -/
theorem Reachable.coherent (h : d.Reachable) : d.Coherent ∧ d.tree.Reachable := by
  induction h with
  | start c d hmade =>
    obtain ⟨d', hok, hd, htree⟩ | ⟨e, herror, -⟩ := ofConfig_cases c
    · obtain rfl : d = d' := Except.ok.inj (hmade.symm.trans hok)
      exact ⟨hd, .start c d.tree htree⟩
    · rw [hmade] at herror
      contradiction
  | step d op h ih =>
    obtain ⟨hd, htree⟩ := ih.1.apply op
    refine ⟨hd, ?_⟩
    rw [htree]
    exact .step d.tree op ih.2

/-- Every tree that comes about is that of a directory that does. -/
theorem exists_directory {t : QueueTree F} (h : t.Reachable) :
    ∃ d : Directory F, d.Reachable ∧ d.tree = t := by
  induction h with
  | start c t hmade =>
    obtain ⟨d, hok, -, htree⟩ | ⟨e, -, herror⟩ := ofConfig_cases c
    · exact ⟨d, .start c d hok, Except.ok.inj (htree.symm.trans hmade)⟩
    · rw [hmade] at herror
      contradiction
  | step t op h ih =>
    obtain ⟨d, hd, rfl⟩ := ih
    exact ⟨d.apply op, .step d op hd, (hd.coherent.1.apply op).2⟩

/-- In a directory that has come about index, links and tree are one structure. The directory after
each further operation has the tree that the operation on trees gives. -/
theorem Reachable.one_structure (h : d.Reachable) :
    d.Consistent ∧ d.tree.Reachable ∧ ∀ op, (d.apply op).tree = d.tree.apply op :=
  ⟨h.coherent.1.consistent, h.coherent.2, fun op => (h.coherent.1.apply op).2⟩

/-- The directory of the tree with one leaf. -/
def oneLeaf : Directory Float where
  tree := QueueTree.oneLeaf
  index := (Table.empty.insert "root" ⟨0, .parent⟩).insert "root.a" ⟨1, .leaf⟩
  above := Table.empty.insert 1 0

/-- The directory after a second leaf was asked for below a parent that was missing. -/
def twoLeaves : Directory Float := oneLeaf.apply (.locate "b.c" true .leaf)

/-- The missing parent and the leaf below it have entered index and tree. When a configuration then
replaces the first leaf by a parent and drops the second, both follow. -/
theorem one_structure_of_twoLeaves :
    twoLeaves.Reachable ∧
      twoLeaves.index.keys = ["root", "root.a", "root.b", "root.b.c"] ∧ twoLeaves.Consistent ∧
      (twoLeaves.apply (.reload (.parent "root" [.parent "a" [.leaf "b"]]))).Consistent := by
  have hstart : oneLeaf.Reachable := .start (.parent "root" [.leaf "a"]) oneLeaf rfl
  have hgrown : twoLeaves.Reachable := .step oneLeaf _ hstart
  have hreloaded := Reachable.step twoLeaves (.reload (.parent "root" [.parent "a" [.leaf "b"]]))
    hgrown
  exact ⟨hgrown, rfl, hgrown.one_structure.1, hreloaded.one_structure.1⟩

end Directory

end Allotment
