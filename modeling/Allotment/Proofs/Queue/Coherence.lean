import Allotment.Proofs.Queue.Handles
import Allotment.Proofs.Queue.Settled
import Allotment.Proofs.Table

/-!
# Index and tree say the same

A directory is coherent if its tree is sound, its index refers every name to the queue that the tree
has under it, and every queue knows the one above it. Each operation on a coherent directory does to
its tree what the operation on trees does, answers the same, and leaves it coherent.
-/

namespace Allotment

open QueueName Shape

variable {F : Type}

namespace Directory

/-- Whether index, links and tree of a directory go together. -/
structure Coherent (d : Directory F) : Prop where
  sound : d.tree.Sound
  index : ∀ n, d.index.get? n = (d.tree.bare? n).map Queue.handle
  above : ∀ n c b, IsPart c → d.tree.bare? (child n c) = some b →
    ∃ a, d.tree.bare? n = some a ∧ d.above.get? b.info.serial = some a.info.serial
  top : ∀ b, d.tree.bare? QueueName.root = some b → d.above.get? b.info.serial = none

/-- The directory with another tree. -/
def withTree (d : Directory F) (t : QueueTree F) : Directory F := { d with tree := t }

/-- The directory with a new queue behind the children of a parent. -/
def grown (d : Directory F) (kind : QueueKind) (parent : String) (h : Handle) (name : String)
    (settings : QueueSettings F) (policy : Policy) : Directory F where
  tree := d.tree.grow kind parent name settings policy
  index := d.index.insert name ⟨d.tree.nextSerial, kind⟩
  above := d.above.insert d.tree.nextSerial h.serial

/-- Whether an operation has succeeded and left a coherent directory of a tree. -/
def Yields (r : Directory F × Except Error Unit) (t : QueueTree F) : Prop :=
  ∃ d, r = (d, .ok ()) ∧ d.Coherent ∧ d.tree = t

variable {d : Directory F} {n : String} {h : Handle}

namespace Coherent

/-- What names refer to tells whether a directory is coherent. -/
theorem withTree (hd : d.Coherent) {t : QueueTree F} (ht : t.Sound)
    (hsame : ∀ n, (t.bare? n).map Queue.handle = (d.tree.bare? n).map Queue.handle) :
    (d.withTree t).Coherent := by
  have hback : ∀ n b, t.bare? n = some b →
      ∃ a, d.tree.bare? n = some a ∧ a.info.serial = b.info.serial := by
    intro n b hb
    have hfound := hsame n
    rw [hb, Option.map_some] at hfound
    obtain ⟨a, ha, hhandle⟩ := Option.map_eq_some_iff.mp hfound.symm
    exact ⟨a, ha, congrArg Handle.serial hhandle⟩
  refine ⟨ht, fun n => (hd.index n).trans (hsame n).symm, ?_, ?_⟩
  · intro n c b hc hb
    obtain ⟨a, ha, hserial⟩ := hback _ b hb
    obtain ⟨p, hp, habove⟩ := hd.above n c a hc ha
    have hfound := hsame n
    rw [hp, Option.map_some] at hfound
    obtain ⟨p', hp', hhandle⟩ := Option.map_eq_some_iff.mp hfound
    have hparent : p'.info.serial = p.info.serial := congrArg Handle.serial hhandle
    refine ⟨p', hp', ?_⟩
    rw [← hserial, hparent]
    exact habove
  · intro b hb
    obtain ⟨a, ha, hserial⟩ := hback _ b hb
    rw [← hserial]
    exact hd.top a ha

/-- A reference in the index is that of the queue that the tree has under the name. -/
theorem exists_bare? (hd : d.Coherent) (hn : d.index.get? n = some h) :
    ∃ b, d.tree.bare? n = some b ∧ b.info.serial = h.serial ∧ b.kind = h.kind := by
  rw [hd.index] at hn
  obtain ⟨b, hb, rfl⟩ := Option.map_eq_some_iff.mp hn
  exact ⟨b, hb, rfl, rfl⟩

/-- The kind in the index is that of the queue. -/
theorem kindOf? (hd : d.Coherent) (n : String) :
    d.tree.kindOf? n = (d.index.get? n).map Handle.kind := by
  rw [QueueTree.kindOf?_eq_map_bare?, hd.index, Option.map_map]
  rfl

/-- The queues of the serial number of a reference are those of the name. -/
theorem serial_iff (hd : d.Coherent) (hn : d.index.get? n = some h) :
    ∀ r ∈ d.tree.root.all, r.info.serial = h.serial ↔ r.name = n := by
  obtain ⟨b, hb, hserial, -⟩ := hd.exists_bare? hn
  intro r hr
  rw [← hserial]
  exact hd.sound.serial_iff hb hr

/-- Changing a queue by reference is changing it by name. -/
theorem change_eq (hd : d.Coherent) (hn : d.index.get? n = some h) (f : Queue F → Queue F) :
    d.change h f = d.withTree (d.tree.modify n f) := by
  rw [change, Queue.modifyAt_eq_modify (hd.serial_iff hn)]
  rfl

/-- A reference leads to the queue of the name. -/
theorem at?_eq (hd : d.Coherent) (hn : d.index.get? n = some h) :
    d.tree.root.at? h.serial = d.tree.find? n :=
  Queue.at?_eq_find? (hd.serial_iff hn)

/-- A change of one queue that leaves its reference as it is, and its policy applicable, leaves a
directory coherent. -/
theorem modify (hd : d.Coherent) {f : Queue F → Queue F} (hf : Queue.Local f)
    (hhandle : ∀ q, (f q).handle = q.handle)
    (hpolicy : ∀ b, d.tree.bare? n = some b →
      (f b).info.policy.appliesTo (Queue.place (n = QueueName.root) b.kind) = true) :
    (d.withTree (d.tree.modify n f)).Coherent := by
  apply hd.withTree (hd.sound.modify_local hf hhandle hpolicy)
  intro m
  rw [(hd.sound.wellNamed.modify_local hf n).2]
  split
  · rw [Option.map_map]
    exact congrArg (Option.map · _) (funext hhandle)
  · rfl

/-- A tree of one make leaves a directory coherent. -/
theorem similar (hd : d.Coherent) {t : QueueTree F}
    (hsim : Queue.Similar QueueInfo.fixture d.tree.root t.root)
    (hnext : d.tree.nextSerial ≤ t.nextSerial) : (d.withTree t).Coherent := by
  have hedit : QueueTree.Edit d.tree t := .similar d.tree t.root t.nextSerial hsim hnext
  have ht := hedit.sound hd.sound
  apply hd.withTree ht
  intro m
  have hkinds := (hd.sound.wellNamed.of_similar hsim.names t.nextSerial).2 m
  cases hb : t.bare? m with
  | none =>
    have hnone : d.tree.bare? m = none := by
      rw [QueueTree.bare?_eq_none_iff, ← hkinds]
      exact QueueTree.bare?_eq_none_iff.mp hb
    rw [hnone]
  | some b =>
    obtain ⟨a, ha, hfixture, hkind⟩ := hd.sound.wellNamed.bare?_of_similar ht.wellNamed hsim hb
    have hserial : b.info.serial = a.info.serial := congrArg Fixture.serial hfixture
    rw [ha, Option.map_some, Option.map_some, Queue.handle, Queue.handle, hkind, hserial]

/-- The index has the root, and refers to it. -/
theorem index_root (hd : d.Coherent) : d.index.get? QueueName.root = some d.top := by
  rw [hd.index, hd.sound.wellNamed.bare?_root, Option.map_some, Queue.handle, Queue.info_bare,
    Queue.kind_bare, hd.sound.wellNamed.root_kind]
  rfl

/-- Whether a queue is vacant is told by reference as by name. -/
theorem isVacant_eq (hd : d.Coherent) (hn : d.index.get? n = some h) {q : Queue F}
    (hq : d.tree.find? n = some q) : d.isVacant h = q.isVacant := by
  rw [isVacant, hd.at?_eq hn, hq]
  rfl

/-- A reference in the index leads to a queue. -/
theorem exists_find? (hd : d.Coherent) (hn : d.index.get? n = some h) :
    ∃ q, d.tree.find? n = some q ∧ q.kind = h.kind := by
  obtain ⟨b, hb, -, hkind⟩ := hd.exists_bare? hn
  obtain ⟨q, hq, hqkind, -⟩ := QueueTree.find?_of_bare? hb
  exact ⟨q, hq, hqkind.trans hkind⟩

/-! ## Creating a queue -/

/-- A new queue gets the next serial number, and is put where it belongs. -/
theorem create_eq (hd : d.Coherent) {kind : QueueKind} {parent : String} (name : String)
    (settings : QueueSettings F) {policy : Policy} (hparent : d.index.get? parent = some h)
    (happlies : policy.appliesTo (Queue.place false kind) = true) :
    d.create kind h name settings policy =
      (d.grown kind parent h name settings policy, .ok ⟨d.tree.nextSerial, kind⟩) := by
  have hnew := (Queue.new?_eq_ok_iff kind name settings policy d.tree.nextSerial).mpr
    ⟨happlies, rfl⟩
  have hhandle : (Queue.fresh kind name settings policy d.tree.nextSerial).handle =
      ⟨d.tree.nextSerial, kind⟩ := by
    rw [Queue.handle, Queue.info_fresh, Queue.kind_fresh]
  have hserial := congrArg Handle.serial hhandle
  unfold Directory.create
  rw [hnew]
  simp only [hd.change_eq hparent, hhandle]
  rw [show (Queue.fresh kind name settings policy d.tree.nextSerial).info.serial =
    d.tree.nextSerial from hserial]
  rfl

/-- A new queue under a parent enters tree and index together. -/
theorem grown (hd : d.Coherent) {kind : QueueKind} {parent c : String} (settings : QueueSettings F)
    {policy : Policy} (hc : IsPart c) (hparent : d.index.get? parent = some h)
    (hkind : h.kind = .parent) (hfresh : d.index.get? (child parent c) = none)
    (happlies : policy.appliesTo (Queue.place false kind) = true) :
    (d.grown kind parent h (child parent c) settings policy).Coherent := by
  have hparentKind : d.tree.kindOf? parent = some .parent := by
    rw [hd.kindOf?, hparent, Option.map_some, hkind]
  have hfreshKind : d.tree.kindOf? (child parent c) = none := by
    rw [hd.kindOf?, hfresh]
    rfl
  have hbares : ∀ m, (d.grown kind parent h (child parent c) settings policy).tree.bare? m = _ :=
    (hd.sound.wellNamed.grow hc hparentKind hfreshKind settings policy).2
  have hnone := QueueTree.bare?_eq_none_iff.mpr hfreshKind
  have hold : ∀ m b, d.tree.bare? m = some b →
      m ≠ child parent c ∧ d.tree.nextSerial ≠ b.info.serial := by
    intro m b hb
    refine ⟨?_, Ne.symm (Nat.ne_of_lt (hd.sound.serial_lt m b hb))⟩
    intro heq
    rw [heq, hnone] at hb
    contradiction
  refine ⟨(QueueTree.Edit.grow d.tree kind parent c settings policy hc hparentKind hfreshKind
    happlies).sound hd.sound, ?_, ?_, ?_⟩
  · intro m
    rw [hbares, Directory.grown, Table.get?_insert]
    by_cases hm : child parent c = m
    · rw [if_pos hm, if_pos hm.symm, Option.map_some, Queue.handle, Queue.info_fresh,
        Queue.kind_fresh]
    · rw [if_neg hm, if_neg (Ne.symm hm)]
      exact hd.index m
  · intro n' c' b hc' hb
    rw [hbares] at hb
    simp only [hbares]
    rw [Directory.grown, Table.get?_insert]
    split at hb
    · rename_i hname
      obtain rfl := child_injective hc' hc hname
      obtain ⟨a, ha, hserial, -⟩ := hd.exists_bare? hparent
      rw [Option.some.injEq] at hb
      refine ⟨a, by rw [if_neg (hold n' a ha).1, ha], ?_⟩
      rw [← hb, Queue.info_fresh, if_pos rfl, hserial]
    · obtain ⟨a, ha, habove⟩ := hd.above n' c' b hc' hb
      refine ⟨a, by rw [if_neg (hold n' a ha).1, ha], ?_⟩
      rw [if_neg (hold _ b hb).2]
      exact habove
  · intro b hb
    rw [hbares, if_neg (hold _ _ hd.sound.wellNamed.bare?_root).1] at hb
    rw [Directory.grown, Table.get?_insert, if_neg (hold _ b hb).2]
    exact hd.top b hb

/-- A planned queue under a parent enters tree and index together. -/
theorem createPlanned (hd : d.Coherent) {p : Planned F} (hp : p.Fits)
    (hparent : d.tree.kindOf? p.parent = some .parent) (hfresh : d.tree.kindOf? p.name = none) :
    Yields (d.createPlanned p) (d.tree.growPlanned p) := by
  rw [hd.kindOf?] at hparent
  obtain ⟨h, hindex, hkind⟩ := Option.map_eq_some_iff.mp hparent
  rw [hd.kindOf?, Option.map_eq_none_iff, hp.name] at hfresh
  have hgrown := hd.grown p.settings hp.part hindex hkind hfresh hp.appliesTo
  rw [← hp.name] at hgrown
  unfold Directory.createPlanned
  rw [hindex]
  simp only [hkind, hd.create_eq p.name _ hindex hp.appliesTo]
  exact ⟨_, rfl, hgrown, rfl⟩

/-- The queues of a plan enter tree and index one after another. -/
theorem createAll (hd : d.Coherent) {done rest : List (Planned F)} (hbuilt : d.tree.Built done)
    (horder : InOrder QueueName.root (done ++ rest)) :
    Yields (d.createAll rest) (rest.foldl QueueTree.growPlanned d.tree) := by
  induction rest generalizing d done with
  | nil => exact ⟨d, rfl, hd, rfl⟩
  | cons p rest ih =>
    obtain ⟨hfits, hparent, hfresh⟩ := hbuilt.placed horder
    obtain ⟨d', hcreated, hd', htree⟩ := hd.createPlanned hfits hparent hfresh
    obtain ⟨-, -, hnext⟩ := hbuilt.createPlanned horder
    rw [← htree] at hnext
    rw [Directory.createAll, hcreated, List.foldl_cons, ← htree]
    exact ih hd' hnext (by simpa using horder)

/-! ## Letting go of a queue -/

/-- A queue other than the root is let go of by the one above it, and leaves the index with all below
it. -/
theorem detach (hd : d.Coherent) (hn : d.index.get? n = some h)
    (hroot : Shape.isWithin QueueName.root n = false) :
    (d.detach n).Coherent ∧ (d.detach n).tree = d.tree.detach n := by
  obtain ⟨b, hb, hserial, -⟩ := hd.exists_bare? hn
  have htree : (d.detach n).tree = d.tree.detach n := by
    obtain rfl | ⟨m, c, hc, rfl, -⟩ := hd.sound.wellNamed.exists_parent hb
    · rw [isWithin_self] at hroot
      contradiction
    · obtain ⟨a, ha, habove⟩ := hd.above m c b hc hb
      have hm : d.index.get? m = some a.handle := by rw [hd.index, ha, Option.map_some]
      have hlink : (d.index.get? (child m c)).bind (fun h => d.above.get? h.serial) =
          some a.info.serial := by
        rw [hn, Option.bind_some, ← hserial]
        exact habove
      unfold Directory.detach
      rw [hlink]
      change (d.change a.handle _).tree = _
      rw [hd.change_eq hm, QueueTree.detach, hd.sound.wellNamed.root.remove_eq_modify hc]
      rfl
  have hbares := hd.sound.wellNamed.bare?_detach hroot
  have habove : (d.detach n).above = d.above := by
    unfold Directory.detach
    split <;> rfl
  refine ⟨⟨?_, ?_, ?_, ?_⟩, htree⟩
  · rw [htree]
    exact (QueueTree.Edit.detach d.tree n hroot).sound hd.sound
  · intro m
    rw [htree, hbares]
    change (d.index.filterMap _).get? m = _
    rw [Table.get?_filterMap, hd.index]
    split <;> cases d.tree.bare? m <;> simp
  · intro m c a hc ha
    rw [htree, hbares] at ha
    split at ha
    · contradiction
    · rename_i hout
      obtain ⟨p, hp, hlink⟩ := hd.above m c a hc ha
      -- What is above a queue that stays stays.
      have hstays : ¬ Shape.isWithin m n = true :=
        fun hwithin => hout (isWithin_trans (isWithin_child m c) hwithin)
      exact ⟨p, by rw [htree, hbares, if_neg hstays, hp], by rw [habove]; exact hlink⟩
  · intro a ha
    rw [htree, hbares, if_neg (by simp [hroot])] at ha
    rw [habove]
    exact hd.top a ha

/-- A queue is removed, if nothing in it holds applications, from index and tree together. -/
theorem prune (hd : d.Coherent) (hroot : Shape.isWithin QueueName.root n = false) :
    (d.prune n).Coherent ∧ (d.prune n).tree = d.tree.prune n := by
  unfold Directory.prune QueueTree.prune
  cases hn : d.index.get? n with
  | none =>
    have hnone : d.tree.find? n = none := by
      have hfound := hd.index n
      rw [hn, QueueTree.bare?, Option.map_map, eq_comm, Option.map_eq_none_iff] at hfound
      exact hfound
    simp only [hnone]
    exact ⟨hd, trivial⟩
  | some h =>
    obtain ⟨q, hq, -⟩ := hd.exists_find? hn
    simp only [hq, hd.isVacant_eq hn hq]
    split
    · exact hd.detach hn hroot
    · exact ⟨hd, rfl⟩

/-- Queues are removed from index and tree together. -/
theorem pruneAll (hd : d.Coherent) {names : List String}
    (hroot : ∀ n ∈ names, Shape.isWithin QueueName.root n = false) :
    (names.foldl Directory.prune d).Coherent ∧
      (names.foldl Directory.prune d).tree = names.foldl QueueTree.prune d.tree := by
  induction names generalizing d with
  | nil => exact ⟨hd, rfl⟩
  | cons n rest ih =>
    obtain ⟨hfirst, htree⟩ := hd.prune (hroot n List.mem_cons_self)
    rw [List.foldl_cons, List.foldl_cons, ← htree]
    exact ih hfirst fun m hm => hroot m (List.mem_cons_of_mem n hm)

/-- The index lists the names of the tree. -/
theorem keys_eq (hd : d.Coherent) : d.index.keys = d.tree.names := by
  have hmem : ∀ n, n ∈ d.index.keys ↔ n ∈ d.tree.names := by
    intro n
    have hkey : n ∈ d.index.keys ↔ ∃ h, d.index.get? n = some h := by
      simp [Table.keys, Table.get?_eq_some_iff]
    rw [hkey, hd.index, hd.sound.wellNamed.mem_sorted_names_iff]
    simp
  have hsorted : d.tree.names.Pairwise (· ≤ ·) := by
    have htexts : d.tree.names.Pairwise fun a b => decide (a ≤ b) = true := by
      apply List.pairwise_mergeSort
      · intro a b c hab hbc
        simp only [decide_eq_true_eq] at hab hbc ⊢
        exact String.le_trans hab hbc
      · intro a b
        simpa using String.le_total a b
    exact htexts.imp fun hab => by simpa using hab
  have hnames : d.tree.names.Nodup :=
    (List.mergeSort_perm _ _).nodup_iff.mpr hd.sound.wellNamed.root.nodup_names
  have hkeys : d.index.keys.Pairwise (· ≤ ·) :=
    List.pairwise_map.mpr (d.index.ascending.imp fun hab => Std.le_of_lt hab)
  have hperm := (List.perm_ext_iff_of_nodup d.index.nodup_keys hnames).mpr hmem
  exact hperm.eq_of_pairwise (fun a b _ _ => String.le_antisymm) hkeys hsorted

end Coherent

end Directory

end Allotment
