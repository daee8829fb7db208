import Allotment.Proofs.Queue.Modify
import Allotment.Proofs.Queue.Seats

/-!
# What a tree says of a name

`bare?` gives the queue of a name without those below it. Each thing that a reload does to a tree is
one of three: it changes one queue, removes one with all below it, or grows by a new one. Here is said
of each what every name then stands for, and that the seats of applications stay.
-/

namespace Allotment

open QueueName Shape

variable {F : Type}

namespace Queue

/-- A new queue without applications and children. -/
def fresh (kind : QueueKind) (name : String) (settings : QueueSettings F) (policy : Policy)
    (serial : ℕ) : Queue F :=
  match kind with
  | .leaf => leaf ⟨name, serial, policy, settings, 0, 0, 0⟩ [] []
  | .parent => parent ⟨name, serial, policy, settings, 0, 0, 0⟩ []

section Fresh

variable (kind : QueueKind) (n : String) (settings : QueueSettings F) (policy : Policy) (serial : ℕ)

@[simp] theorem info_fresh :
    (fresh kind n settings policy serial).info = ⟨n, serial, policy, settings, 0, 0, 0⟩ := by
  cases kind <;> rfl

@[simp] theorem name_fresh : (fresh kind n settings policy serial).name = n := by
  cases kind <;> rfl

@[simp] theorem kind_fresh : (fresh kind n settings policy serial).kind = kind := by
  cases kind <;> rfl

@[simp] theorem bares_fresh :
    (fresh kind n settings policy serial).bares = [fresh kind n settings policy serial] := by
  cases kind <;> simp [fresh]

@[simp] theorem seats_fresh : (fresh kind n settings policy serial).seats = [] := by
  cases kind <;> simp [fresh]

/-- A new queue is well named. -/
theorem wellNamed_fresh : (fresh kind n settings policy serial).WellNamed := by
  cases kind with
  | leaf => exact wellNamed_leaf _ _ _
  | parent => exact wellNamed_parent_iff.mpr (by simp)

/-- A queue whose policy applies to its place is made. -/
theorem new?_eq_ok_iff {isRoot : Bool} {q : Queue F} :
    new? kind isRoot n settings policy serial = .ok q ↔
      policy.appliesTo (place isRoot kind) = true ∧ q = fresh kind n settings policy serial := by
  unfold new?
  split
  · rename_i happlies
    cases kind <;> simp [happlies, fresh, eq_comm]
  · rename_i happlies
    simp [happlies]

end Fresh

/-- The queue with other settings and another policy. -/
def configure (settings : QueueSettings F) (policy : Policy) : Queue F → Queue F :=
  withInfo ({ · with settings := settings, policy := policy })

/-- New settings and a new policy concern a queue alone. -/
theorem local_configure (settings : QueueSettings F) (policy : Policy) :
    Local (configure settings policy) :=
  .withInfo fun _ => rfl

/-- New settings and a new policy keep the seats. -/
theorem seats_configure (settings : QueueSettings F) (policy : Policy) (q : Queue F) :
    (q.configure settings policy).seats = q.seats :=
  seats_withInfo (f := ({ · with settings := settings, policy := policy })) (fun _ => rfl)
    (fun _ => rfl) q

end Queue

namespace QueueTree

variable {t : QueueTree F}

/-- The queue of a name, without those below it. -/
def bare? (t : QueueTree F) (n : String) : Option (Queue F) := (t.find? n).map Queue.bare

namespace WellNamed

/-- A name stands for the queue whose entry bears it. -/
theorem bare?_eq_some_iff (h : t.WellNamed) {n : String} {b : Queue F} :
    t.bare? n = some b ↔ b ∈ t.root.bares ∧ b.name = n :=
  h.root.find?_bare_eq_some_iff

end WellNamed

/-- A name for which a queue is found stands for that queue. -/
theorem bare?_of_find? {n : String} {q : Queue F} (h : t.find? n = some q) :
    t.bare? n = some q.bare := by
  rw [bare?, h, Option.map_some]

/-- A queue that is found is what its name stands for, but for what is below it. -/
theorem find?_of_bare? {n : String} {b : Queue F} (h : t.bare? n = some b) :
    ∃ q, t.find? n = some q ∧ q.kind = b.kind ∧ q.info = b.info := by
  obtain ⟨q, hq, rfl⟩ := Option.map_eq_some_iff.mp h
  exact ⟨q, hq, q.kind_bare.symm, q.info_bare.symm⟩

/-- The kind of a name is that of the queue it stands for. -/
theorem kindOf?_eq_map_bare? (t : QueueTree F) (n : String) :
    t.kindOf? n = (t.bare? n).map Queue.kind := by
  simp [kindOf?, bare?, Function.comp_def]

/-- A name stands for nothing exactly if it has no kind. -/
theorem bare?_eq_none_iff {n : String} : t.bare? n = none ↔ t.kindOf? n = none := by
  rw [kindOf?_eq_map_bare?, Option.map_eq_none_iff]

/-! ## Changing one queue -/

/-- A change of one queue keeps a tree well named, and changes what that queue's name stands for. -/
theorem WellNamed.modify_local (h : t.WellNamed) {f : Queue F → Queue F} (hf : Queue.Local f)
    (n : String) : (t.modify n f).WellNamed ∧
      ∀ m, (t.modify n f).bare? m = if m = n then (t.bare? m).map f else t.bare? m := by
  have hwell : (t.modify n f).WellNamed :=
    (h.of_similar (Queue.similar_modify n t.root fun q _ _ => hf.similar q) t.nextSerial).1
  refine ⟨hwell, ?_⟩
  intro m
  apply Option.ext
  intro b
  rw [hwell.bare?_eq_some_iff]
  change b ∈ (t.root.modify n f).bares ∧ b.name = m ↔ _
  rw [h.root.bares_modify hf, List.mem_map]
  constructor
  · rintro ⟨⟨a, ha, hab⟩, hb⟩
    have hname : a.name = m := by
      rw [← hb, ← hab]
      split
      · exact (hf.name a).symm
      · rfl
    have hfound : t.bare? m = some a := h.bare?_eq_some_iff.mpr ⟨ha, hname⟩
    rw [hname] at hab
    split
    · rename_i hm
      rw [if_pos hm] at hab
      rw [hfound, Option.map_some, hab]
    · rename_i hm
      rw [if_neg hm] at hab
      rw [hfound, hab]
  · intro hb
    split at hb
    · rename_i hm
      obtain ⟨a, ha, rfl⟩ := Option.map_eq_some_iff.mp hb
      obtain ⟨hmem, hname⟩ := h.bare?_eq_some_iff.mp ha
      exact ⟨⟨a, hmem, if_pos (hname.trans hm)⟩, (hf.name a).trans hname⟩
    · rename_i hm
      obtain ⟨hmem, hname⟩ := h.bare?_eq_some_iff.mp hb
      exact ⟨⟨b, hmem, if_neg (hname ▸ hm)⟩, hname⟩

/-- A change that leaves what a name stands for as it is leaves the tree as it is. -/
theorem WellNamed.modify_eq_self (h : t.WellNamed) {f : Queue F → Queue F} (hf : Queue.Local f)
    {n : String} (hsame : ∀ b, t.bare? n = some b → f b = b) : t.modify n f = t := by
  have hroot : t.root.modify n f = t.root.modify n id := by
    apply Queue.modify_congr
    intro r hr hname
    apply hf.eq_self_of_bare
    apply hsame
    exact h.bare?_eq_some_iff.mpr ⟨List.mem_map.mpr ⟨r, hr, rfl⟩, by rw [Queue.name_bare, hname]⟩
  rw [QueueTree.modify, hroot, Queue.modify_id]

/-- New settings and a policy that applies are given to a queue that is found by changing it. -/
theorem WellNamed.reconfigure_eq (h : t.WellNamed) {n : String} {k : QueueKind} {isRoot : Bool}
    (hn : t.kindOf? n = some k) (settings : QueueSettings F) {policy : Policy}
    (hpolicy : policy.appliesTo (Queue.place isRoot k) = true) :
    t.reconfigure n isRoot settings policy =
      (t.modify n (Queue.configure settings policy), .ok ()) := by
  have hset := (h.of_similar (Queue.similar_modify n t.root fun q _ _ =>
    Queue.similar_withInfo ({ · with settings := settings }) (fun _ => rfl) q) t.nextSerial).2 n
  obtain ⟨q, hq, rfl⟩ := Option.map_eq_some_iff.mp (hset.trans hn)
  have hboth := modify_modify t n (f := Queue.withInfo ({ · with settings := settings }))
    (Queue.withInfo ({ · with policy := policy })) fun r => by cases r <;> rfl
  have hconfigure : (fun r : Queue F => (r.withInfo ({ · with settings := settings })).withInfo
      ({ · with policy := policy })) = Queue.configure settings policy := by
    funext r
    cases r <;> rfl
  rw [hconfigure] at hboth
  unfold QueueTree.reconfigure Queue.setPolicy
  change (t.modify n _).find? n = some q at hq
  simp only [hq, hpolicy, if_true, hboth]

/-! ## Removing a queue -/

/-- Removing a queue other than the root leaves what other names stand for, and nothing for those
within its own. -/
theorem WellNamed.bare?_detach (h : t.WellNamed) {n : String}
    (hn : Shape.isWithin QueueName.root n = false) (m : String) :
    (t.detach n).bare? m = if Shape.isWithin m n then none else t.bare? m := by
  apply Option.ext
  intro b
  rw [(h.detach hn).1.bare?_eq_some_iff]
  rw [← h.root_name] at hn
  change b ∈ (t.root.remove n).bares ∧ b.name = m ↔ _
  rw [h.root.mem_bares_remove hn]
  constructor
  · rintro ⟨⟨hb, hout⟩, hname⟩
    rw [hname] at hout
    rw [hout]
    exact h.bare?_eq_some_iff.mpr ⟨hb, hname⟩
  · intro hb
    split at hb
    · contradiction
    · rename_i hout
      obtain ⟨hmem, hname⟩ := h.bare?_eq_some_iff.mp hb
      exact ⟨⟨hmem, by rw [hname]; simpa using hout⟩, hname⟩

/-- Removing a queue within whose name no application is held keeps the seats. -/
theorem WellNamed.seats_detach (h : t.WellNamed) {n : String} (hn : ¬ t.Holds n) :
    (t.detach n).root.seats = t.root.seats := by
  apply Queue.seats_remove
  intro r hr hname
  have hfind : t.find? n = some r := h.root.find?_eq_some_iff.mpr ⟨hr, hname⟩
  rw [← h.isVacant_eq_false_iff hfind] at hn
  simpa using hn

/-! ## Growing -/

/-- The tree with a new queue behind the children of a parent. -/
def grow (t : QueueTree F) (kind : QueueKind) (parent name : String) (settings : QueueSettings F)
    (policy : Policy) : QueueTree F :=
  ⟨t.root.modify parent (Queue.addChild (.fresh kind name settings policy t.nextSerial)),
    t.nextSerial + 1⟩

/-- A queue is created by growing the tree, if its policy applies to its place. -/
theorem create_eq_ok_iff {t' : QueueTree F} {kind : QueueKind} {parent name : String}
    {settings : QueueSettings F} {policy : Policy} :
    t.create kind parent name settings policy = (t', .ok ()) ↔
      policy.appliesTo (Queue.place false kind) = true ∧
        t' = t.grow kind parent name settings policy := by
  unfold create
  split
  · rename_i e hnew
    have hnone : policy.appliesTo (Queue.place false kind) ≠ true := by
      intro happlies
      rw [(Queue.new?_eq_ok_iff kind name settings policy t.nextSerial).mpr ⟨happlies, rfl⟩] at hnew
      contradiction
    simp [hnone]
  · rename_i q hnew
    obtain ⟨happlies, rfl⟩ := (Queue.new?_eq_ok_iff kind name settings policy t.nextSerial).mp hnew
    simp [happlies, grow, eq_comm]

/-- Growing keeps the seats. -/
theorem seats_grow (t : QueueTree F) (kind : QueueKind) (parent name : String)
    (settings : QueueSettings F) (policy : Policy) :
    (t.grow kind parent name settings policy).root.seats.Perm t.root.seats := by
  apply Queue.seats_modify
  intro r _ _
  rw [Queue.seats_addChild (Queue.seats_fresh _ _ _ _ _)]

/-- A new queue under a parent keeps a tree well named. Its name stands for it, and every other name
for what it stood for. -/
theorem WellNamed.grow (h : t.WellNamed) {kind : QueueKind} {parent c : String} (hc : IsPart c)
    (hparent : t.kindOf? parent = some .parent) (hfresh : t.kindOf? (child parent c) = none)
    (settings : QueueSettings F) (policy : Policy) :
    (t.grow kind parent (child parent c) settings policy).WellNamed ∧
      ∀ m, (t.grow kind parent (child parent c) settings policy).bare? m =
        if m = child parent c then some (.fresh kind (child parent c) settings policy t.nextSerial)
        else t.bare? m := by
  have hnew : ∀ r ∈ t.root.all,
      r.name ≠ (Queue.fresh kind (child parent c) settings policy t.nextSerial).name := by
    intro r hr heq
    rw [Queue.name_fresh] at heq
    have hfound : t.kindOf? (child parent c) = some r.kind := by
      rw [h.kindOf?_eq_some_iff, ← heq]
      exact List.mem_map.mpr ⟨r, hr, rfl⟩
    rw [hfresh] at hfound
    contradiction
  have hwell : (t.grow kind parent (child parent c) settings policy).WellNamed :=
    ⟨h.root.addChild (Queue.wellNamed_fresh _ _ _ _ _) hc (Queue.name_fresh _ _ _ _ _) hnew,
      (Queue.name_modify (Queue.name_addChild _) parent t.root).trans h.root_name,
      (Queue.kind_modify (Queue.kind_addChild _) parent t.root).trans h.root_kind⟩
  refine ⟨hwell, ?_⟩
  have habove : ∃ a ∈ t.root.bares, a.name = parent ∧ a.kind = .parent := by
    rw [kindOf?_eq_map_bare?] at hparent
    obtain ⟨a, ha, hkind⟩ := Option.map_eq_some_iff.mp hparent
    obtain ⟨hmem, hname⟩ := h.bare?_eq_some_iff.mp ha
    exact ⟨a, hmem, hname, hkind⟩
  have hnone := bare?_eq_none_iff.mpr hfresh
  intro m
  apply Option.ext
  intro b
  rw [hwell.bare?_eq_some_iff]
  change b ∈ (t.root.modify parent _).bares ∧ b.name = m ↔ _
  rw [Queue.mem_bares_addChild, Queue.bares_fresh, List.mem_singleton, and_iff_right habove]
  constructor
  · rintro ⟨hb, hname⟩
    obtain hold | rfl := hb
    · have hfound := h.bare?_eq_some_iff.mpr ⟨hold, hname⟩
      rw [if_neg, hfound]
      intro heq
      rw [heq, hnone] at hfound
      contradiction
    · rw [if_pos]
      rw [← hname, Queue.name_fresh]
  · intro hb
    split at hb
    · rename_i hm
      rw [← Option.some.inj hb, hm]
      exact ⟨.inr rfl, Queue.name_fresh _ _ _ _ _⟩
    · obtain ⟨hmem, hname⟩ := h.bare?_eq_some_iff.mp hb
      exact ⟨.inl hmem, hname⟩

end QueueTree

end Allotment
