import Allotment.Proofs.Queue.Configured
import Allotment.Proofs.Queue.Indexed
import Allotment.Queue.Permissions

/-!
# Inherited permissions

A permission is looked for from a queue upwards, and reported from the root downwards. Both come to the same:
a queue grants what its own access list grants and what the queue above it grants. This holds of every well
named tree, so it does not matter which settings a queue has kept or got, in which order the children of a
queue stand, or whether it was configured or created on demand.
-/

namespace Allotment

open QueueName Shape

namespace Queue

variable {F : Type} {q r c : Queue F} {p : Permission} {user : String}

/-! ## The queues on the way to a queue -/

/-- A queue and all below it stand together in the list of a tree. -/
theorem infix_all_of_mem (hr : r ∈ q.all) : r.all <:+: q.all := by
  induction q using Queue.induction with
  | leaf info runnable parked =>
    rw [all_leaf, List.mem_singleton] at hr
    rw [hr]
  | parent info children ih =>
    rw [all_parent, List.mem_cons] at hr
    obtain rfl | hr := hr
    · exact List.infix_rfl
    · obtain ⟨c, hc, hrc⟩ := List.mem_flatMap.mp hr
      rw [all_parent]
      calc r.all
        _ <:+: c.all := ih c hc hrc
        _ <:+: children.flatMap all := List.infix_of_mem_flatten (List.mem_map_of_mem hc)
        _ <:+: _ := List.infix_cons List.infix_rfl

/-- A tree lists a queue before the subtrees of its children, one after the other. -/
theorem all_eq_cons_flatMap (q : Queue F) : q.all = q :: q.children.flatMap all := by
  cases q with
  | leaf info runnable parked => exact all_leaf info runnable parked
  | parent info children => exact all_parent info children

/-- There is a way to a name if some queue bears it. -/
theorem path?_isSome_iff {n : String} : (q.path? n).isSome = true ↔ ∃ r ∈ q.all, r.name = n := by
  induction q using Queue.induction with
  | leaf info runnable parked =>
    rw [all_leaf, path?, fold_leaf]
    by_cases hname : info.name = n
    · simp [hname, Queue.name, Queue.info]
    · simp [hname, Queue.name, Queue.info]
  | parent info children ih =>
    rw [path?, fold_parent]
    split
    · rename_i hname
      exact iff_of_true rfl ⟨_, mem_all_self _, hname⟩
    · rename_i hname
      have hchildren : (((children.map fun c => (c, c.path? n)).findSome? (·.2)).isSome = true) ↔
          ∃ c ∈ children, ∃ r ∈ c.all, r.name = n := by
        rw [List.findSome?_isSome_iff]
        constructor
        · rintro ⟨e, he, hsome⟩
          obtain ⟨c, hc, rfl⟩ := List.mem_map.mp he
          exact ⟨c, hc, (ih c hc).mp hsome⟩
        · rintro ⟨c, hc, hr⟩
          exact ⟨_, List.mem_map_of_mem hc, (ih c hc).mpr hr⟩
      rw [Option.isSome_map]
      refine hchildren.trans ⟨?_, ?_⟩
      · rintro ⟨c, hc, r, hr, hrn⟩
        exact ⟨r, mem_all_of_child hc hr, hrn⟩
      · rintro ⟨r, hr, hrn⟩
        rw [all_parent, List.mem_cons] at hr
        obtain rfl | hr := hr
        · exact absurd hrn hname
        · obtain ⟨c, hc, hrc⟩ := List.mem_flatMap.mp hr
          exact ⟨c, hc, r, hrc, hrn⟩

namespace WellNamed

/-- A queue is not below its children. -/
theorem not_mem_all_child {info : QueueInfo F} {children : List (Queue F)}
    (h : (parent info children).WellNamed) (hc : c ∈ children) : parent info children ∉ c.all := by
  intro hmem
  obtain ⟨⟨part, -, hname⟩, hwell⟩ := (wellNamed_parent_iff.mp h).2 c hc
  have hwithin := hwell.isWithin hmem
  rw [hname] at hwithin
  change Shape.isWithin info.name (child info.name part) = true at hwithin
  rw [not_isWithin_child] at hwithin
  contradiction

/-- The children of a queue have no queue in common. -/
theorem child_eq_of_mem {info : QueueInfo F} {children : List (Queue F)}
    (h : (parent info children).WellNamed) {d r' : Queue F} (hc : c ∈ children) (hd : d ∈ children)
    (hrc : r ∈ c.all) (hrd : r' ∈ d.all) (hname : r.name = r'.name) : c = d := by
  obtain ⟨hnodup, hchildren⟩ := wellNamed_parent_iff.mp h
  have hwithin := (hchildren d hd).2.isWithin hrd
  rw [← hname] at hwithin
  exact List.inj_on_of_nodup_map hnodup hc hd
    (h.child_unique hc hd ((hchildren c hc).2.isWithin hrc) hwithin)

/-- Only the child that has a queue in it knows a way to it. -/
theorem findSome?_path {info : QueueInfo F} {children : List (Queue F)}
    (h : (parent info children).WellNamed) (hc : c ∈ children) (hr : r ∈ c.all) {path : List (QueueInfo F)}
    (hpath : c.path? r.name = some path) :
    (children.map fun d => (d, d.path? r.name)).findSome? (·.2) = some path := by
  have hsome : ((children.map fun d => (d, d.path? r.name)).findSome? (·.2)).isSome = true := by
    rw [List.findSome?_isSome_iff]
    exact ⟨_, List.mem_map_of_mem hc, by rw [hpath]; rfl⟩
  obtain ⟨path', hpath'⟩ := Option.isSome_iff_exists.mp hsome
  obtain ⟨e, he, hway⟩ := List.exists_of_findSome?_eq_some hpath'
  obtain ⟨d, hd, rfl⟩ := List.mem_map.mp he
  change d.path? r.name = some path' at hway
  obtain ⟨r', hr', hname⟩ := path?_isSome_iff.mp (by rw [hway]; rfl)
  obtain rfl := h.child_eq_of_mem hc hd hr hr' hname.symm
  rw [hpath', ← hway, hpath]

/-- The way to a queue leads over those queues that have it below them. -/
theorem exists_path (h : q.WellNamed) (hr : r ∈ q.all) :
    ∃ path, q.path? r.name = some path ∧ ∀ i, i ∈ path ↔ ∃ s ∈ q.all, r ∈ s.all ∧ s.info = i := by
  induction q using Queue.induction with
  | leaf info runnable parked =>
    rw [all_leaf, List.mem_singleton] at hr
    subst hr
    refine ⟨[info], by rw [path?, fold_leaf]; exact if_pos rfl, fun i => ?_⟩
    simp [Queue.info, eq_comm]
  | parent info children ih =>
    obtain ⟨hnodup, hchildren⟩ := wellNamed_parent_iff.mp h
    rw [path?, fold_parent]
    rw [all_parent, List.mem_cons] at hr
    obtain rfl | hr := hr
    · refine ⟨[info], if_pos rfl, fun i => ?_⟩
      rw [List.mem_singleton]
      constructor
      · rintro rfl
        exact ⟨_, mem_all_self _, mem_all_self _, rfl⟩
      · rintro ⟨s, hs, hrs, rfl⟩
        rw [all_parent, List.mem_cons] at hs
        obtain rfl | hs := hs
        · rfl
        · obtain ⟨c, hc, hsc⟩ := List.mem_flatMap.mp hs
          exact absurd (mem_all_trans hsc hrs) (h.not_mem_all_child hc)
    · obtain ⟨c, hc, hrc⟩ := List.mem_flatMap.mp hr
      obtain ⟨path, hpath, hon⟩ := ih c hc (hchildren c hc).2 hrc
      have hother : info.name ≠ r.name := by
        intro hname
        have hself : (parent info children).name = r.name := hname
        have hsame := List.inj_on_of_nodup_map h.nodup_names (mem_all_self _) (mem_all_of_child hc hrc) hself
        exact h.not_mem_all_child hc (hsame ▸ hrc)
      refine ⟨info :: path, ?_, fun i => ?_⟩
      · rw [if_neg hother]
        exact congrArg (Option.map (info :: ·)) (h.findSome?_path hc hrc hpath)
      · rw [List.mem_cons, hon]
        constructor
        · rintro (rfl | ⟨s, hs, hrs, rfl⟩)
          · exact ⟨_, mem_all_self _, mem_all_of_child hc hrc, rfl⟩
          · exact ⟨s, mem_all_of_child hc hs, hrs, rfl⟩
        · rintro ⟨s, hs, hrs, rfl⟩
          rw [all_parent, List.mem_cons] at hs
          obtain rfl | hs := hs
          · exact .inl rfl
          · obtain ⟨d, hd, hsd⟩ := List.mem_flatMap.mp hs
            obtain rfl := h.child_eq_of_mem hc hd hrc (mem_all_trans hsd hrs) rfl
            exact .inr ⟨s, hsd, hrs, rfl⟩

/-! ## Permissions -/

/-- A user has a permission on a queue exactly if that queue or one above it lists the user. -/
theorem hasAccess_iff (h : q.WellNamed) (hr : r ∈ q.all) :
    q.hasAccess r.name p user = true ↔
      ∃ s ∈ q.all, r ∈ s.all ∧ (s.info.settings.acl p).allows user = true := by
  obtain ⟨path, hpath, hon⟩ := h.exists_path hr
  rw [hasAccess, hpath, Option.getD_some, List.any_eq_true]
  constructor
  · rintro ⟨i, hi, hallows⟩
    obtain ⟨s, hs, hrs, rfl⟩ := (hon i).mp hi
    exact ⟨s, hs, hrs, hallows⟩
  · rintro ⟨s, hs, hrs, hallows⟩
    exact ⟨s.info, (hon _).mpr ⟨s, hs, hrs, rfl⟩, hallows⟩

/-- Above a child are the child itself and the queues above its parent. -/
theorem mem_all_child_iff (h : q.WellNamed) (hr : r ∈ q.all) (hc : c ∈ r.children) {s : Queue F}
    (hs : s ∈ q.all) : c ∈ s.all ↔ s = c ∨ r ∈ s.all := by
  have hcq := mem_all_of_mem_children hr hc
  constructor
  · intro hcs
    obtain ⟨part, hpart, hname⟩ : ∃ part, IsPart part ∧ c.name = child r.name part := by
      cases r with
      | leaf info runnable parked => contradiction
      | parent info children => exact ((wellNamed_parent_iff.mp (h.of_mem hr)).2 c hc).1
    have hwithin := (h.of_mem hs).isWithin hcs
    rw [hname, isWithin_child_iff hpart, ← hname] at hwithin
    obtain hsame | habove := hwithin
    · exact .inl (List.inj_on_of_nodup_map h.nodup_names hs hcq hsame)
    · exact .inr (h.mem_all_of_isWithin hr hs habove)
  · rintro (rfl | hrs)
    · exact mem_all_self s
    · exact mem_all_of_mem_children hrs hc

/-- A child grants what its own list and its parent grant. -/
theorem hasAccess_child (h : q.WellNamed) (hr : r ∈ q.all) (hc : c ∈ r.children) (p : Permission)
    (user : String) :
    q.hasAccess c.name p user = ((c.info.settings.acl p).allows user || q.hasAccess r.name p user) := by
  have hcq := mem_all_of_mem_children hr hc
  rw [Bool.eq_iff_iff, Bool.or_eq_true, h.hasAccess_iff hcq, h.hasAccess_iff hr]
  constructor
  · rintro ⟨s, hs, hcs, hallows⟩
    obtain rfl | hrs := (h.mem_all_child_iff hr hc hs).mp hcs
    · exact .inl hallows
    · exact .inr ⟨s, hs, hrs, hallows⟩
  · rintro (hallows | ⟨s, hs, hrs, hallows⟩)
    · exact ⟨c, hcq, mem_all_self c, hallows⟩
    · exact ⟨s, hs, (h.mem_all_child_iff hr hc hs).mpr (.inr hrs), hallows⟩

/-- The top grants what its own list grants. -/
theorem hasAccess_top (h : q.WellNamed) (p : Permission) (user : String) :
    q.hasAccess q.name p user = (q.info.settings.acl p).allows user := by
  rw [Bool.eq_iff_iff, h.hasAccess_iff (mem_all_self q)]
  constructor
  · rintro ⟨s, hs, hqs, hallows⟩
    have hname := isWithin_antisymm (h.isWithin hs) ((h.of_mem hs).isWithin hqs)
    rw [List.inj_on_of_nodup_map h.nodup_names hs (mem_all_self q) hname] at hallows
    exact hallows
  · exact fun hallows => ⟨q, mem_all_self q, mem_all_self q, hallows⟩

end WellNamed

/-- The permissions of a user on a queue of a tree, under its name. -/
def granted (q : Queue F) (user : String) (r : Queue F) : String × List Permission :=
  (r.name, Permission.all.filter fun p => q.hasAccess r.name p user)

/-- A walk down from a queue reports what a walk up from each queue below it finds, if it starts with what
the queues above grant. -/
theorem WellNamed.permissions_eq (h : q.WellNamed) (hr : r ∈ q.all) {above : Permission → Bool}
    (habove : ∀ p, ((r.info.settings.acl p).allows user || above p) = q.hasAccess r.name p user) :
    r.permissions user above = r.all.map (q.granted user) := by
  induction r using Queue.induction generalizing above with
  | leaf info runnable parked =>
    rw [permissions, fold_leaf, all_leaf, List.map_singleton]
    exact congrArg (fun here => [(info.name, Permission.all.filter here)]) (funext habove)
  | parent info children ih =>
    have hhere : (fun p => (info.settings.acl p).allows user || above p) =
        fun p => q.hasAccess (parent info children).name p user := funext habove
    have hchildren : ∀ c ∈ children,
        c.permissions user (fun p => q.hasAccess (parent info children).name p user) =
          c.all.map (q.granted user) :=
      fun c hc => ih c hc (mem_all_of_mem_children hr hc)
        fun p => (h.hasAccess_child hr hc p user).symm
    rw [permissions, fold_parent]
    dsimp only
    rw [hhere, all_parent, List.map_cons, List.map_flatMap, List.map_map, ← List.flatMap_def]
    congr 1
    exact List.flatMap_congr hchildren

/-- The report on a tree lists its queues in order, each with what is granted on it. -/
theorem WellNamed.permissionsOf_eq (h : q.WellNamed) (user : String) :
    q.permissionsOf user = q.all.map (q.granted user) :=
  h.permissions_eq (mem_all_self q) fun p => by rw [Bool.or_false, h.hasAccess_top]

end Queue

/-! ## Walking up the links -/

namespace Directory

variable {F : Type} {d : Directory F} {p : Permission} {user : String}

/-- Whether a walk up the links from a queue comes to one that lists the user. -/
inductive Climbs (d : Directory F) (p : Permission) (user : String) : (serial : ℕ) → Prop where
  | own (q : Queue F) (hq : q ∈ d.tree.root.all)
      (hallows : (q.info.settings.acl p).allows user = true) : Climbs d p user q.info.serial
  | above (serial parent : ℕ) (hlink : d.above.get? serial = some parent)
      (h : Climbs d p user parent) : Climbs d p user serial

/-- What a walk comes to from a queue it comes to from all queues below that. -/
theorem Consistent.climbs_of_mem (hd : d.Consistent) {q r : Queue F} (hq : q ∈ d.tree.root.all)
    (h : d.Climbs p user q.info.serial) (hr : r ∈ q.all) : d.Climbs p user r.info.serial := by
  induction q using Queue.induction with
  | leaf info runnable parked =>
    rw [Queue.all_leaf, List.mem_singleton] at hr
    rw [hr]
    exact h
  | parent info children ih =>
    rw [Queue.all_parent, List.mem_cons] at hr
    obtain rfl | hr := hr
    · exact h
    · obtain ⟨c, hc, hrc⟩ := List.mem_flatMap.mp hr
      exact ih c hc (Queue.mem_all_of_mem_children hq hc) (.above _ _ (hd.above _ hq c hc) h) hrc

/-- A walk up the links finds what the tree grants. -/
theorem Consistent.climbs_iff (hd : d.Consistent) (hwell : d.tree.root.WellNamed) {q : Queue F}
    (hq : q ∈ d.tree.root.all) :
    d.Climbs p user q.info.serial ↔ d.tree.root.hasAccess q.name p user = true := by
  rw [hwell.hasAccess_iff hq]
  constructor
  · intro h
    generalize hserial : q.info.serial = serial at h
    induction h generalizing q with
    | own r hr hallows =>
      obtain rfl := List.inj_on_of_nodup_map hd.serials hq hr hserial
      exact ⟨q, hq, Queue.mem_all_self q, hallows⟩
    | above serial parent hlink h ih =>
      obtain rfl | ⟨info, children, hr, hqr⟩ := Queue.exists_parent hq
      · rw [← hserial, hd.above_root] at hlink
        contradiction
      · have hparent := hd.above _ hr q hqr
        rw [hserial, hlink] at hparent
        obtain ⟨s, hs, hrs, hallows⟩ := ih hr (Option.some.inj hparent).symm
        exact ⟨s, hs, Queue.mem_all_of_mem_children hrs hqr, hallows⟩
  · rintro ⟨r, hr, hqr, hallows⟩
    exact hd.climbs_of_mem hr (.own r hr hallows) hqr

/-- Permissions are inherited exactly and reported completely. In a directory that has come about, reloads
and queues created on demand included, a user has a permission on a queue exactly if that queue or one above
it lists the user, which is what a walk up the links finds; so a queue grants what is granted above it. The
report on the tree lists every queue once, a queue before the subtrees of its children and these in the order
of the children, each with the permissions that it grants. And a written access list lets a user in exactly
if the trimmed text is a star or the user is one of the trimmed parts between its commas. -/
theorem Reachable.permissions_inherited [Scalar F] (h : d.Reachable) :
    (∀ q ∈ d.tree.root.all, ∀ p user,
      (d.tree.root.hasAccess q.name p user = true ↔
        ∃ r ∈ d.tree.root.all, q ∈ r.all ∧ (r.info.settings.acl p).allows user = true) ∧
      (d.Climbs p user q.info.serial ↔ d.tree.root.hasAccess q.name p user = true) ∧
      ∀ r ∈ q.all, d.tree.root.hasAccess q.name p user = true →
        d.tree.root.hasAccess r.name p user = true) ∧
    (∀ user, d.tree.root.permissionsOf user = d.tree.root.all.map (d.tree.root.granted user) ∧
      ((d.tree.root.permissionsOf user).map (·.1)).Nodup ∧
      ∀ e ∈ d.tree.root.permissionsOf user, ∀ p, p ∈ e.2 ↔ d.tree.root.hasAccess e.1 p user = true) ∧
    (∀ q ∈ d.tree.root.all, q.all <:+: d.tree.root.all ∧ q.all = q :: q.children.flatMap Queue.all) ∧
    ∀ text, ∃ parts : List String, (∀ part ∈ parts, ',' ∉ part.toList) ∧
      ",".intercalate parts = Text.trim text ∧
      ∀ user, user ≠ "" → ((AccessList.ofText text).allows user = true ↔
        Text.trim text = "*" ∨ user ∈ parts.map Text.trim) := by
  have hconsistent := h.coherent.1.consistent
  have hwell := h.coherent.2.wellNamed.root
  refine ⟨fun q hq p user => ⟨hwell.hasAccess_iff hq, hconsistent.climbs_iff hwell hq, ?_⟩, fun user => ?_,
    fun q hq => ⟨Queue.infix_all_of_mem hq, q.all_eq_cons_flatMap⟩, fun text => ?_⟩
  · intro r hr haccess
    rw [hwell.hasAccess_iff hq] at haccess
    obtain ⟨s, hs, hqs, hallows⟩ := haccess
    exact (hwell.hasAccess_iff (Queue.mem_all_trans hq hr)).mpr ⟨s, hs, Queue.mem_all_trans hqs hr, hallows⟩
  · have hreport := hwell.permissionsOf_eq user
    refine ⟨hreport, ?_, ?_⟩
    · rw [hreport, List.map_map]
      exact hwell.nodup_names
    · rw [hreport]
      intro e he p
      obtain ⟨q, hq, rfl⟩ := List.mem_map.mp he
      have hall : p ∈ Permission.all := by cases p <;> decide
      simp [Queue.granted, hall]
  · obtain ⟨parts, hparts, hjoined, hallows⟩ := AccessList.isWritten_ofText text
    exact ⟨parts, hparts, hjoined, fun user hne => by rw [hallows, and_iff_right hne]⟩

/-- The settings of a root that lists `admin`. -/
def fence : QueueOptions Float :=
  { QueueOptions.named "root" with submitAcl := some "admin", adminAcl := some "admin" }

/-- The settings of a parent that lists users. -/
def lab (users : String) : QueueOptions Float :=
  { QueueOptions.named "lab" with submitAcl := some users, forceParent := true }

/-- The directory of a configuration with both. -/
def fenced : Directory Float where
  tree.root := .parent ⟨"root", 0, .fair, .ofOptions fence true, 0, 0, 0⟩
    [.parent ⟨"root.lab", 1, .fair, .ofOptions (lab "alice") false, 0, 0, 0⟩ []]
  tree.nextSerial := 2
  index := (Table.empty.insert "root" ⟨0, .parent⟩).insert "root.lab" ⟨1, .parent⟩
  above := Table.empty.insert 1 0

/-- The directory after other users were configured and a leaf was asked for. -/
def furnished : Directory Float :=
  (fenced.apply (.reload (.node fence [.node (lab " carol ,bob") []]))).apply
    (.locate "lab.bench" true .leaf)

/-- The leaf that was created on demand grants what is granted above it. -/
theorem permissions_inherited_of_furnished :
    furnished.Reachable ∧
      furnished.tree.root.permissionsOf "bob" =
        [("root", []), ("root.lab", [.submit]), ("root.lab.bench", [.submit])] ∧
      furnished.tree.root.permissionsOf "alice" = [("root", []), ("root.lab", []), ("root.lab.bench", [])] ∧
      furnished.Climbs .administer "admin" 2 := by
  have hstart : fenced.Reachable := .start (.node fence [.node (lab "alice") []]) fenced rfl
  have hfurnished : furnished.Reachable := .step _ _ (.step _ _ hstart)
  obtain ⟨haccess, hreport, -⟩ := hfurnished.permissions_inherited
  refine ⟨hfurnished, ?_, ?_, ?_⟩
  · rw [(hreport "bob").1]
    decide +kernel
  · rw [(hreport "alice").1]
    decide +kernel
  · have hbench : ∃ q ∈ furnished.tree.root.all, q.name = "root.lab.bench" ∧ q.info.serial = 2 := by
      decide +kernel
    obtain ⟨q, hq, hname, hserial⟩ := hbench
    rw [← hserial, (haccess q hq .administer "admin").2.1, hname]
    decide +kernel

end Directory

end Allotment
