import Allotment.Proofs.Queue.Modify
import Allotment.Proofs.Queue.Seats
import Allotment.Queue.Assignment
import Allotment.Queue.Shares

/-!
# Who sits where and holds what

`members` lists the applications of a tree with their leaves, by what identifies them, and `holdings`
lists the containers they hold. Giving shares, bringing demands up to date and asking containers back
keep both; only applications that come or go and containers that are given or taken change them.
-/

namespace Allotment

open scoped List

variable {F : Type}

/-- Where no two elements share a key, those around an element have other keys. -/
theorem key_ne_of_nodup {α κ : Type} {key : α → κ} {before after : List α} {x : α}
    (h : ((before ++ x :: after).map key).Nodup) : ∀ z ∈ before ++ after, key z ≠ key x := by
  rw [List.map_append, List.map_cons, List.nodup_middle, ← List.map_append, List.nodup_cons] at h
  intro z hz heq
  exact h.1 (List.mem_map.mpr ⟨z, hz, heq⟩)

/-- Where no two elements share a key, those with another key than an element are all others. -/
theorem cons_filter_key_perm {α κ : Type} [DecidableEq κ] {key : α → κ} {xs : List α} {x : α}
    (h : (xs.map key).Nodup) (hx : x ∈ xs) : x :: xs.filter (fun z => key z ≠ key x) ~ xs := by
  obtain ⟨before, after, rfl⟩ := List.append_of_mem hx
  have hothers : (before ++ after).filter (fun z => key z ≠ key x) = before ++ after := by
    rw [List.filter_eq_self]
    intro z hz
    exact decide_eq_true (key_ne_of_nodup h z hz)
  rw [List.filter_append, List.filter_cons_of_neg (by simp), ← List.filter_append, hothers]
  exact List.perm_middle.symm

/-- An application in a leaf, by what identifies it. -/
structure Member where
  leaf : String
  id : String
  queue : String
  serial : ℕ
  deriving DecidableEq

/-- An application in a leaf with the containers that it holds. -/
structure Post where
  member : Member
  live : List Container

/-- The containers of an application, each with the application. -/
def Post.holdings (x : Post) : List (Member × Container) := x.live.map fun c => (x.member, c)

namespace Attempt

/-- The application as a member of a leaf. -/
def member (leaf : String) (a : Attempt F) : Member := ⟨leaf, a.id, a.queue, a.serial⟩

/-- The application in a leaf with what it holds. -/
def post (leaf : String) (a : Attempt F) : Post := ⟨a.member leaf, a.live⟩

end Attempt

namespace Queue

/-- The applications in a queue, each in its leaf and with what it holds. -/
def posts (q : Queue F) : List Post := q.seats.map fun x => x.attempt.post x.leaf

/-- The applications in a queue, each as a member of its leaf. -/
def members (q : Queue F) : List Member := q.posts.map Post.member

/-- The containers in a queue, each with the application that holds it. -/
def holdings (q : Queue F) : List (Member × Container) := q.posts.flatMap Post.holdings

@[simp] theorem posts_leaf (info : QueueInfo F) (runnable parked : List (Attempt F)) :
    (leaf info runnable parked).posts = (runnable ++ parked).map (Attempt.post info.name) := by
  simp [posts, Function.comp_def]

@[simp] theorem posts_parent (info : QueueInfo F) (children : List (Queue F)) :
    (parent info children).posts = children.flatMap posts := by
  rw [posts, seats_parent, List.map_flatMap]
  rfl

/-- A member of a queue is the application in one of its seats. -/
theorem mem_members_iff {q : Queue F} {m : Member} :
    m ∈ q.members ↔ ∃ x ∈ q.seats, x.attempt.member x.leaf = m := by
  rw [members, posts, List.map_map, List.mem_map]
  rfl

/-- A holding of a queue is a container that is held in one of its seats. -/
theorem mem_holdings_iff {q : Queue F} {y : Member × Container} :
    y ∈ q.holdings ↔ ∃ x ∈ q.seats, ∃ c ∈ x.attempt.live, y = (x.attempt.member x.leaf, c) := by
  simp only [holdings, posts, List.flatMap_map, List.mem_flatMap, Post.holdings, List.mem_map,
    eq_comm]
  rfl

/-- Where no two containers bear the same number, none in one seat do. -/
theorem nodup_live {q : Queue F} (h : (q.holdings.map (·.2.id)).Nodup) {x : Seat F}
    (hx : x ∈ q.seats) : (x.attempt.live.map Container.id).Nodup := by
  rw [holdings, posts, List.flatMap_map, List.map_flatMap, List.nodup_flatMap] at h
  have hseat := h.1 x hx
  rw [Post.holdings, List.map_map] at hseat
  exact hseat

/-- Where no two members bear the same serial number, that of an application tells its seat. -/
theorem seat_injective {q : Queue F} (h : (q.members.map Member.serial).Nodup) {x y : Seat F}
    (hx : x ∈ q.seats) (hy : y ∈ q.seats) (heq : x.attempt.serial = y.attempt.serial) : x = y := by
  rw [members, posts, List.map_map, List.map_map] at h
  exact List.inj_on_of_nodup_map h hx hy heq

/-- Where no two members bear the same serial number, the holdings of one are the containers of the
application that bears it. -/
theorem holdings_filter_serial {q : Queue F} (h : (q.members.map Member.serial).Nodup) {x : Seat F}
    (hx : x ∈ q.seats) :
    q.holdings.filter (fun y => y.1.serial = x.attempt.serial) =
      x.attempt.live.map fun c => (x.attempt.member x.leaf, c) := by
  obtain ⟨before, after, heq⟩ := List.append_of_mem hx
  rw [members, posts, List.map_map, List.map_map, heq] at h
  have hnone : ∀ zs : List (Seat F), (∀ z ∈ zs, z ∈ before ++ after) →
      zs.flatMap (fun z => (z.attempt.post z.leaf).holdings.filter fun y =>
        y.1.serial = x.attempt.serial) = [] := by
    intro zs hzs
    rw [List.flatMap_eq_nil_iff]
    intro z hz
    rw [List.filter_eq_nil_iff]
    intro y hy hserial
    obtain ⟨c, -, rfl⟩ := List.mem_map.mp hy
    exact key_ne_of_nodup h z (hzs z hz) (of_decide_eq_true hserial)
  have hown : (x.attempt.post x.leaf).holdings.filter (fun y => y.1.serial = x.attempt.serial) =
      (x.attempt.post x.leaf).holdings := by
    rw [List.filter_eq_self]
    intro y hy
    obtain ⟨c, -, rfl⟩ := List.mem_map.mp hy
    exact decide_eq_true rfl
  rw [holdings, posts, List.flatMap_map, List.filter_flatMap, heq, List.flatMap_append,
    List.flatMap_cons, hnone before fun z hz => List.mem_append_left after hz,
    hnone after fun z hz => List.mem_append_right before hz, hown, List.append_nil]
  rfl

/-! ## What keeps them -/

section View

variable {β : Type} {view : Seat F → β}

/-- Parents of children that look the same look the same. -/
theorem map_seats_of_forall₂ {info info' : QueueInfo F} {children children' : List (Queue F)}
    (hall : List.Forall₂ (fun q q' => q'.seats.map view = q.seats.map view) children children') :
    (parent info' children').seats.map view = (parent info children).seats.map view := by
  rw [seats_parent, seats_parent, List.map_flatMap, List.map_flatMap, List.flatMap_def,
    List.flatMap_def, map_eq_of_forall₂ hall fun _ _ hsame => hsame]

/-- Leaves of one name and serial number whose applications look the same look the same. -/
theorem map_seats_leaf_of_forall₂ {info info' : QueueInfo F} (hname : info'.name = info.name)
    (hserial : info'.serial = info.serial) {runnable runnable' parked parked' : List (Attempt F)}
    (hall : List.Forall₂ (fun a a' =>
      view ⟨info.name, info.serial, a'⟩ = view ⟨info.name, info.serial, a⟩)
        (runnable ++ parked) (runnable' ++ parked')) :
    (leaf info' runnable' parked').seats.map view = (leaf info runnable parked).seats.map view := by
  rw [seats_leaf, seats_leaf, hname, hserial, List.map_map, List.map_map]
  exact map_eq_of_forall₂ hall fun _ _ hsame => hsame

/-- Whether a view of seats shows neither demands nor fair shares. -/
def Steady (view : Seat F → β) : Prop :=
  ∀ (x : Seat F) (demand fairShare : Resource),
    view { x with attempt := { x.attempt with demand := demand, fairShare := fairShare } } = view x

variable [Scalar F]

/-- Giving fair shares changes nothing else. -/
theorem map_seats_giveFair (hview : Steady view) (q : Queue F) (share : Resource) :
    (q.giveFair share).seats.map view = q.seats.map view := by
  induction q using Queue.induction generalizing share with
  | leaf info runnable parked =>
    rw [giveFair, fold_leaf]
    apply map_seats_leaf_of_forall₂ rfl rfl
    refine List.rel_append ?_ (List.forall₂_same.mpr fun _ _ => rfl)
    apply forall₂_zipWith
    · rw [length_shares, List.length_map]
    · exact fun a _ s => hview ⟨info.name, info.serial, a⟩ a.demand s
  | parent info children ih =>
    rw [giveFair_parent]
    apply map_seats_of_forall₂
    apply forall₂_zipWith
    · rw [fairShares, length_shares, List.length_map]
    · exact ih

/-- Giving steady shares changes nothing else. -/
theorem map_seats_giveSteady (q : Queue F) (share : Resource) :
    (q.giveSteady share).seats.map view = q.seats.map view := by
  induction q using Queue.induction generalizing share with
  | leaf info runnable parked => rw [giveSteady_leaf, seats_leaf, seats_leaf]
  | parent info children ih =>
    rw [giveSteady_parent]
    apply map_seats_of_forall₂
    apply forall₂_zipWith
    · rw [steadyShares, length_shares, List.length_map]
    · exact ih

omit [Scalar F] in
/-- Bringing demands up to date changes nothing else. -/
theorem map_seats_updateDemand (hview : Steady view) (q : Queue F) :
    q.updateDemand.seats.map view = q.seats.map view := by
  induction q using Queue.induction with
  | leaf info runnable parked =>
    have hall := forall₂_renewUntil
      (R := fun a a' : Attempt F =>
        view ⟨info.name, info.serial, a'⟩ = view ⟨info.name, info.serial, a⟩) Attempt.demand
      info.settings.maxShare 0 ((runnable ++ parked).map fun a => (a, a.updateDemand)) (by
        intro e he
        obtain ⟨a, -, rfl⟩ := List.mem_map.mp he
        exact ⟨rfl, hview ⟨info.name, info.serial, a⟩ _ a.fairShare⟩)
    rw [List.map_map, Function.comp_def, List.map_id'] at hall
    rw [updateDemand, fold_leaf]
    apply map_seats_leaf_of_forall₂ rfl rfl
    rwa [List.take_append_drop]
  | parent info children ih =>
    rw [updateDemand_parent]
    apply map_seats_of_forall₂
    have hall := forall₂_renewUntil (R := fun q q' : Queue F => q'.seats.map view = q.seats.map view)
      (fun q : Queue F => q.info.demand) info.settings.maxShare 0
      (children.map fun q => (q, q.updateDemand)) (by
        intro e he
        obtain ⟨q, hq, rfl⟩ := List.mem_map.mp he
        exact ⟨rfl, ih q hq⟩)
    rw [List.map_map] at hall
    simpa only [Function.comp_def, List.map_id'] using hall

omit [Scalar F] in
/-- An element that is asked at its place is related to what it was, and all others are the same. -/
theorem forall₂_askAt {α : Type} {R : α → α → Prop} {ask : α → α × Option Container}
    (hrefl : ∀ x, R x x) (hask : ∀ x, R x (ask x).1) (place : Option ℕ) (xs : List α) :
    List.Forall₂ R xs (askAt ask place xs).1 := by
  have hsame : List.Forall₂ R xs xs := List.forall₂_same.mpr fun x _ => hrefl x
  cases place with
  | none => exact hsame
  | some i =>
    cases hx : xs[i]? with
    | none => simpa [askAt, hx] using hsame
    | some x => simpa [askAt, hx] using forall₂_set (fun x _ => hrefl x) hx (hask x)

/-- Asking a container back changes nothing but what applications remember to have been asked. -/
theorem map_seats_preempt
    (hview : ∀ x : Seat F, view { x with attempt := x.attempt.preempt.1 } = view x)
    (cluster : Resource) (q : Queue F) (isOver : Resource → Resource → Bool) :
    (q.preempt cluster isOver).1.seats.map view = q.seats.map view := by
  induction q using Queue.induction generalizing isOver with
  | leaf info runnable parked =>
    rw [preempt, fold_leaf]
    simp only
    split
    · apply map_seats_leaf_of_forall₂ rfl rfl
      refine List.rel_append ?_ (List.forall₂_same.mpr fun _ _ => rfl)
      exact forall₂_askAt
        (R := fun a a' => view ⟨info.name, info.serial, a'⟩ = view ⟨info.name, info.serial, a⟩)
        (fun _ => rfl) (fun a => hview ⟨info.name, info.serial, a⟩) _ _
    · rfl
  | parent info children ih =>
    rw [preempt_parent]
    split
    · rename_i i q hlast
      obtain ⟨j, -, hj⟩ := Option.bind_eq_some_iff.mp hlast
      obtain ⟨r, hr, heq⟩ := Option.map_eq_some_iff.mp hj
      obtain ⟨rfl, rfl⟩ := Prod.mk.inj heq
      apply map_seats_of_forall₂
      exact forall₂_set (fun _ _ => rfl) hr (ih r (List.mem_of_getElem? hr) _)
    · rfl

/-- Asking a container back keeps the posts. -/
theorem posts_preempt (cluster : Resource) (q : Queue F) (isOver : Resource → Resource → Bool) :
    (q.preempt cluster isOver).1.posts = q.posts := by
  apply map_seats_preempt
  intro x
  unfold Attempt.preempt
  split <;> rfl

end View

/-! ## What changes them -/

/-- Changing a queue of a child changes no other child. -/
theorem WellNamed.modify_below {info : QueueInfo F} {before after : List (Queue F)} {c r : Queue F}
    (h : (parent info (before ++ c :: after)).WellNamed) (hr : r ∈ c.all)
    (f : Queue F → Queue F) :
    (parent info (before ++ c :: after)).modify r.name f =
      parent info (before ++ c.modify r.name f :: after) := by
  have hc : c ∈ before ++ c :: after := by simp
  obtain ⟨hnodup, hchildren⟩ := wellNamed_parent_iff.mp h
  have hwithin := (hchildren c hc).2.isWithin hr
  have htop : info.name ≠ r.name := by
    intro heq
    obtain ⟨part, -, hname⟩ := (hchildren c hc).1
    rw [← heq, hname, Shape.not_isWithin_child] at hwithin
    contradiction
  have hother : ∀ d ∈ before ++ after, d.modify r.name f = d := by
    intro d hd
    have hchild : d ∈ before ++ c :: after :=
      List.perm_middle.mem_iff.mpr (List.mem_cons_of_mem c hd)
    have hsame : d.modify r.name f = d.modify r.name id := by
      apply modify_congr
      intro s hs hname
      have hds := (hchildren d hchild).2.isWithin hs
      rw [hname] at hds
      have hdc := h.child_unique hchild hc hds hwithin
      exact absurd hdc (key_ne_of_nodup hnodup d hd)
    rw [hsame, modify_id]
  have hbefore : before.map (modify r.name f) = before := by
    rw [List.map_congr_left fun d hd => hother d (List.mem_append_left after hd), List.map_id']
  have hafter : after.map (modify r.name f) = after := by
    rw [List.map_congr_left fun d hd => hother d (List.mem_append_right before hd), List.map_id']
  rw [modify_parent, if_neg htop, List.map_append, List.map_cons, hbefore, hafter]

/-- What is gathered from a well named tree is what is gathered from one of its queues and the rest,
and the rest stays whatever becomes of that queue. -/
theorem WellNamed.exists_rest {β : Type} {m : Queue F → List β}
    (hm : ∀ info children, m (parent info children) = children.flatMap m) {q r : Queue F}
    (h : q.WellNamed) (hr : r ∈ q.all) :
    ∃ rest, (m q).Perm (m r ++ rest) ∧
      ∀ f : Queue F → Queue F, (m (q.modify r.name f)).Perm (m (f r) ++ rest) := by
  have htop : ∃ rest, (m r).Perm (m r ++ rest) ∧
      ∀ f : Queue F → Queue F, (m (r.modify r.name f)).Perm (m (f r) ++ rest) := by
    refine ⟨[], by rw [List.append_nil], ?_⟩
    intro f
    rw [modify_of_name f rfl, List.append_nil]
  induction q using Queue.induction with
  | leaf info runnable parked =>
    rw [all_leaf, List.mem_singleton] at hr
    rw [← hr]
    exact htop
  | parent info children ih =>
    rw [all_parent, List.mem_cons] at hr
    obtain rfl | hr := hr
    · exact htop
    · obtain ⟨c, hc, hrc⟩ := List.mem_flatMap.mp hr
      obtain ⟨before, after, rfl⟩ := List.append_of_mem hc
      have hmiddle : ∀ d : Queue F, (m (parent info (before ++ d :: after))).Perm
          (m d ++ (before ++ after).flatMap m) := by
        intro d
        rw [hm]
        exact List.perm_middle.flatMap_right m
      obtain ⟨rest, hrest, hafter⟩ := ih c hc ((wellNamed_parent_iff.mp h).2 c hc).2 hrc
      refine ⟨rest ++ (before ++ after).flatMap m, ?_, ?_⟩
      · rw [← List.append_assoc]
        exact (hmiddle c).trans (hrest.append_right _)
      · intro f
        rw [h.modify_below hrc, ← List.append_assoc]
        exact (hmiddle _).trans ((hafter f).append_right _)

/-- A leaf has one post more with one application more. -/
theorem posts_addAttempt (a : Attempt F) (info : QueueInfo F) (runnable parked : List (Attempt F)) :
    (addAttempt a (leaf info runnable parked)).posts.Perm
      (a.post info.name :: (leaf info runnable parked).posts) := by
  rw [addAttempt]
  split
  · rw [posts_leaf, posts_leaf, List.append_assoc]
    exact List.perm_middle.map _
  · rw [posts_leaf, posts_leaf, ← List.append_assoc]
    exact (List.perm_append_singleton a _).map _

/-- Removing an application of an id that a leaf has takes one post of that id away. -/
theorem posts_removeAttempt {id : String} (info : QueueInfo F) {runnable parked : List (Attempt F)}
    (h : ∃ a ∈ runnable ++ parked, a.id = id) :
    ∃ a ∈ runnable ++ parked, a.id = id ∧ (leaf info runnable parked).posts.Perm
      (a.post info.name :: (removeAttempt id (leaf info runnable parked)).posts) := by
  have herase : ∀ as : List (Attempt F), (∃ a ∈ as, a.id = id) →
      ∃ a ∈ as, a.id = id ∧ as.Perm (a :: as.eraseP (·.id = id)) := by
    rintro as ⟨a, ha, hid⟩
    obtain ⟨b, before, after, -, hb, has, herased⟩ :=
      List.exists_of_eraseP ha (p := fun a => decide (a.id = id)) (by simpa using hid)
    rw [herased, has]
    exact ⟨b, by simp, by simpa using hb, List.perm_middle⟩
  rw [removeAttempt]
  split
  · rename_i hany
    have hrunnable : ∃ a ∈ runnable, a.id = id := by simpa using hany
    obtain ⟨a, ha, hid, hperm⟩ := herase runnable hrunnable
    refine ⟨a, List.mem_append_left parked ha, hid, ?_⟩
    rw [posts, posts, seats_promoteParked, ← posts, ← posts, posts_leaf, posts_leaf]
    exact (hperm.append_right parked).map _
  · rename_i hany
    have hparked : ∃ a ∈ parked, a.id = id := by
      obtain ⟨a, ha, hid⟩ := h
      obtain ha | ha := List.mem_append.mp ha
      · exact absurd (List.any_eq_true.mpr ⟨a, ha, by simpa using hid⟩) hany
      · exact ⟨a, ha, hid⟩
    obtain ⟨a, ha, hid, hperm⟩ := herase parked hparked
    refine ⟨a, List.mem_append_right runnable ha, hid, ?_⟩
    rw [posts, posts, seats_promoteParked, ← posts, ← posts, posts_leaf, posts_leaf]
    exact ((hperm.append_left runnable).trans List.perm_middle).map _

/-- Changing every application changes what sits in the seats. -/
theorem seats_mapAttempts (f : Attempt F → Attempt F) (q : Queue F) :
    (q.mapAttempts f).seats = q.seats.map fun x => { x with attempt := f x.attempt } := by
  induction q using Queue.induction with
  | leaf info runnable parked =>
    rw [mapAttempts_leaf, seats_leaf, seats_leaf, ← List.map_append, List.map_map, List.map_map]
    rfl
  | parent info children ih =>
    rw [mapAttempts_parent, seats_parent, seats_parent, List.flatMap_map, List.map_flatMap]
    exact List.flatMap_congr ih

/-- Changing applications, but neither what identifies them nor what they hold, keeps the posts. -/
theorem posts_mapAttempts {f : Attempt F → Attempt F} (q : Queue F)
    (hpost : ∀ x ∈ q.seats, (f x.attempt).post x.leaf = x.attempt.post x.leaf) :
    (q.mapAttempts f).posts = q.posts := by
  rw [posts, seats_mapAttempts, List.map_map]
  exact List.map_congr_left hpost

/-- Changing applications, but not what identifies them, keeps the members. -/
theorem members_mapAttempts {f : Attempt F → Attempt F} (q : Queue F)
    (hmember : ∀ x ∈ q.seats, (f x.attempt).member x.leaf = x.attempt.member x.leaf) :
    (q.mapAttempts f).members = q.members := by
  simp only [members, posts, seats_mapAttempts, List.map_map]
  exact List.map_congr_left hmember

/-- Taking containers from applications takes them from the holdings. -/
theorem holdings_mapAttempts {f : Attempt F → Attempt F} {keep : Member × Container → Bool}
    (q : Queue F)
    (hmember : ∀ x ∈ q.seats, (f x.attempt).member x.leaf = x.attempt.member x.leaf)
    (hlive : ∀ x ∈ q.seats, (f x.attempt).live =
      x.attempt.live.filter fun c => keep (x.attempt.member x.leaf, c)) :
    (q.mapAttempts f).holdings = q.holdings.filter keep := by
  simp only [holdings, posts, seats_mapAttempts, List.map_map, List.flatMap_map, List.filter_flatMap]
  apply List.flatMap_congr
  intro x hx
  change (((f x.attempt).live).map fun c => ((f x.attempt).member x.leaf, c)) = _
  rw [hmember x hx, hlive x hx]
  exact (List.filter_map ..).symm

end Queue

namespace QueueTree

variable {t : QueueTree F} {n : String}

/-- An application that is put into a leaf has a post there, and the other posts are as they were. -/
theorem WellNamed.posts_addAttempt (h : t.WellNamed) (hn : t.kindOf? n = some .leaf)
    (a : Attempt F) :
    (t.modify n (Queue.addAttempt a)).root.posts.Perm (a.post n :: t.root.posts) := by
  obtain ⟨q, hq, hkind⟩ := Option.map_eq_some_iff.mp hn
  obtain ⟨hmem, rfl⟩ := h.root.find?_eq_some_iff.mp hq
  obtain ⟨rest, hbefore, hafter⟩ := h.root.exists_rest Queue.posts_parent hmem
  cases q with
  | parent info children => contradiction
  | leaf info runnable parked =>
    calc (t.root.modify info.name (Queue.addAttempt a)).posts
      _ ~ (Queue.addAttempt a (.leaf info runnable parked)).posts ++ rest := hafter _
      _ ~ (a.post info.name :: (Queue.leaf info runnable parked).posts) ++ rest :=
        (Queue.posts_addAttempt a info runnable parked).append_right rest
      _ ~ a.post info.name :: t.root.posts := hbefore.symm.cons _

/-- Removing an application of an id that a leaf has takes one post of that id in that leaf away, and
the other posts are as they were. -/
theorem WellNamed.posts_removeAttempt (h : t.WellNamed) {id : String}
    (hn : ∃ x ∈ t.root.posts, x.member.leaf = n ∧ x.member.id = id) :
    ∃ x, x.member.leaf = n ∧ x.member.id = id ∧
      t.root.posts.Perm (x :: (t.modify n (Queue.removeAttempt id)).root.posts) := by
  obtain ⟨x, hx, rfl, rfl⟩ := hn
  obtain ⟨y, hy, rfl⟩ := List.mem_map.mp hx
  obtain ⟨q, hmem, a, ha, rfl⟩ := Queue.mem_seats_iff.mp hy
  obtain ⟨rest, hbefore, hafter⟩ := h.root.exists_rest Queue.posts_parent hmem
  cases q with
  | parent info children => simp [Queue.ownAttempts] at ha
  | leaf info runnable parked =>
    obtain ⟨b, -, hid, hperm⟩ := Queue.posts_removeAttempt info ⟨a, ha, rfl⟩
    refine ⟨b.post info.name, rfl, hid, ?_⟩
    calc t.root.posts
      _ ~ (Queue.leaf info runnable parked).posts ++ rest := hbefore
      _ ~ b.post info.name ::
          ((Queue.removeAttempt a.id (.leaf info runnable parked)).posts ++ rest) :=
        hperm.append_right rest
      _ ~ b.post info.name :: (t.root.modify info.name (Queue.removeAttempt a.id)).posts :=
        (hafter _).symm.cons _

end QueueTree

end Allotment
