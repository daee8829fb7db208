import Allotment.Proofs.Policy
import Allotment.Proofs.Queue.Serving

/-!
# Who gets the next container

A queue that is offered a node tries its children in the order of its policy, and each of them tries its
own, down to the applications and their requests. What comes out is said here without the search: a
request is eligible if it fits and every queue above it has headroom, and the choice goes at every queue
to the first child with an eligible request below it, in a leaf to the first application with a request
that fits, and in that to the request of the lowest priority number that fits.

The search may try queues in vain before it succeeds. That this does no harm rests on one fact: whoever
has nothing eligible leaves the node, the next number and all holdings as they were.
-/

namespace Allotment

open scoped List

variable {F : Type}

/-! ## The requests of an application -/

namespace Attempt

/-- Whether every request is filed under its priority number and asks for something. -/
def Filed (a : Attempt F) : Prop :=
  ∀ e ∈ a.requests.entries, e.2.priority = e.1 ∧ 0 < e.2.count

/-- Whether some request fits. -/
def Fits (available : Resource) (a : Attempt F) : Prop :=
  ∃ r ∈ a.requests.values, r.capability ≤ available

/-- Whether a request has the lowest priority number of those that fit. -/
structure FirstFit (available : Resource) (a : Attempt F) (r : Request) : Prop where
  mem : r ∈ a.requests.values
  fits : r.capability ≤ available
  first : ∀ r' ∈ a.requests.values, r'.capability ≤ available → r' ≠ r → r.priority < r'.priority

variable {a : Attempt F} {available : Resource} {r r' : Request}

/-- Only one request has the lowest number. -/
theorem FirstFit.unique (h : FirstFit available a r) (h' : FirstFit available a r') : r = r' := by
  by_contra hne
  have hlt := h.first r' h'.mem h'.fits (Ne.symm hne)
  have hgt := h'.first r h.mem h.fits hne
  exact Nat.lt_asymm hlt hgt

/-- Filed requests are in the order of their priority numbers. -/
theorem Filed.ascending (h : a.Filed) :
    a.requests.values.Pairwise fun r r' => r.priority < r'.priority := by
  rw [Table.values, List.pairwise_map]
  refine a.requests.ascending.imp_of_mem ?_
  intro e e' he he' hlt
  rwa [(h e he).1, (h e' he').1]

/-- A filed request asks for something. -/
theorem Filed.count_pos (h : a.Filed) (hr : r ∈ a.requests.values) : 0 < r.count := by
  obtain ⟨e, he, rfl⟩ := List.mem_map.mp hr
  exact (h e he).2

/-- The request that an application puts forward has the lowest number of those that fit. -/
theorem Filed.firstFit (h : a.Filed) (hr : a.eligible? available = some r) :
    FirstFit available a r := by
  obtain ⟨hfits, before, after, hvalues, hbefore⟩ := List.find?_eq_some_iff_append.mp hr
  rw [Bool.and_eq_true, decide_eq_true_eq, decide_eq_true_eq] at hfits
  refine ⟨by simp [hvalues], hfits.2, ?_⟩
  intro r' hr' hfits' hne
  have hpos := h.count_pos hr'
  have hascending := h.ascending
  rw [hvalues, List.mem_append, List.mem_cons] at hr'
  obtain hr' | rfl | hr' := hr'
  · have hnot := hbefore r' hr'
    simp [hpos, hfits'] at hnot
  · contradiction
  · rw [hvalues, List.pairwise_append, List.pairwise_cons] at hascending
    exact hascending.2.1.1 r' hr'

/-- An application puts no request forward if none fits. -/
theorem Filed.eligible?_eq_none (h : a.Filed) : a.eligible? available = none ↔ ¬ Fits available a := by
  rw [eligible?, List.find?_eq_none]
  constructor
  · rintro hnone ⟨r, hr, hfits⟩
    exact hnone r hr (by simp [h.count_pos hr, hfits])
  · intro hnone r hr heligible
    rw [Bool.and_eq_true, decide_eq_true_eq, decide_eq_true_eq] at heligible
    exact hnone ⟨r, hr, heligible.2⟩

end Attempt

/-- A placement with one container more on the node. -/
structure Placement.Gains (p p' : Placement F) (r : Resource) : Prop where
  node : p'.node = { p.node with allocated := p.node.allocated + r }
  next : p'.nextContainer = p.nextContainer + 1

namespace Attempt

variable {a : Attempt F} {r : Request} {p : Placement F}

/-- An application that puts no request forward leaves everything as it is. -/
theorem assign_of_none (h : a.eligible? p.node.available = none) : a.assign p = ⟨a, p, 0⟩ := by
  rw [assign, h]

/-- The application with a container on a node for one of its requests. -/
def receive (a : Attempt F) (r : Request) (node : String) (id : ℕ) : Attempt F :=
  (a.takeOne r).hold (a.container r node id)

/-- What becomes of an application and a node when a container is placed for the request that the
application puts forward. -/
theorem assign_eq_receive (h : a.eligible? p.node.available = some r) :
    a.assign p = ⟨a.receive r p.node.id p.nextContainer,
      { p with
        node := { p.node with allocated := p.node.allocated + r.capability }
        nextContainer := p.nextContainer + 1 }, r.capability⟩ := by
  have hfits : r.capability ≤ p.node.available := by
    have hfound := List.find?_some h
    rw [Bool.and_eq_true, decide_eq_true_eq, decide_eq_true_eq] at hfound
    exact hfound.2
  have hallocated : p.node.allocate? r.capability =
      some { p.node with allocated := p.node.allocated + r.capability } := if_pos hfits
  rw [assign, h]
  simp only [hallocated]
  rfl

/-- An application gets a container of the request that it puts forward. -/
theorem assign_of_some (leaf : String) (h : a.eligible? p.node.available = some r) :
    (a.assign p).resource = r.capability ∧ p.Gains (a.assign p).placement r.capability ∧
      ((a.assign p).subject.post leaf).holdings =
        (a.post leaf).holdings ++ [(a.member leaf, a.container r p.node.id p.nextContainer)] := by
  have htaken : (a.takeOne r).live = a.live ∧ (a.takeOne r).member leaf = a.member leaf := by
    unfold takeOne
    split <;> exact ⟨rfl, rfl⟩
  rw [assign_eq_receive h]
  refine ⟨rfl, ⟨rfl, rfl⟩, ?_⟩
  change ((a.takeOne r).live ++ [_]).map (fun c => ((a.takeOne r).member leaf, c)) = _
  rw [htaken.1, htaken.2, List.map_append]
  rfl

/-- An application whose requests are filed, none for nothing, gets a container of the first request that
fits, or none fits and everything is left as it is. -/
theorem Filed.assign_cases (h : a.Filed) (hnonzero : ∀ r ∈ a.requests.values, r.capability ≠ 0)
    (leaf : String) (p : Placement F) :
    (¬ a.Fits p.node.available ∧ a.assign p = ⟨a, p, 0⟩) ∨
    ∃ r, FirstFit p.node.available a r ∧ r.capability ≠ 0 ∧ (a.assign p).resource = r.capability ∧
      p.Gains (a.assign p).placement r.capability ∧ ((a.assign p).subject.post leaf).holdings =
        (a.post leaf).holdings ++ [(a.member leaf, a.container r p.node.id p.nextContainer)] := by
  cases heligible : a.eligible? p.node.available with
  | none => exact .inl ⟨h.eligible?_eq_none.mp heligible, assign_of_none heligible⟩
  | some r =>
    have hfirst := h.firstFit heligible
    exact .inr ⟨r, hfirst, hnonzero r hfirst.mem, assign_of_some leaf heligible⟩

end Attempt

/-- Of those who are asked one after another, either nobody places anything and the placement stays as
it was, or there is a first one who does, and those behind are not asked. -/
theorem serveFirst_cases {α : Type} (serve : α → Placement F → Served F α) (xs : List α)
    (p : Placement F)
    (hidle : ∀ x ∈ xs, (serve x p).resource = 0 → (serve x p).placement = p) :
    ((∀ x ∈ xs, (serve x p).resource = 0) ∧ serveFirst (xs.map fun x => (x, serve x)) p =
      ⟨xs.map fun x => (serve x p).subject, p, 0⟩) ∨
    ∃ before x after, xs = before ++ x :: after ∧ (∀ y ∈ before, (serve y p).resource = 0) ∧
      (serve x p).resource ≠ 0 ∧ serveFirst (xs.map fun x => (x, serve x)) p =
        ⟨before.map (fun y => (serve y p).subject) ++ (serve x p).subject :: after,
          (serve x p).placement, (serve x p).resource⟩ := by
  induction xs with
  | nil => exact .inl ⟨by simp, rfl⟩
  | cons x rest ih =>
    rw [List.map_cons, serveFirst]
    by_cases hzero : (serve x p).resource = 0
    · have hplacement := hidle x List.mem_cons_self hzero
      rw [if_pos (show (serve x p).resource.isZero = true from decide_eq_true hzero), hplacement]
      obtain ⟨hall, hserved⟩ | ⟨before, y, after, rfl, hbefore, hy, hserved⟩ :=
        ih fun y hy => hidle y (List.mem_cons_of_mem x hy)
      · refine .inl ⟨by simpa [hzero] using hall, ?_⟩
        rw [hserved]
        rfl
      · refine .inr ⟨x :: before, y, after, rfl, by simpa [hzero] using hbefore, hy, ?_⟩
        rw [hserved]
        rfl
    · rw [if_neg (show ¬ (serve x p).resource.isZero = true from
        fun h => hzero (of_decide_eq_true h))]
      refine .inr ⟨[], x, rest, rfl, by simp, hzero, ?_⟩
      simp [Function.comp_def]

/-- Of those who are asked in the order of a policy, either nobody has a property and the placement stays
as it was, or the first who has it places something, and those behind are not asked: provided that
whoever places something has it, and whoever does not has not and leaves the placement as it was. -/
theorem serveFirst_sort_cases [Scalar F] [Scalar.Comparable F] {α : Type} (policy : Policy)
    (cluster : Resource) (standing : α → Standing F) (serve : α → Placement F → Served F α)
    (xs : List α) (p : Placement F) {P : α → Prop}
    (hserials : (xs.map fun x => (standing x).serial).Nodup)
    (hidle : ∀ x ∈ xs, (serve x p).resource = 0 → ¬ P x ∧ (serve x p).placement = p)
    (hplaces : ∀ x ∈ xs, (serve x p).resource ≠ 0 → P x) :
    let s := serveFirst ((policy.sort cluster standing xs).map fun x => (x, serve x)) p
    ((∀ x ∈ xs, ¬ P x) ∧ s.placement = p ∧ s.resource = 0) ∨
    ∃ before x after, before ++ x :: after ~ xs ∧ (∀ y ∈ before, (serve y p).resource = 0) ∧
      (serve x p).resource ≠ 0 ∧ policy.First cluster standing P xs x ∧ s =
        ⟨before.map (fun y => (serve y p).subject) ++ (serve x p).subject :: after,
          (serve x p).placement, (serve x p).resource⟩ := by
  have hranked := policy.sort_perm cluster standing xs
  obtain ⟨hall, hserved⟩ | ⟨before, x, after, hsorted, hbefore, hx, hserved⟩ :=
    serveFirst_cases serve (policy.sort cluster standing xs) p
      fun x hx hzero => (hidle x (hranked.mem_iff.mp hx) hzero).2
  · refine .inl ⟨fun x hx => ?_, congrArg Served.placement hserved, congrArg Served.resource hserved⟩
    exact (hidle x hx (hall x (hranked.mem_iff.mpr hx))).1
  · rw [hsorted] at hranked
    have hmem : x ∈ xs := hranked.mem_iff.mp (by simp)
    have hnot : ∀ y ∈ before, ¬ P y := by
      intro y hy
      exact (hidle y (hranked.mem_iff.mp (by simp [hy])) (hbefore y hy)).1
    exact .inr ⟨before, x, after, hranked, hbefore, hx,
      Policy.first_of_sort hserials hsorted (hplaces x hmem hx) hnot, hserved⟩

/-- What is gathered from a list in which one element has got something more. -/
theorem flatMap_middle_perm {α β : Type} {m : α → List β} {x x' : α} {given : List β}
    (h : m x' ~ m x ++ given) (before after : List α) :
    (before ++ x' :: after).flatMap m ~ (before ++ x :: after).flatMap m ++ given := by
  simp only [List.flatMap_append, List.flatMap_cons, List.append_assoc]
  refine List.Perm.append_left _ ((h.append_right _).trans ?_)
  rw [List.append_assoc]
  exact List.perm_append_comm.append_left _

namespace Queue

/-! ## Eligible requests and the choice among them -/

/-- Whether a request of a runnable application in a leaf within a queue fits and all queues on the
way have headroom. -/
inductive Eligible [Scalar F] (available : Resource) :
    Queue F → Queue F → Attempt F → Request → Prop where
  | leaf {info : QueueInfo F} {runnable parked : List (Attempt F)} {a : Attempt F} {r : Request}
    (headroom : info.settings.hasHeadroom (leaf info runnable parked).usage = true)
    (ha : a ∈ runnable) (hr : r ∈ a.requests.values) (fits : r.capability ≤ available) :
    Eligible available (leaf info runnable parked) (leaf info runnable parked) a r
  | parent {info : QueueInfo F} {children : List (Queue F)} {c l : Queue F} {a : Attempt F}
    {r : Request} (headroom : info.settings.hasHeadroom (parent info children).usage = true)
    (hc : c ∈ children) (below : Eligible available c l a r) :
    Eligible available (parent info children) l a r

/-- Whether a queue has an eligible request below it. -/
def HasEligible [Scalar F] (available : Resource) (q : Queue F) : Prop :=
  ∃ l a r, Eligible available q l a r

/-- Whether a request of an application in a leaf is the one to be served: at every queue on the way
the first child that has an eligible request below it is taken, in the leaf the first application with
a request that fits, and in that the request of the lowest number. -/
inductive Chooses [Scalar F] (cluster available : Resource) :
    Queue F → Queue F → Attempt F → Request → Prop where
  | leaf {info : QueueInfo F} {runnable parked : List (Attempt F)} {a : Attempt F} {r : Request}
    (headroom : info.settings.hasHeadroom (leaf info runnable parked).usage = true)
    (ha : info.policy.First cluster Attempt.standing (Attempt.Fits available) runnable a)
    (hr : Attempt.FirstFit available a r) :
    Chooses cluster available (leaf info runnable parked) (leaf info runnable parked) a r
  | parent {info : QueueInfo F} {children : List (Queue F)} {c l : Queue F} {a : Attempt F}
    {r : Request} (headroom : info.settings.hasHeadroom (parent info children).usage = true)
    (hc : info.policy.First cluster standing (HasEligible available) children c)
    (below : Chooses cluster available c l a r) :
    Chooses cluster available (parent info children) l a r

/-- What is required of a queue for the choice to be clear: siblings bear different serial numbers,
requests are filed, and none is for nothing. -/
structure Orderly (q : Queue F) : Prop where
  children : ∀ r ∈ q.all, (r.children.map fun c => c.info.serial).Nodup
  runnable : ∀ r ∈ q.all, (r.runnable.map Attempt.serial).Nodup
  filed : ∀ a ∈ q.attempts, a.Filed
  nonzero : ∀ a ∈ q.attempts, ∀ r ∈ a.requests.values, r.capability ≠ 0

/-- What is required of a queue is required of its children. -/
theorem Orderly.child {info : QueueInfo F} {children : List (Queue F)}
    (h : (parent info children).Orderly) {c : Queue F} (hc : c ∈ children) : c.Orderly := by
  have hattempts : ∀ a ∈ c.attempts, a ∈ (parent info children).attempts := by
    intro a ha
    rw [attempts_parent]
    exact List.mem_flatMap.mpr ⟨c, hc, ha⟩
  exact ⟨fun r hr => h.children r (mem_all_of_child hc hr),
    fun r hr => h.runnable r (mem_all_of_child hc hr),
    fun a ha => h.filed a (hattempts a ha), fun a ha => h.nonzero a (hattempts a ha)⟩

section Choice

variable [Scalar F] {cluster available : Resource} {q l l' : Queue F} {a a' : Attempt F}
  {r r' : Request}

/-- What is chosen is eligible. -/
theorem Chooses.eligible (h : Chooses cluster available q l a r) : Eligible available q l a r := by
  induction h with
  | leaf headroom ha hr => exact .leaf headroom ha.mem hr.mem hr.fits
  | parent headroom hc below ih => exact .parent headroom hc.mem ih

/-- Only one request is chosen. -/
theorem Chooses.unique [Scalar.Comparable F] (h : Chooses cluster available q l a r)
    (h' : Chooses cluster available q l' a' r') : l' = l ∧ a' = a ∧ r' = r := by
  induction h with
  | leaf headroom ha hr =>
    cases h' with
    | leaf headroom' ha' hr' =>
      obtain rfl := ha.unique ha'
      exact ⟨rfl, rfl, hr'.unique hr⟩
  | parent headroom hc below ih =>
    cases h' with
    | parent headroom' hc' below' =>
      obtain rfl := hc.unique hc'
      exact ih below'

/-- A queue without headroom has nothing eligible below it. -/
theorem HasEligible.headroom (h : HasEligible available q) :
    q.info.settings.hasHeadroom q.usage = true := by
  obtain ⟨l, a, r, heligible⟩ := h
  cases heligible with
  | leaf headroom => exact headroom
  | parent headroom => exact headroom

/-- A leaf with headroom has something eligible if some runnable application has a request that
fits. -/
theorem hasEligible_leaf_iff {info : QueueInfo F} {runnable parked : List (Attempt F)}
    (headroom : info.settings.hasHeadroom (leaf info runnable parked).usage = true) :
    HasEligible available (leaf info runnable parked) ↔ ∃ a ∈ runnable, a.Fits available := by
  constructor
  · rintro ⟨l, a, r, heligible⟩
    cases heligible with
    | leaf _ ha hr fits => exact ⟨a, ha, r, hr, fits⟩
  · rintro ⟨a, ha, r, hr, fits⟩
    exact ⟨_, a, r, .leaf headroom ha hr fits⟩

/-- A parent with headroom has something eligible below it if some child has. -/
theorem hasEligible_parent_iff {info : QueueInfo F} {children : List (Queue F)}
    (headroom : info.settings.hasHeadroom (parent info children).usage = true) :
    HasEligible available (parent info children) ↔ ∃ c ∈ children, HasEligible available c := by
  constructor
  · rintro ⟨l, a, r, heligible⟩
    cases heligible with
    | parent _ hc below => exact ⟨_, hc, l, a, r, below⟩
  · rintro ⟨c, hc, l, a, r, below⟩
    exact ⟨l, a, r, .parent headroom hc below⟩

/-! ## The search finds the choice -/

/-- What becomes of a queue that gives the next container to a request: the node carries it, and the
application holds it. -/
structure Creates (q : Queue F) (p : Placement F) (s : Served F (Queue F)) (l : Queue F)
    (a : Attempt F) (r : Request) : Prop where
  resource : s.resource = r.capability
  placement : p.Gains s.placement r.capability
  holdings : s.subject.holdings ~
    q.holdings ++ [(a.member l.name, a.container r p.node.id p.nextContainer)]

omit [Scalar F] in
@[simp] theorem holdings_leaf (info : QueueInfo F) (runnable parked : List (Attempt F)) :
    (leaf info runnable parked).holdings =
      (runnable ++ parked).flatMap fun a => (a.post info.name).holdings := by
  rw [holdings, posts_leaf, List.flatMap_map]

omit [Scalar F] in
@[simp] theorem holdings_parent (info : QueueInfo F) (children : List (Queue F)) :
    (parent info children).holdings = children.flatMap holdings := by
  rw [holdings, posts_parent, List.flatMap_assoc]
  rfl

/-- A queue that has placed nothing holds what it held. -/
theorem holdings_assign_of_idle {p : Placement F} (h : (q.assign cluster p).placement = p) :
    (q.assign cluster p).subject.holdings ~ q.holdings := by
  obtain ⟨given, hplaces, hheld, -⟩ := q.serves_assign cluster p
  have hnext := hplaces.next
  rw [h, Nat.left_eq_add, List.length_eq_zero_iff] at hnext
  rw [hnext, List.append_nil] at hheld
  exact hheld

theorem assign_leaf (cluster : Resource) (info : QueueInfo F) (runnable parked : List (Attempt F))
    (p : Placement F) :
    (leaf info runnable parked).assign cluster p =
      if info.settings.hasHeadroom (leaf info runnable parked).usage then
        let s := serveFirst ((info.policy.sort cluster Attempt.standing runnable).map
          fun a => (a, a.assign)) p
        ⟨leaf info s.subject parked, countAssigned info.name s.resource s.placement, s.resource⟩
      else ⟨leaf info runnable parked, p, 0⟩ := by
  rw [assign, fold_leaf]

/-- The children of a parent are asked in the order of its policy. -/
theorem assign_parent_sorted (cluster : Resource) (info : QueueInfo F) (children : List (Queue F))
    (p : Placement F) :
    (parent info children).assign cluster p =
      if info.settings.hasHeadroom (parent info children).usage then
        let s := serveFirst ((info.policy.sort cluster standing children).map
          fun c => (c, c.assign cluster)) p
        ⟨parent info s.subject, s.placement, s.resource⟩
      else ⟨parent info children, p, 0⟩ := by
  rw [assign_parent, Policy.sort_map]

variable [Scalar.Comparable F]

/-- A leaf whose applications ask in an orderly way gives the next container to the choice, or has
nothing eligible and leaves everything as it is. -/
theorem assign_leaf_cases {info : QueueInfo F} {runnable parked : List (Attempt F)}
    (h : (leaf info runnable parked).Orderly) (cluster : Resource) (p : Placement F) :
    (¬ HasEligible p.node.available (leaf info runnable parked) ∧
      ((leaf info runnable parked).assign cluster p).resource = 0 ∧
      ((leaf info runnable parked).assign cluster p).placement = p) ∨
    ∃ l a r, Chooses cluster p.node.available (leaf info runnable parked) l a r ∧
      r.capability ≠ 0 ∧
      Creates (leaf info runnable parked) p ((leaf info runnable parked).assign cluster p) l a r := by
  by_cases headroom : info.settings.hasHeadroom (leaf info runnable parked).usage = true
  case neg =>
    rw [assign_leaf, if_neg headroom]
    exact .inl ⟨fun hhas => headroom hhas.headroom, rfl, rfl⟩
  rw [assign_leaf, if_pos headroom]
  have hasked : ∀ a ∈ runnable, _ := fun a ha =>
    have hmem : a ∈ (leaf info runnable parked).attempts := by
      rw [attempts_leaf]
      exact List.mem_append_left parked ha
    (h.filed a hmem).assign_cases (h.nonzero a hmem) info.name p
  have hidle : ∀ a ∈ runnable, (a.assign p).resource = 0 →
      ¬ a.Fits p.node.available ∧ a.assign p = ⟨a, p, 0⟩ := by
    intro a ha hzero
    obtain hidle | ⟨r, -, hnonzero, hresource, -⟩ := hasked a ha
    · exact hidle
    · exact absurd (hresource.symm.trans hzero) hnonzero
  have hplaces : ∀ a ∈ runnable, (a.assign p).resource ≠ 0 → a.Fits p.node.available := by
    intro a ha hsome
    obtain ⟨-, hidle⟩ | ⟨r, hr, -⟩ := hasked a ha
    · rw [hidle] at hsome
      contradiction
    · exact ⟨r, hr.mem, hr.fits⟩
  obtain ⟨hnone, hplacement, hresource⟩ |
      ⟨before, a, after, hperm, hbefore, hsome, hfirst, hserved⟩ :=
    serveFirst_sort_cases info.policy cluster Attempt.standing Attempt.assign runnable p
      (h.runnable _ (mem_all_self _))
      (fun a ha hzero => ⟨(hidle a ha hzero).1, by rw [(hidle a ha hzero).2]⟩) hplaces
  · refine .inl ⟨?_, hresource, ?_⟩
    · rw [hasEligible_leaf_iff headroom]
      rintro ⟨a, ha, hfits⟩
      exact hnone a ha hfits
    · simp only [hplacement, hresource]
      rfl
  · obtain ⟨-, hnothing⟩ | ⟨r, hr, hnonzero, hresource, hgains, hheld⟩ := hasked a hfirst.mem
    · rw [hnothing] at hsome
      contradiction
    refine .inr ⟨_, a, r, .leaf headroom hfirst hr, hnonzero, ?_, ?_, ?_⟩
    · simp only [hserved, hresource]
    · simp only [hserved]
      exact ⟨by rw [(countAssigned_eq _ _ _).1, hgains.node],
        by rw [(countAssigned_eq _ _ _).2, hgains.next]⟩
    · have hkept : before.map (fun b => (b.assign p).subject) = before.map fun b => b := by
        refine List.map_congr_left fun b hb => ?_
        rw [(hidle b (hperm.mem_iff.mp (by simp [hb])) (hbefore b hb)).2]
      rw [hserved, holdings_leaf, holdings_leaf]
      dsimp only
      rw [hkept, List.map_id', List.append_assoc, List.cons_append]
      let held := fun b : Attempt F => (b.post info.name).holdings
      have hgiven : held (a.assign p).subject ~ held a ++ _ := .of_eq hheld
      calc (before ++ (a.assign p).subject :: (after ++ parked)).flatMap held
        _ ~ (before ++ a :: (after ++ parked)).flatMap held ++ _ :=
          flatMap_middle_perm hgiven before (after ++ parked)
        _ ~ (runnable ++ parked).flatMap held ++ _ := by
          rw [← List.cons_append, ← List.append_assoc]
          exact ((hperm.append_right parked).flatMap_right held).append_right _

/-- A queue gives the next container to the choice, or has nothing eligible and leaves everything as it
is. -/
theorem Orderly.assign_cases (h : q.Orderly) (cluster : Resource) (p : Placement F) :
    (¬ HasEligible p.node.available q ∧ (q.assign cluster p).resource = 0 ∧
      (q.assign cluster p).placement = p) ∨
    ∃ l a r, Chooses cluster p.node.available q l a r ∧ r.capability ≠ 0 ∧
      Creates q p (q.assign cluster p) l a r := by
  induction q using Queue.induction with
  | leaf info runnable parked => exact assign_leaf_cases h cluster p
  | parent info children ih =>
    by_cases headroom : info.settings.hasHeadroom (parent info children).usage = true
    case neg =>
      rw [assign_parent_sorted, if_neg headroom]
      exact .inl ⟨fun hhas => headroom hhas.headroom, rfl, rfl⟩
    rw [assign_parent_sorted, if_pos headroom]
    have hasked := fun c hc => ih c hc (h.child hc)
    have hidle : ∀ c ∈ children, (c.assign cluster p).resource = 0 →
        ¬ HasEligible p.node.available c ∧ (c.assign cluster p).placement = p := by
      intro c hc hzero
      obtain ⟨hnone, -, hplacement⟩ | ⟨l, a, r, -, hnonzero, hcreates⟩ := hasked c hc
      · exact ⟨hnone, hplacement⟩
      · exact absurd (hcreates.resource.symm.trans hzero) hnonzero
    have hplaces : ∀ c ∈ children, (c.assign cluster p).resource ≠ 0 →
        HasEligible p.node.available c := by
      intro c hc hsome
      obtain ⟨-, hzero, -⟩ | ⟨l, a, r, hchooses, -⟩ := hasked c hc
      · exact absurd hzero hsome
      · exact ⟨l, a, r, hchooses.eligible⟩
    obtain ⟨hnone, hplacement, hresource⟩ |
        ⟨before, c, after, hperm, hbefore, hsome, hfirst, hserved⟩ :=
      serveFirst_sort_cases info.policy cluster standing (assign cluster) children p
        (h.children _ (mem_all_self _)) hidle hplaces
    · refine .inl ⟨?_, hresource, hplacement⟩
      rw [hasEligible_parent_iff headroom]
      rintro ⟨c, hc, hhas⟩
      exact hnone c hc hhas
    · obtain ⟨-, hzero, -⟩ | ⟨l, a, r, hchooses, hnonzero, hcreates⟩ := hasked c hfirst.mem
      · exact absurd hzero hsome
      refine .inr ⟨l, a, r, .parent headroom hfirst hchooses, hnonzero, ?_, ?_, ?_⟩
      · simp only [hserved, hcreates.resource]
      · simp only [hserved]
        exact hcreates.placement
      · rw [hserved, holdings_parent, holdings_parent]
        -- The children that were asked in vain hold what they held, if not in the same order.
        have hvain : (before.map fun b => (b.assign cluster p).subject).flatMap holdings ~
            before.flatMap holdings := by
          rw [List.flatMap_map]
          refine List.Perm.flatMap_left _ fun b hb => ?_
          exact holdings_assign_of_idle
            (hidle b (hperm.mem_iff.mp (by simp [hb])) (hbefore b hb)).2
        calc ((before.map fun b => (b.assign cluster p).subject) ++
              (c.assign cluster p).subject :: after).flatMap holdings
          _ ~ (before ++ (c.assign cluster p).subject :: after).flatMap holdings := by
            rw [List.flatMap_append, List.flatMap_append]
            exact hvain.append_right _
          _ ~ (before ++ c :: after).flatMap holdings ++ _ :=
            flatMap_middle_perm hcreates.holdings before after
          _ ~ children.flatMap holdings ++ _ := (hperm.flatMap_right holdings).append_right _

end Choice

end Queue

end Allotment
