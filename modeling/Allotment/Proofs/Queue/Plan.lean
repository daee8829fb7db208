import Allotment.Proofs.Queue.Growth

/-!
# What a plan lists

A plan lists the configured queues in the order of the configuration: a queue comes after its parent
and before its children, its name goes with its parent's, and its policy applies to its place. No
queue is within one that comes later.
-/

namespace Allotment

open QueueName

variable {F : Type}

namespace QueueConfig

/-- What holds of a queue whenever it holds of those configured below it holds of all. -/
theorem induction {motive : QueueConfig F → Prop}
    (node : ∀ options children, (∀ c ∈ children, motive c) → motive (node options children)) :
    ∀ c, motive c :=
  fun c => QueueConfig.rec (motive_1 := motive) (motive_2 := fun cs => ∀ c ∈ cs, motive c) node
    (by simp) (fun _ _ hc hcs => by simpa using ⟨hc, hcs⟩) c

mutual

/-- A queue configured below a parent and those below it, with their full names. -/
def entries (parent : String) : QueueConfig F → List (String × QueueConfig F)
  | .node options children =>
    (child parent options.name, .node options children) ::
      entriesBelow (child parent options.name) children

/-- The queues configured below a parent, with their full names. -/
def entriesBelow (parent : String) : List (QueueConfig F) → List (String × QueueConfig F)
  | [] => []
  | c :: rest => entries parent c ++ entriesBelow parent rest

end

/-- The queues that a configuration asks for below the root, with their full names. -/
def configured (c : QueueConfig F) : List (String × QueueConfig F) :=
  entriesBelow QueueName.root c.children

/-- The place of a configured queue is that of the queue to be created. -/
theorem place_eq (c : QueueConfig F) : c.place = Queue.place false c.kind := by
  unfold place Queue.place
  cases c.kind <;> rfl

/-- A queue with children is to be a parent. -/
theorem kind_of_children {c : QueueConfig F} (h : c.children ≠ []) : c.kind = .parent := by
  simp [kind, isParent, h]

/-- A policy that is settled on applies to its place. -/
theorem policyAt_eq_ok_iff {c : QueueConfig F} {name : String} {place : Depth} {policy : Policy} :
    c.policyAt name place = .ok policy ↔ c.policy = .ok policy ∧ policy.appliesTo place = true := by
  unfold policyAt
  cases c.policy with
  | error e => simp [bind, Except.bind]
  | ok p =>
    simp only [bind, Except.bind, pure, Except.pure, throw, throwThe, MonadExceptOf.throw]
    constructor
    · intro h
      split at h
      · rename_i happlies
        cases h
        exact ⟨rfl, happlies⟩
      · contradiction
    · rintro ⟨hpolicy, happlies⟩
      cases hpolicy
      rw [if_pos happlies]

end QueueConfig

/-- Whether a planned queue's name goes with its parent's and its policy, the configured one, applies
to its place. -/
structure Planned.Fits (p : Planned F) : Prop where
  part : IsPart p.config.name
  name : p.name = child p.parent p.config.name
  wants : p.config.policy = .ok p.policy
  applies : p.policy.appliesTo p.config.place = true

/-- Whether planned queues lie below a top queue, parents come before their children, no queue is
within a later one, and queues with configured children have planned ones. -/
structure InOrder (top : String) (planned : List (Planned F)) : Prop where
  fits : ∀ p ∈ planned, p.Fits
  rooted : ∀ before p after, planned = before ++ p :: after →
    p.parent = top ∨ ∃ q ∈ before, q.name = p.parent ∧ q.config.children ≠ []
  apart : planned.Pairwise fun p q => Shape.isWithin p.name q.name = false
  below : ∀ p ∈ planned, Shape.isWithin p.parent top = true
  filled : ∀ p ∈ planned, p.config.children ≠ [] → ∃ q ∈ planned, q.parent = p.name

/-- A planned queue is within its parent. -/
theorem Planned.Fits.isWithin {p : Planned F} (h : p.Fits) :
    Shape.isWithin p.name p.parent = true := by
  rw [h.name]
  exact Shape.isWithin_child p.parent p.config.name

/-- The parent of a planned queue is not within it. -/
theorem Planned.Fits.not_isWithin_parent {p : Planned F} (h : p.Fits) :
    Shape.isWithin p.parent p.name = false := by
  rw [h.name]
  exact Shape.not_isWithin_child p.parent p.config.name

/-- What a planned queue is below is not within it. -/
theorem Planned.Fits.not_isWithin_top {p : Planned F} (h : p.Fits) {top : String}
    (hbelow : Shape.isWithin p.parent top = true) : Shape.isWithin top p.name = false := by
  rw [Bool.eq_false_iff]
  intro hwithin
  have hin := Shape.isWithin_trans hbelow hwithin
  rw [h.not_isWithin_parent] at hin
  contradiction

/-- No two planned queues share a name. -/
theorem InOrder.eq_of_name {top : String} {planned : List (Planned F)} (h : InOrder top planned)
    {p q : Planned F} (hp : p ∈ planned) (hq : q ∈ planned) (hname : p.name = q.name) : p = q := by
  have hnodup : (planned.map Planned.name).Nodup := by
    rw [List.nodup_iff_pairwise_ne, List.pairwise_map]
    refine h.apart.imp ?_
    intro a b hapart heq
    rw [heq, Shape.isWithin_self] at hapart
    contradiction
  exact List.inj_on_of_nodup_map hnodup hp hq hname

/-- A planned queue is not within one that comes later. -/
theorem InOrder.not_isWithin_of_before {top : String} {before after : List (Planned F)}
    {p q : Planned F} (h : InOrder top (before ++ p :: after)) (hq : q ∈ before) :
    Shape.isWithin q.name p.name = false := by
  have happart := h.apart
  rw [List.pairwise_append] at happart
  exact happart.2.2 q hq p List.mem_cons_self

/-- A planned queue has another name than one that comes later. -/
theorem InOrder.ne_of_before {top : String} {before after : List (Planned F)} {p q : Planned F}
    (h : InOrder top (before ++ p :: after)) (hq : q ∈ before) : q.name ≠ p.name := by
  intro heq
  have hout := h.not_isWithin_of_before hq
  rw [heq, Shape.isWithin_self] at hout
  contradiction

/-- What is above a planned queue and within the top is planned, or the top. -/
theorem InOrder.exists_of_isWithin {top : String} {planned before after : List (Planned F)}
    {p : Planned F} (h : InOrder top planned) (hsplit : planned = before ++ p :: after) {n : String}
    (hpn : Shape.isWithin p.name n = true) (hn : Shape.isWithin n top = true) :
    n = top ∨ ∃ q ∈ planned, q.name = n := by
  -- The parent of a queue comes before it, so this is an induction on what comes before.
  induction hlength : before.length using Nat.strong_induction_on generalizing before p after with
  | _ length ih =>
    have hp : p ∈ planned := by simp [hsplit]
    have hfits := h.fits p hp
    rw [hfits.name, Shape.isWithin_child_iff hfits.part, ← hfits.name] at hpn
    obtain rfl | hparent := hpn
    · exact .inr ⟨p, hp, rfl⟩
    · obtain htop | ⟨q, hq, hname, -⟩ := h.rooted before p after hsplit
      · rw [htop] at hparent
        exact .inl (Shape.isWithin_antisymm hn hparent)
      · obtain ⟨first, rest, rfl⟩ := List.append_of_mem hq
        have hshorter : first.length < length := by
          rw [← hlength]
          simp
        have hearlier : planned = first ++ q :: (rest ++ p :: after) := by simp [hsplit]
        rw [← hname] at hparent
        exact ih first.length hshorter hearlier hparent rfl

namespace QueueConfig

/-- A planned queue comes before the plan of its children. -/
theorem planQueue_eq_ok_iff {parent : String} {seen : List String} {options : QueueOptions F}
    {children : List (QueueConfig F)} {planned : List (Planned F)} :
    planQueue parent seen (.node options children) = .ok planned ↔
      IsPart options.name ∧ options.name ∉ seen ∧ ∃ policy below,
        (policyAt (.node options children) (child parent options.name)
          (place (.node options children)) = .ok policy) ∧
        planAll (child parent options.name) [] children = .ok below ∧
        planned = ⟨child parent options.name, parent, .node options children, policy⟩ :: below := by
  have hname : (QueueConfig.node options children).name = options.name := rfl
  rw [isPart_iff_fault?]
  simp only [planQueue, bind, Except.bind, pure, Except.pure, throw, throwThe,
    MonadExceptOf.throw, hname]
  constructor
  · intro h
    split at h
    · contradiction
    · rename_i hfault
      split at h
      · contradiction
      · rename_i hseen
        split at h
        · contradiction
        · rename_i policy hpolicy
          split at h
          · contradiction
          · rename_i below hbelow
            cases h
            have hnone : fault? options.name = none := by
              cases hcase : fault? options.name with
              | none => rfl
              | some fault => exact absurd hcase (hfault fault)
            exact ⟨hnone, by simpa using hseen, policy, below, hpolicy, hbelow, rfl⟩
  · rintro ⟨hnone, hseen, policy, below, hpolicy, hbelow, rfl⟩
    simp [hnone, hseen, hpolicy, hbelow]

/-- The plan of several queues is that of the first and that of the others. -/
theorem planAll_cons_eq_ok_iff {parent : String} {seen : List String} {c : QueueConfig F}
    {rest : List (QueueConfig F)} {planned : List (Planned F)} :
    planAll parent seen (c :: rest) = .ok planned ↔
      ∃ first others, planQueue parent seen c = .ok first ∧
        planAll parent (c.name :: seen) rest = .ok others ∧ planned = first ++ others := by
  simp only [planAll, bind, Except.bind, pure, Except.pure]
  constructor
  · intro h
    split at h
    · contradiction
    · rename_i first hfirst
      split at h
      · contradiction
      · rename_i others hothers
        cases h
        exact ⟨first, others, hfirst, hothers, rfl⟩
  · rintro ⟨first, others, hfirst, hothers, rfl⟩
    simp [hfirst, hothers]

/-- Whether planned queues are in order below a parent, each within one of some children of it, and
are those that are configured. -/
structure Lists (parent : String) (names : List String) (wanted : List (String × QueueConfig F))
    (planned : List (Planned F)) : Prop where
  inOrder : InOrder parent planned
  within : ∀ p ∈ planned, ∃ n ∈ names, IsPart n ∧ Shape.isWithin p.name (child parent n) = true
  entries : planned.map (fun p => (p.name, p.config)) = wanted

/-- A queue in front of what is planned below it is in order. -/
theorem Lists.cons {parent : String} {options : QueueOptions F} {children : List (QueueConfig F)}
    {names : List String} {policy : Policy} {below : List (Planned F)} (hpart : IsPart options.name)
    (hwants : (QueueConfig.node options children).policy = .ok policy)
    (happlies : policy.appliesTo (place (.node options children)) = true)
    (hchildren : children = [] ↔ below = [])
    (h : Lists (child parent options.name) names
      (entriesBelow (child parent options.name) children) below) :
    Lists parent [options.name] (QueueConfig.entries parent (.node options children))
      (⟨child parent options.name, parent, .node options children, policy⟩ :: below) := by
  have hbelow : ∀ p ∈ below, Shape.isWithin p.name (child parent options.name) = true :=
    fun p hp => Shape.isWithin_trans (h.inOrder.fits p hp).isWithin (h.inOrder.below p hp)
  refine ⟨⟨?_, ?_, ?_, ?_, ?_⟩, ?_, ?_⟩
  · intro p hp
    rcases List.mem_cons.mp hp with rfl | hp
    · exact ⟨hpart, rfl, hwants, happlies⟩
    · exact h.inOrder.fits p hp
  · intro before p after hsplit
    cases before with
    | nil =>
      obtain ⟨rfl, -⟩ := List.cons.inj hsplit
      exact .inl rfl
    | cons head before =>
      obtain ⟨rfl, hrest⟩ := List.cons.inj hsplit
      right
      rcases h.inOrder.rooted before p after hrest with htop | ⟨q, hq, hname, hmore⟩
      · refine ⟨_, List.mem_cons_self, htop.symm, ?_⟩
        intro hnone
        rw [hchildren.mp hnone] at hrest
        simp at hrest
      · exact ⟨q, List.mem_cons_of_mem _ hq, hname, hmore⟩
  · rw [List.pairwise_cons]
    refine ⟨?_, h.inOrder.apart⟩
    intro p hp
    rw [Bool.eq_false_iff]
    intro hwithin
    have hin := Shape.isWithin_trans hwithin (h.inOrder.fits p hp).isWithin
    have hparent := Shape.isWithin_antisymm hin (h.inOrder.below p hp)
    rw [hparent, (h.inOrder.fits p hp).name, Shape.not_isWithin_child] at hwithin
    contradiction
  · intro p hp
    rcases List.mem_cons.mp hp with rfl | hp
    · exact Shape.isWithin_self parent
    · exact Shape.isWithin_trans (h.inOrder.below p hp) (Shape.isWithin_child parent options.name)
  · intro p hp hmore
    rcases List.mem_cons.mp hp with rfl | hp
    · cases hcase : below with
      | nil => exact absurd (hchildren.mpr hcase) hmore
      | cons first rest =>
        have hfirst : first.parent = child parent options.name := by
          rcases h.inOrder.rooted [] first rest hcase with htop | ⟨q, hq, -, -⟩
          · exact htop
          · simp at hq
        exact ⟨first, List.mem_cons_of_mem _ List.mem_cons_self, hfirst⟩
    · obtain ⟨q, hq, hparent⟩ := h.inOrder.filled p hp hmore
      exact ⟨q, List.mem_cons_of_mem _ hq, hparent⟩
  · intro p hp
    refine ⟨options.name, List.mem_singleton_self _, hpart, ?_⟩
    rcases List.mem_cons.mp hp with rfl | hp
    · exact Shape.isWithin_self _
    · exact hbelow p hp
  · rw [List.map_cons, h.entries, QueueConfig.entries]

/-- What is planned below different children is in order together. -/
theorem Lists.append {parent n : String} {names : List String}
    {wanted wanted' : List (String × QueueConfig F)} {first others : List (Planned F)}
    (hnew : n ∉ names) (h : Lists parent [n] wanted first) (h' : Lists parent names wanted' others) :
    Lists parent (n :: names) (wanted ++ wanted') (first ++ others) := by
  refine ⟨⟨?_, ?_, ?_, ?_, ?_⟩, ?_, ?_⟩
  · intro p hp
    exact (List.mem_append.mp hp).elim (h.inOrder.fits p) (h'.inOrder.fits p)
  · intro before p after hsplit
    rcases List.append_eq_append_iff.mp hsplit with ⟨more, rfl, hmore⟩ | ⟨more, hmore, hafter⟩
    · rcases h'.inOrder.rooted more p after hmore with htop | ⟨q, hq, hname, hchildren⟩
      · exact .inl htop
      · exact .inr ⟨q, List.mem_append_right first hq, hname, hchildren⟩
    · cases more with
      | nil =>
        rcases h'.inOrder.rooted [] p after hafter.symm with htop | ⟨q, hq, -, -⟩
        · exact .inl htop
        · simp at hq
      | cons head rest =>
        obtain ⟨rfl, -⟩ := List.cons.inj hafter
        exact h.inOrder.rooted before p rest hmore
  · rw [List.pairwise_append]
    refine ⟨h.inOrder.apart, h'.inOrder.apart, ?_⟩
    intro p hp q hq
    rw [Bool.eq_false_iff]
    intro hwithin
    obtain ⟨a, ha, hapart, hpa⟩ := h.within p hp
    obtain ⟨b, hb, hbpart, hqb⟩ := h'.within q hq
    obtain rfl := List.mem_singleton.mp ha
    have heq := Shape.child_eq_of_isWithin hapart hbpart hpa (Shape.isWithin_trans hwithin hqb)
    exact hnew (heq ▸ hb)
  · intro p hp
    exact (List.mem_append.mp hp).elim (h.inOrder.below p) (h'.inOrder.below p)
  · intro p hp hmore
    rcases List.mem_append.mp hp with hp | hp
    · obtain ⟨q, hq, hparent⟩ := h.inOrder.filled p hp hmore
      exact ⟨q, List.mem_append_left others hq, hparent⟩
    · obtain ⟨q, hq, hparent⟩ := h'.inOrder.filled p hp hmore
      exact ⟨q, List.mem_append_right first hq, hparent⟩
  · intro p hp
    rcases List.mem_append.mp hp with hp | hp
    · obtain ⟨a, ha, hpart, hpa⟩ := h.within p hp
      obtain rfl := List.mem_singleton.mp ha
      exact ⟨a, List.mem_cons_self, hpart, hpa⟩
    · obtain ⟨b, hb, hpart, hpb⟩ := h'.within p hp
      exact ⟨b, List.mem_cons_of_mem n hb, hpart, hpb⟩
  · rw [List.map_append, h.entries, h'.entries]

/-- The plan of the children of a queue is in order below it, if the plan of each of them is. -/
theorem planAll_lists {children : List (QueueConfig F)}
    (hchildren : ∀ c ∈ children, ∀ (parent : String) (seen : List String)
      (planned : List (Planned F)), planQueue parent seen c = .ok planned →
        c.name ∉ seen ∧ Lists parent [c.name] (entries parent c) planned)
    (parent : String) (seen : List String) (planned : List (Planned F))
    (h : planAll parent seen children = .ok planned) :
    (∀ c ∈ children, c.name ∉ seen) ∧
      Lists parent (children.map name) (entriesBelow parent children) planned := by
  induction children generalizing seen planned with
  | nil =>
    simp only [planAll, pure, Except.pure, Except.ok.injEq] at h
    subst h
    refine ⟨by simp, ⟨⟨by simp, by simp, .nil, by simp, by simp⟩, by simp, ?_⟩⟩
    rw [List.map_nil, entriesBelow]
  | cons c rest ih =>
    obtain ⟨first, others, hfirst, hothers, rfl⟩ := planAll_cons_eq_ok_iff.mp h
    obtain ⟨hseen, hlists⟩ := hchildren c List.mem_cons_self parent seen first hfirst
    obtain ⟨hunseen, hrest⟩ := ih (fun c' hc' => hchildren c' (List.mem_cons_of_mem c hc'))
      (c.name :: seen) others hothers
    have hnew : c.name ∉ rest.map name := by
      intro hmem
      obtain ⟨c', hc', hname⟩ := List.mem_map.mp hmem
      exact hunseen c' hc' (hname ▸ List.mem_cons_self)
    constructor
    · intro c' hc'
      rcases List.mem_cons.mp hc' with rfl | hc'
      · exact hseen
      · exact fun hmem => hunseen c' hc' (List.mem_cons_of_mem c.name hmem)
    · rw [entriesBelow]
      exact hlists.append hnew hrest

/-- The plan of a queue is in order below its parent. -/
theorem planQueue_lists (c : QueueConfig F) (parent : String) (seen : List String)
    (planned : List (Planned F)) (h : planQueue parent seen c = .ok planned) :
    c.name ∉ seen ∧ Lists parent [c.name] (entries parent c) planned := by
  induction c using QueueConfig.induction generalizing parent seen planned with
  | node options children ih =>
    obtain ⟨hpart, hseen, policy, below, hpolicy, hbelow, rfl⟩ := planQueue_eq_ok_iff.mp h
    obtain ⟨hwants, happlies⟩ := policyAt_eq_ok_iff.mp hpolicy
    obtain ⟨-, hlists⟩ := planAll_lists ih (child parent options.name) [] below hbelow
    refine ⟨hseen, hlists.cons hpart hwants happlies ?_⟩
    rw [← List.map_eq_nil_iff (f := fun p : Planned F => (p.name, p.config)), hlists.entries]
    cases children with
    | nil => simp [entriesBelow]
    | cons c rest =>
      cases c
      simp [entriesBelow, entries]

/-- The plan of a configuration is that of what is below its root, if that has its name and a policy. -/
theorem plan_eq_ok_iff {c : QueueConfig F} {planned : List (Planned F)} :
    c.plan = .ok planned ↔
      c.name = QueueName.root ∧ (∃ policy, c.policyAt QueueName.root Depth.top = .ok policy) ∧
        planAll QueueName.root [] c.children = .ok planned := by
  simp only [plan, bind, Except.bind, throw, throwThe, MonadExceptOf.throw]
  by_cases hname : c.name = QueueName.root
  · cases hat : c.policyAt QueueName.root Depth.top <;> simp [hname]
  · simp [hname]

/-- A configuration with a plan is that of a root whose policy applies at the top, and its plan lists
what is configured in order below the root. -/
theorem plan_eq_ok {c : QueueConfig F} {planned : List (Planned F)} (h : c.plan = .ok planned) :
    (∃ policy, c.policy = .ok policy ∧ policy.appliesTo Depth.top = true) ∧
      InOrder QueueName.root planned ∧
      planned.map (fun p => (p.name, p.config)) = c.configured := by
  obtain ⟨-, ⟨policy, hpolicy⟩, hall⟩ := plan_eq_ok_iff.mp h
  obtain ⟨-, hlists⟩ := planAll_lists (fun c _ => planQueue_lists c) QueueName.root [] planned hall
  exact ⟨⟨policy, policyAt_eq_ok_iff.mp hpolicy⟩, hlists.inOrder, hlists.entries⟩

end QueueConfig

end Allotment
