import Allotment.Proofs.Queue.Reload

/-!
# Configurations that cannot be placed

A plan can be placed in a tree unless it puts a queue under a leaf that holds applications. Queues
that hold applications keep their kind in the shape, however much of the plan has been decided; a
configured parent has become one, unless it is such a leaf, by the time its children are decided on.
-/

namespace Allotment

open QueueName Shape

variable {F : Type}

namespace Queue

/-- A queue is vacant only if all queues in it are. -/
theorem isVacant_of_mem {r s : Queue F} (hr : r ∈ s.all) (h : s.isVacant = true) :
    r.isVacant = true := by
  simp only [isVacant, List.isEmpty_iff, attempts, List.flatMap_eq_nil_iff] at h ⊢
  exact fun x hx => h x (mem_all_trans hr hx)

end Queue

namespace QueueTree

/-- Whether the queue of a name is a leaf that holds applications. -/
def Blocks (t : QueueTree F) (name : String) : Prop :=
  ∃ info runnable parked, t.find? name = some (.leaf info runnable parked) ∧ runnable ++ parked ≠ []

variable {t : QueueTree F} {s : Shape} {p : Planned F}

/-- A queue with applications that is no parent is a leaf that holds them. -/
theorem blocks_of_find? {n : String} {q : Queue F} (hfind : t.find? n = some q)
    (hkind : q.kind ≠ .parent) (hheld : q.isVacant = false) : t.Blocks n := by
  cases q with
  | leaf info runnable parked =>
    refine ⟨info, runnable, parked, hfind, ?_⟩
    intro hnone
    simp [Queue.isVacant, hnone] at hheld
  | parent info children => exact absurd rfl hkind

/-- A plan that puts nothing under a leaf with applications can be decided on. The queues before some
point are done: those with configured children have become parents. The others have in the shape the
kind that they have in the tree, or none. -/
theorem resolve_ok {done rest : List (Planned F)}
    (horder : InOrder QueueName.root (done ++ rest))
    (hfree : ∀ p ∈ done ++ rest, p.config.children ≠ [] → ¬ t.Blocks p.name)
    (hrest : ∀ p ∈ rest, ∀ k, s.get? p.name = some k → t.kindOf? p.name = some k)
    (hroot : s.get? QueueName.root = some .parent)
    (hdone : ∀ p ∈ done, p.config.children ≠ [] → s.get? p.name = some .parent) :
    ∃ steps, t.resolve s rest = .ok steps := by
  induction rest generalizing done s with
  | nil => exact ⟨[], rfl⟩
  | cons p rest ih =>
    have hp : p ∈ done ++ p :: rest := by simp
    have happart := horder.apart
    rw [List.pairwise_append, List.pairwise_cons] at happart
    obtain ⟨-, ⟨hlater, -⟩, hearlier⟩ := happart
    have hparent : s.get? p.parent = some .parent := by
      rcases horder.rooted done p rest rfl with htop | ⟨q, hq, hname, hchildren⟩
      · rw [htop]
        exact hroot
      · rw [← hname]
        exact hdone q hq hchildren
    -- A queue that is kept stays in the shape as it is in the tree, so it is no parent there.
    have hbecome : p.config.children ≠ [] →
        (s.after p (t.stepFor s p)).get? p.name = some .parent := by
      intro hchildren
      have hkind := QueueConfig.kind_of_children hchildren
      cases hcase : t.stepFor s p with
      | update =>
        rw [← hkind]
        exact get?_of_stepFor_update hcase
      | keep =>
        obtain ⟨k, q, hk, hq, hne, hheld⟩ := of_stepFor_keep hcase
        have hsame : t.kindOf? p.name = some q.kind := by rw [kindOf?, hq, Option.map_some]
        rw [hrest p List.mem_cons_self k hk] at hsame
        rw [hkind, Option.some.inj hsame] at hne
        exact absurd (blocks_of_find? hq hne hheld) (hfree p hp hchildren)
      | replace | create =>
        change (s.put p.name p.config.kind).get? p.name = _
        rw [get?_put, if_pos rfl, hkind]
    have hrest' : ∀ q ∈ rest, ∀ k, (s.after p (t.stepFor s p)).get? q.name = some k →
        t.kindOf? q.name = some k := by
      intro q hq k hk
      have hne : q.name ≠ p.name := by
        intro heq
        have hout := hlater q hq
        rw [heq, isWithin_self] at hout
        contradiction
      exact hrest q (List.mem_cons_of_mem p hq) k (get?_of_get?_after hne hk)
    have hroot' : (s.after p (t.stepFor s p)).get? QueueName.root = some .parent := by
      rw [get?_after_of_not_isWithin _ ((horder.fits p hp).not_isWithin_top (horder.below p hp))]
      exact hroot
    have hdone' : ∀ q ∈ done ++ [p], q.config.children ≠ [] →
        (s.after p (t.stepFor s p)).get? q.name = some .parent := by
      intro q hq hchildren
      rcases List.mem_append.mp hq with hq | hq
      · rw [get?_after_of_not_isWithin _ (hearlier q hq p List.mem_cons_self)]
        exact hdone q hq hchildren
      · obtain rfl := List.mem_singleton.mp hq
        exact hbecome hchildren
    obtain ⟨later, hsteps⟩ := ih (by simpa using horder) (by simpa using hfree)
      hrest' hroot' hdone'
    exact ⟨_, resolve_cons (.inr (.inr hparent)) hsteps⟩

/-- Whether a shape shows all queues of a tree that hold applications. -/
def ShowsHeld (s : Shape) (t : QueueTree F) : Prop :=
  ∀ n q, t.find? n = some q → q.isVacant = false → s.get? n = some q.kind

/-- A step drops no queue that holds applications from the shape. -/
theorem WellNamed.showsHeld_after (h : t.WellNamed) (hs : ShowsHeld s t) (hp : p.Fits)
    (hbelow : Shape.isWithin p.parent QueueName.root = true) :
    ShowsHeld (s.after p (t.stepFor s p)) t := by
  intro n q hn hheld
  have hshown := hs n q hn hheld
  by_cases hwithin : Shape.isWithin n p.name = true
  · -- The planned queue holds what the other one holds, so it is neither created nor replaced.
    have hkind : t.kindOf? n = some q.kind := by rw [kindOf?, hn, Option.map_some]
    obtain ⟨k, hk⟩ := h.exists_of_isWithin hkind hwithin (isWithin_trans hp.isWithin hbelow)
    obtain ⟨r, hr, -⟩ := Option.map_eq_some_iff.mp hk
    obtain ⟨hqmem, hqname⟩ := h.root.find?_eq_some_iff.mp hn
    obtain ⟨hrmem, hrname⟩ := h.root.find?_eq_some_iff.mp hr
    have hin : q ∈ r.all := h.root.mem_all_of_isWithin hqmem hrmem (by rw [hqname, hrname, hwithin])
    have hrheld : r.isVacant = false := by
      rw [Bool.eq_false_iff]
      intro hvacant
      rw [Queue.isVacant_of_mem hin hvacant] at hheld
      contradiction
    rcases stepFor_of_held (hs p.name r hr hrheld) hr hrheld with hstep | hstep
    · rw [hstep]
      exact hshown
    · rw [hstep]
      exact hshown
  · rw [get?_after_of_not_isWithin n (by simpa using hwithin)]
    exact hshown

/-- There is nothing below a leaf. -/
theorem WellNamed.find?_child_of_leaf (h : t.WellNamed) {n : String} {info : QueueInfo F}
    {runnable parked : List (Attempt F)} (hfind : t.find? n = some (.leaf info runnable parked))
    (c : String) : t.find? (child n c) = none := by
  cases hcase : t.find? (child n c) with
  | none => rfl
  | some q =>
    have hleaf : t.kindOf? n = some .leaf := by rw [kindOf?, hfind]; rfl
    have hchild : t.kindOf? (child n c) = some q.kind := by rw [kindOf?, hcase]; rfl
    have hsame := h.eq_of_isWithin_leaf hleaf hchild (isWithin_child n c)
    have hnot := not_isWithin_child n c
    rw [hsame, isWithin_self] at hnot
    contradiction

/-- A plan that puts a queue under a leaf with applications cannot be decided on. -/
theorem WellNamed.resolve_ne_ok (h : t.WellNamed) {planned : List (Planned F)}
    (hfits : ∀ p ∈ planned, p.Fits)
    (hbelow : ∀ p ∈ planned, Shape.isWithin p.parent QueueName.root = true)
    (hs : ShowsHeld s t) (hp : p ∈ planned) (hblocks : t.Blocks p.parent)
    (steps : List ReloadStep) : t.resolve s planned ≠ .ok steps := by
  intro hsteps
  induction planned generalizing s steps with
  | nil => simp at hp
  | cons q rest ih =>
    obtain ⟨later, -, hlater, hstep⟩ := resolve_cons_eq_ok hsteps
    rcases List.mem_cons.mp hp with rfl | hp
    · obtain ⟨info, runnable, parked, hfind, hheld⟩ := hblocks
      have hshown : s.get? p.parent = some .leaf :=
        hs p.parent _ hfind (by simpa [Queue.isVacant] using hheld)
      have hnone : t.find? p.name = none := by
        rw [(hfits p List.mem_cons_self).name]
        exact h.find?_child_of_leaf hfind p.config.name
      rcases stepFor_of_find?_eq_none (s := s) hnone with hcase | hcase
      · simp [hcase, hshown] at hstep
      · simp [hcase, hshown] at hstep
    · exact ih (fun r hr => hfits r (List.mem_cons_of_mem q hr))
        (fun r hr => hbelow r (List.mem_cons_of_mem q hr))
        (h.showsHeld_after hs (hfits q List.mem_cons_self) (hbelow q List.mem_cons_self)) hp later
        hlater

/-- Steps can be decided on unless some queue with configured children is at present a leaf that holds
applications. -/
theorem WellNamed.resolve_fails_iff (h : t.WellNamed) {planned : List (Planned F)}
    (horder : InOrder QueueName.root planned) :
    (∃ e, t.resolve (Shape.ofTree t) planned = .error e) ↔
      ∃ p ∈ planned, p.config.children ≠ [] ∧ t.Blocks p.name := by
  have hagrees := agrees_ofTree h
  constructor
  · rintro ⟨e, herror⟩
    by_contra hfree
    push Not at hfree
    have hunplaced : ∀ p ∈ ([] : List (Planned F)), p.config.children ≠ [] →
        (Shape.ofTree t).get? p.name = some .parent := by simp
    have hundone : InOrder QueueName.root ([] ++ planned) := horder
    obtain ⟨steps, hsteps⟩ := resolve_ok hundone hfree
      (fun p _ k hk => (hagrees p.name).symm.trans hk)
      ((hagrees QueueName.root).trans h.kindOf?_root) hunplaced
    rw [herror] at hsteps
    contradiction
  · rintro ⟨p, hp, hchildren, hblocks⟩
    obtain ⟨q, hq, hparent⟩ := horder.filled p hp hchildren
    have hshows : ShowsHeld (Shape.ofTree t) t := by
      intro n r hr _
      rw [hagrees, kindOf?, hr, Option.map_some]
    have hne := h.resolve_ne_ok horder.fits horder.below hshows hq (by rw [hparent]; exact hblocks)
    cases hcase : t.resolve (Shape.ofTree t) planned with
    | error e => exact ⟨e, rfl⟩
    | ok steps => exact absurd hcase (hne steps)

end QueueTree

end Allotment
