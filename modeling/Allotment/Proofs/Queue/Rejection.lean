import Allotment.Proofs.Queue.Admissible
import Allotment.Proofs.Queue.Placement
import Allotment.Proofs.Queue.Reachable
import Allotment.Scalar.Double

/-!
# All or nothing

A reload is refused for want of a plan, or because a queue that is to have children is at present a
leaf with applications. Either way it is refused before anything has changed, and once the steps are
decided on nothing can go wrong.
-/

namespace Allotment.QueueTree

variable {F : Type} {t : QueueTree F}

/-- A reload without a plan, or with a plan that cannot be placed, fails; every other succeeds. -/
theorem WellNamed.reload_fails_iff (h : t.WellNamed) (c : QueueConfig F) :
    (∃ e, (t.reload c).2 = .error e) ↔ (∃ e, c.plan = .error e) ∨
      ∃ entry ∈ c.configured, entry.2.children ≠ [] ∧ t.Blocks entry.1 := by
  cases hplan : c.plan with
  | error e =>
    obtain ⟨policy, planned, steps, hd, -⟩ | ⟨e', hreload, -⟩ := h.reload_cases c
    · rw [hd.plan] at hplan
      contradiction
    · rw [hreload]
      exact ⟨fun _ => .inl ⟨e, rfl⟩, fun _ => ⟨e', rfl⟩⟩
  | ok planned =>
    obtain ⟨-, horder, hentries⟩ := QueueConfig.plan_eq_ok hplan
    have hblocked : (∃ entry ∈ c.configured, entry.2.children ≠ [] ∧ t.Blocks entry.1) ↔
        ∃ e, t.resolve (Shape.ofTree t) planned = .error e := by
      rw [h.resolve_fails_iff horder, ← hentries]
      simp
    have hno : ¬ ∃ e, (Except.ok planned : Except Error (List (Planned F))) = .error e := by simp
    rw [hblocked, or_iff_right hno]
    obtain ⟨policy, planned', steps, hd, hreload, -⟩ | ⟨e, hreload, hcause⟩ := h.reload_cases c
    · obtain rfl : planned = planned' := Except.ok.inj (hplan.symm.trans hd.plan)
      rw [hreload, hd.resolve]
      simp
    · rw [hreload]
      refine ⟨fun _ => ?_, fun _ => ⟨e, rfl⟩⟩
      rcases hcause with hfailed | ⟨planned', hok, hunplaced⟩
      · rw [hplan] at hfailed
        contradiction
      · obtain rfl : planned = planned' := Except.ok.inj (hplan.symm.trans hok)
        exact ⟨e, hunplaced⟩

/-- A reload that fails leaves the tree as it is. -/
theorem WellNamed.reload_eq_of_error (h : t.WellNamed) {c : QueueConfig F} {e : Error}
    (hfails : (t.reload c).2 = .error e) : (t.reload c).1 = t := by
  obtain ⟨policy, planned, steps, -, hreload, -⟩ | ⟨e', hreload, -⟩ := h.reload_cases c
  · rw [hreload] at hfails
    contradiction
  · rw [hreload]

/-- Steps that are decided on are carried out. -/
theorem WellNamed.reload_ok_of_resolve (h : t.WellNamed) {c : QueueConfig F}
    {planned : List (Planned F)} {steps : List ReloadStep} (hplan : c.plan = .ok planned)
    (hsteps : t.resolve (Shape.ofTree t) planned = .ok steps) : (t.reload c).2 = .ok () := by
  obtain ⟨policy, planned', steps', -, hreload, -⟩ | ⟨e, -, hfailed | hunplaced⟩ := h.reload_cases c
  · rw [hreload]
  · rw [hplan] at hfailed
    contradiction
  · obtain ⟨planned', hok, herror⟩ := hunplaced
    obtain rfl : planned = planned' := Except.ok.inj (hplan.symm.trans hok)
    rw [hsteps] at herror
    contradiction

variable [Scalar F]

/-- A reload of a tree that has come about fails exactly if the configuration has no plan, which is
if it is not that of a tree, or some queue with configured children is at present a leaf that holds
applications. The tree is then as it was. Steps that are decided on are all carried out. -/
theorem Reachable.reload_all_or_nothing (h : t.Reachable) (c : QueueConfig F) :
    ((∃ e, (t.reload c).2 = .error e) ↔ (∃ e, c.plan = .error e) ∨
      ∃ entry ∈ c.configured, entry.2.children ≠ [] ∧ t.Blocks entry.1) ∧
    ((∃ e, c.plan = .error e) ↔ ¬ c.Admissible) ∧
    (∀ e, (t.reload c).2 = .error e → (t.reload c).1 = t) ∧
    ∀ planned steps, c.plan = .ok planned →
      t.resolve (Shape.ofTree t) planned = .ok steps → (t.reload c).2 = .ok () := by
  refine ⟨h.wellNamed.reload_fails_iff c, c.plan_fails_iff, fun e => h.wellNamed.reload_eq_of_error, ?_⟩
  intro planned steps hplan hsteps
  exact h.wellNamed.reload_ok_of_resolve hplan hsteps

/-- A tree with one leaf. -/
def oneLeaf : QueueTree Float :=
  ⟨.parent ⟨"root", 0, .fair, .ofOptions (.named "root") true, 0, 0, 0⟩
    [.leaf ⟨"root.a", 1, .fair, .ofOptions (.named "a") false, 0, 0, 0⟩ [] []], 2⟩

/-- The tree with an application in its leaf. -/
def busyLeaf : QueueTree Float :=
  oneLeaf.apply (.addAttempt "root.a" (Attempt.new "app" "user" "root.a" 0 2))

/-- A configuration that puts a queue under the leaf is rejected while the leaf is busy. -/
theorem reload_all_or_nothing_of_busyLeaf :
    busyLeaf.Reachable ∧
      (∃ e, (busyLeaf.reload (.parent "root" [.parent "a" [.leaf "b"]])).2 = .error e) ∧
      (busyLeaf.reload (.parent "root" [.parent "a" [.leaf "b"]])).1 = busyLeaf := by
  have hstart : oneLeaf.Reachable := .start (.parent "root" [.leaf "a"]) oneLeaf rfl
  have hbusy : busyLeaf.Reachable := .step oneLeaf _ hstart
  obtain ⟨hfails, -, hsame, -⟩ :=
    hbusy.reload_all_or_nothing (.parent "root" [.parent "a" [.leaf "b"]])
  obtain ⟨e, he⟩ := hfails.mpr (.inr ⟨("root.a", .parent "a" [.leaf "b"]), by
    exact List.mem_cons_self, by simp [QueueConfig.parent, QueueConfig.children],
    _, _, _, rfl, by simp⟩)
  exact ⟨hbusy, ⟨e, he⟩, hsame e he⟩

end Allotment.QueueTree
