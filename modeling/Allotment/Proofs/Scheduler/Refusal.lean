import Allotment.Proofs.Queue.Branch
import Allotment.Proofs.Scheduler.Membership

/-!
# Submissions that are refused

A submission locates its leaf, which is created on demand, and only then asks whether the user may submit
to it. So a submission that is refused leaves everything as it was if the name is invalid, if something is
in the way, or if the leaf was there already. If the leaf was not there, the queues that were created on
the way to it stay: they are empty, and whatever else there was is as it was.
-/

namespace Allotment.Scheduler

variable {F : Type} [Scalar F] {s : Scheduler F}

/-- A submission that is refused changes nothing, or the leaf was missing and the user may not submit to
it. In that case the index, the nodes and all else besides the tree are what they were, and the tree has got
the missing part of the path to the leaf more: empty queues as they are created on demand, behind the
children of the last queue on the path that was there. -/
theorem Reachable.submit_refused (h : s.Reachable) {id queue user : String} {priority : ℕ} {e : Error}
    (hrefused : (s.submit id queue user priority).2 = .error e) :
    ((s.submit id queue user priority).1 = s ∧
      ∀ user' leaf, e = .accessDenied user' leaf → s.tree.kindOf? leaf = some .leaf) ∨
    ∃ leaf above c rest, e = .accessDenied user leaf ∧
      s.tree.Sprouts (s.submit id queue user priority).1.tree .leaf leaf above c rest ∧
      (s.submit id queue user priority).1 =
        { s with tree := (s.submit id queue user priority).1.tree } := by
  have hlocates := h.tree.wellNamed.locates queue .leaf
  unfold submit at hrefused ⊢
  generalize s.tree.locate queue true .leaf = located at hlocates hrefused ⊢
  cases hlocates with
  | blocked e' he =>
    obtain rfl : e' = e := Except.error.inj hrefused
    exact .inl ⟨rfl, fun user' leaf hdenied => absurd hdenied (he user' leaf)⟩
  | there leaf hleaf =>
    dsimp only at hrefused ⊢
    split at hrefused
    · contradiction
    · rename_i hdenied
      rw [if_neg hdenied]
      obtain rfl := Except.error.inj hrefused
      refine .inl ⟨rfl, fun user' leaf' hsame => ?_⟩
      obtain ⟨-, rfl⟩ := Error.accessDenied.inj hsame
      exact hleaf
  | created tree leaf above c rest hsprouts =>
    dsimp only at hrefused ⊢
    split at hrefused
    · contradiction
    · rename_i hdenied
      rw [if_neg hdenied]
      obtain rfl := Except.error.inj hrefused
      exact .inr ⟨leaf, above, c, rest, rfl, hsprouts, rfl⟩

/-- A scheduler with one leaf to which only one user may submit. -/
def guarded : Scheduler Float :=
  oneLeaf.withRoot (oneLeaf.tree.root.withInfo fun info =>
    { info with settings := { info.settings with submitAcl := AccessList.ofText "alice" } })

/-- The guarded scheduler is that of a configuration. -/
theorem ofConfig_guarded : ofConfig
    { queues := .node
        { QueueOptions.named "root" with forceParent := true, submitAcl := some "alice" } [.leaf "a"]
      assignMultiple := false
      maxAssign := none
      updateIntervalMs := 500 } = .ok guarded := rfl

/-- Another user is refused, at a leaf that was not there. -/
theorem refused_guarded :
    (guarded.submit "app" "x.y" "bob" 0).2 = .error (.accessDenied "bob" "root.x.y") := by
  have hshown : (match (guarded.submit "app" "x.y" "bob" 0).2 with
      | .ok _ => none
      | .error e => some e) = some (.accessDenied "bob" "root.x.y") := by
    decide +kernel
  split at hshown
  · simp at hshown
  · rename_i e hrefused
    rw [hrefused, Option.some.inj hshown]

/-- The queues of the path are there after the user was refused. -/
theorem submit_refused_of_guarded :
    guarded.Reachable ∧
      (guarded.submit "app" "x.y" "bob" 0).2 = .error (.accessDenied "bob" "root.x.y") ∧
      ∃ above c rest,
        guarded.tree.Sprouts (guarded.submit "app" "x.y" "bob" 0).1.tree .leaf "root.x.y" above c rest ∧
        (guarded.submit "app" "x.y" "bob" 0).1.apps = guarded.apps := by
  have hreached : guarded.Reachable := .start _ guarded ofConfig_guarded
  have hmissing : guarded.tree.kindOf? "root.x.y" = none := by decide +kernel
  obtain ⟨-, hthere⟩ | ⟨leaf, above, c, rest, hdenied, hsprouts, hrest⟩ :=
    hreached.submit_refused refused_guarded
  · have hleaf := hthere _ _ rfl
    rw [hmissing] at hleaf
    simp at hleaf
  · obtain ⟨-, rfl⟩ := Error.accessDenied.inj hdenied
    refine ⟨hreached, refused_guarded, above, c, rest, hsprouts, ?_⟩
    rw [hrest]

/-- A submission that is refused leaves queues behind that were not there before. -/
theorem trace_left_of_guarded :
    guarded.Reachable ∧
      (guarded.submit "app" "x.y" "bob" 0).2 = .error (.accessDenied "bob" "root.x.y") ∧
      guarded.tree.root.all.map Queue.name = ["root", "root.a"] ∧
      (guarded.submit "app" "x.y" "bob" 0).1.tree.root.all.map Queue.name =
        ["root", "root.a", "root.x", "root.x.y"] := by
  refine ⟨.start _ guarded ofConfig_guarded, refused_guarded, ?_, ?_⟩ <;> decide +kernel

end Allotment.Scheduler
