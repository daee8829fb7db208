import Allotment.Attempt
import Mathlib.Data.List.Nodup

/-!
# What applications hold

Among containers that all bear different numbers, giving one back takes away exactly that one, and
giving back all on a node leaves exactly those on other nodes.
-/

namespace Allotment.Attempt

variable {F : Type}

/-- Among containers of different numbers, the first of a number is the only one. -/
theorem eraseP_eq_filter {cs : List Container} (h : (cs.map Container.id).Nodup) (i : ℕ) :
    cs.eraseP (fun c => c.id = i) = cs.filter fun c => c.id ≠ i := by
  induction cs with
  | nil => rfl
  | cons c rest ih =>
    rw [List.map_cons, List.nodup_cons] at h
    obtain ⟨hnot, hrest⟩ := h
    by_cases hid : c.id = i
    · have hall : rest.filter (fun d => decide (d.id ≠ i)) = rest := by
        rw [List.filter_eq_self]
        intro d hd
        have hne : d.id ≠ i := by
          intro heq
          exact hnot (List.mem_map.mpr ⟨d, hd, heq.trans hid.symm⟩)
        simpa using hne
      rw [List.eraseP_cons_of_pos (by simpa using hid), List.filter_cons_of_neg (by simpa using hid),
        hall]
    · rw [List.eraseP_cons_of_neg (by simpa using hid), List.filter_cons_of_pos (by simpa using hid),
        ih hrest]

variable {a : Attempt F}

/-- A container that is given back was held and has the number asked for, and the application stays the
same. -/
theorem of_release {b : Attempt F} {i : ℕ} {c : Container} (h : a.release i = (b, some c)) :
    c ∈ a.live ∧ c.id = i ∧ b.id = a.id ∧ b.queue = a.queue ∧ b.serial = a.serial := by
  unfold release at h
  split at h
  · simp at h
  · rename_i found hfound
    obtain ⟨rfl, hc⟩ := Prod.mk.inj h
    rw [← Option.some.inj hc]
    exact ⟨List.mem_of_find?_eq_some hfound, by simpa using List.find?_some hfound, rfl, rfl, rfl⟩

/-- Giving a container back leaves those of other numbers. -/
theorem live_release (h : (a.live.map Container.id).Nodup) (i : ℕ) :
    (a.release i).1.live = a.live.filter fun c => c.id ≠ i := by
  rw [← eraseP_eq_filter h, release]
  split
  · rename_i hnone
    rw [List.find?_eq_none] at hnone
    exact (List.eraseP_of_forall_not hnone).symm
  · rfl

/-- Giving containers back one after another leaves those of other numbers. -/
theorem live_releases (h : (a.live.map Container.id).Nodup) (cs : List Container) :
    (cs.foldl (fun a c => (a.release c.id).1) a).live =
      a.live.filter fun c => c.id ∉ cs.map Container.id := by
  induction cs generalizing a with
  | nil => simp
  | cons c rest ih =>
    have hkept : ((a.release c.id).1.live.map Container.id).Nodup := by
      rw [live_release h]
      exact h.sublist (List.filter_sublist.map _)
    rw [List.foldl_cons, ih hkept, live_release h, List.filter_filter]
    apply List.filter_congr
    intro d _
    rw [Bool.eq_iff_iff]
    simp [List.mem_cons, and_comm]

/-- An application that gives back the containers on a node stays the same. -/
theorem same_releaseNode (a : Attempt F) (node : String) :
    (a.releaseNode node).id = a.id ∧ (a.releaseNode node).queue = a.queue ∧
      (a.releaseNode node).serial = a.serial := by
  have hone : ∀ (a : Attempt F) (i : ℕ), (a.release i).1.id = a.id ∧
      (a.release i).1.queue = a.queue ∧ (a.release i).1.serial = a.serial := by
    intro a i
    unfold release
    split <;> exact ⟨rfl, rfl, rfl⟩
  unfold releaseNode
  generalize (a.live.filter fun c => c.node = node) = cs
  induction cs generalizing a with
  | nil => exact ⟨rfl, rfl, rfl⟩
  | cons c rest ih =>
    obtain ⟨hid, hqueue, hserial⟩ := hone a c.id
    obtain ⟨hid', hqueue', hserial'⟩ := ih (a.release c.id).1
    exact ⟨hid'.trans hid, hqueue'.trans hqueue, hserial'.trans hserial⟩

/-- Giving back the containers on a node leaves those on others. -/
theorem live_releaseNode (h : (a.live.map Container.id).Nodup) (node : String) :
    (a.releaseNode node).live = a.live.filter fun c => c.node ≠ node := by
  rw [releaseNode, live_releases h]
  apply List.filter_congr
  intro c hc
  have hiff : c.id ∈ (a.live.filter fun d => d.node = node).map Container.id ↔ c.node = node := by
    constructor
    · intro hid
      obtain ⟨d, hd, hsame⟩ := List.mem_map.mp hid
      obtain ⟨hlive, hnode⟩ := List.mem_filter.mp hd
      rw [← List.inj_on_of_nodup_map h hlive hc hsame]
      simpa using hnode
    · intro hnode
      exact List.mem_map.mpr ⟨c, List.mem_filter.mpr ⟨hc, by simpa using hnode⟩, rfl⟩
  simp only [hiff]

end Allotment.Attempt
