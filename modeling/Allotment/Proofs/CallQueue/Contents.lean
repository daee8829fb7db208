import Allotment.CallQueue.Registry
import Mathlib.Algebra.BigOperators.Group.List.Basic
import Mathlib.Algebra.Order.Group.Multiset
import Mathlib.Tactic.Abel

/-!
# What a call queue holds

The elements of a call queue, whatever its kind, as a multiset. An accepted offer adds one element,
a refused offer and a poll that finds nothing change no element, and any other poll takes away the
element that it hands out. A queue looks empty exactly when it holds nothing.

A fair queue remembers a level with the elements it keeps. `CallQueue.kept` is the element in the form
in which the queue holds it.
-/

namespace Allotment

section Places

variable {α : Type} {xs : List α} {x y : α} {place i : ℕ}

/-- What stands where after the value at a place has changed: the new value at that place, or another
one where it stood. -/
theorem getElem?_set_cases (h : (xs.set place x)[i]? = some y) :
    (i = place ∧ y = x) ∨ (i ≠ place ∧ xs[i]? = some y) := by
  rw [List.getElem?_set] at h
  split at h
  · rename_i heq
    split at h <;> simp_all
  · rename_i hne
    exact .inr ⟨Ne.symm hne, h⟩

/-- What stands where after a value has come to the end: that one, or another one where it stood. -/
theorem getElem?_append_singleton_cases (h : (xs ++ [x])[i]? = some y) :
    xs[i]? = some y ∨ i = xs.length ∧ y = x := by
  rcases Nat.lt_or_ge i xs.length with hlt | hge
  · rw [List.getElem?_append_left hlt] at h
    exact .inl h
  · rw [List.getElem?_append_right hge, List.getElem?_singleton] at h
    split at h
    · exact .inr ⟨by omega, (Option.some.inj h).symm⟩
    · contradiction

end Places

section Sum

variable {α M : Type} [AddCommMonoid M]

/-- Putting another value in a place of a list trades the two values in a sum over the list. -/
theorem sum_map_set (f : α → M) (xs : List α) (i : ℕ) (x y : α) (hx : xs[i]? = some x) :
    ((xs.set i y).map f).sum + f x = (xs.map f).sum + f y := by
  induction xs generalizing i with
  | nil => simp at hx
  | cons a rest ih =>
    cases i with
    | zero =>
      obtain rfl : a = x := by simpa using hx
      simp only [List.set_cons_zero, List.map_cons, List.sum_cons]
      ac_rfl
    | succ i =>
      have hrest := ih i (by simpa using hx)
      simp only [List.set_cons_succ, List.map_cons, List.sum_cons]
      rw [add_assoc, hrest, add_assoc]

/-- A sum over a list vanishes once every summand does. -/
theorem sum_map_eq_zero (f : α → M) (xs : List α) (h : ∀ x ∈ xs, f x = 0) : (xs.map f).sum = 0 := by
  induction xs with
  | nil => rfl
  | cons a rest ih =>
    rw [List.map_cons, List.sum_cons, h a List.mem_cons_self, zero_add]
    exact ih fun x hx => h x (List.mem_cons_of_mem _ hx)

end Sum

namespace FairQueue

variable {σ E : Type}

/-- The elements on all levels of a fair queue. -/
def contents (q : FairQueue σ E) : Multiset E := (q.levels.map fun l => (l.items : Multiset E)).sum

/-- The number of elements is the sum of the sizes of the levels. -/
theorem card_contents (q : FairQueue σ E) : q.contents.card = q.size := by
  unfold contents size
  induction q.levels with
  | nil => rfl
  | cons l rest ih => simp [Fifo.size, ih]

/-- Changing a level trades its elements in what the queue holds. -/
theorem contents_setLevel (q : FairQueue σ E) (level : ℕ) (l l' : Fifo E)
    (hlevel : q.levels[level]? = some l) :
    ({ q with levels := q.levels.set level l' } : FairQueue σ E).contents + l.items =
      q.contents + l'.items :=
  sum_map_set (fun l => (l.items : Multiset E)) q.levels level l l' hlevel

/-- A placed element is added to what the levels held. -/
theorem contents_of_placeAt? {q q' : FairQueue σ E} {level : ℕ} {e : E}
    (h : q.placeAt? level e = some q') : q'.contents = q.contents + {e} := by
  unfold placeAt? at h
  split at h
  · contradiction
  · rename_i l hlevel
    obtain ⟨l', hpush, rfl⟩ := Option.map_eq_some_iff.mp h
    have hset := q.contents_setLevel level l l' hlevel
    rw [Fifo.items_of_push? hpush, ← Multiset.coe_add, Multiset.coe_singleton] at hset
    apply add_right_cancel (b := (l.items : Multiset E))
    rw [hset]
    abel

/-- An element taken from a level is what the levels no longer hold. -/
theorem contents_of_takeAt? {q q' : FairQueue σ E} {level : ℕ} {e : E}
    (h : q.takeAt? level = some (e, q')) : q.contents = q'.contents + {e} := by
  unfold takeAt? at h
  split at h
  · contradiction
  · rename_i l hlevel
    obtain ⟨⟨first, l'⟩, hpop, hq⟩ := Option.map_eq_some_iff.mp h
    simp only [Prod.mk.injEq] at hq
    obtain ⟨rfl, rfl⟩ := hq
    have hset := q.contents_setLevel level l l' hlevel
    have hitems : l.items = first :: l'.items := Fifo.items_of_pop? hpop
    rw [hitems, ← Multiset.cons_coe, ← Multiset.singleton_add] at hset
    apply add_right_cancel (b := (l'.items : Multiset E))
    rw [← hset]
    abel

/-- A search hands out an element that the levels held and no longer hold. -/
theorem contents_of_scan? {q q' : FairQueue σ E} {start : ℕ} {e : E}
    (h : q.scan? start = some (e, q')) : q.contents = q'.contents + {e} := by
  obtain ⟨offset, -, hfound⟩ := List.exists_of_findSome?_eq_some h
  exact contents_of_takeAt? hfound

/-- Spending tokens on searches takes away the element found, and nothing if none is found. -/
theorem contents_pollTokens (n : ℕ) (q : FairQueue σ E) :
    q.contents = (q.pollTokens n).1.contents + ((q.pollTokens n).2.elim 0 fun e => {e}) := by
  induction n generalizing q with
  | zero => simp [pollTokens]
  | succ n ih =>
    unfold pollTokens
    cases hspend : q.spendToken? with
    | none => simp
    | some spent =>
      have hspent : spent.nextStart.2.contents = q.contents := by
        unfold spendToken? at hspend
        split at hspend
        · contradiction
        · cases hspend
          rfl
      cases hscan : spent.nextStart.2.scan? spent.nextStart.1 with
      | none =>
        simp only [hscan]
        rw [← hspent]
        exact ih spent.nextStart.2
      | some found =>
        simp only [hscan, Option.elim_some]
        rw [← hspent]
        exact contents_of_scan? hscan

section Offer

variable [Ranking σ] [Ranked E]

/-- Choosing a level touches no level. -/
theorem levels_levelFor (q : FairQueue σ E) (now : ℕ) (e : E) :
    (q.levelFor now e).2.2.levels = q.levels := by
  unfold levelFor
  split <;> rfl

/-- An accepted element is added in the form that remembers its level. -/
theorem contents_offer_ok {q : FairQueue σ E} {now : ℕ} {e : E}
    (h : (q.offer now e).2 = .ok ()) :
    (q.offer now e).1.contents = q.contents + {(q.levelFor now e).2.1} := by
  have hlevels : (q.levelFor now e).2.2.contents = q.contents := by
    unfold contents
    rw [levels_levelFor]
  unfold offer at h ⊢
  cases hplace : (q.levelFor now e).2.2.placeAt? (q.levelFor now e).1 (q.levelFor now e).2.1 with
  | none => simp [hplace] at h
  | some placed =>
    simp only [hplace]
    rw [← hlevels]
    change placed.contents = _
    exact contents_of_placeAt? hplace

/-- A refused element leaves the levels as they were. -/
theorem contents_offer_error {q : FairQueue σ E} {now : ℕ} {e e' : E}
    (h : (q.offer now e).2 = .error e') : (q.offer now e).1.contents = q.contents := by
  unfold offer at h ⊢
  cases hplace : (q.levelFor now e).2.2.placeAt? (q.levelFor now e).1 (q.levelFor now e).2.1 with
  | none =>
    simp only [hplace, contents]
    rw [levels_levelFor]
  | some placed => simp [hplace] at h

end Offer

end FairQueue

namespace CallQueue

variable {F E : Type}

/-- The elements that a call queue holds. -/
def contents : CallQueue F E → Multiset E
  | fifo q => q.items
  | fair q => q.contents

/-- The number of elements is the size. -/
theorem card_contents (q : CallQueue F E) : q.contents.card = q.size := by
  cases q with
  | fifo q => rfl
  | fair q => exact q.card_contents

/-- A queue looks empty exactly when it holds nothing. -/
theorem size_eq_zero_iff (q : CallQueue F E) : q.size = 0 ↔ q.contents = 0 := by
  rw [← card_contents, Multiset.card_eq_zero]

/-- A poll takes away the element that it hands out, and nothing if it hands out none. -/
theorem contents_poll (q : CallQueue F E) :
    q.contents = q.poll.1.contents + (q.poll.2.elim 0 fun e => {e}) := by
  cases q with
  | fifo q =>
    cases hpop : q.pop? with
    | none => simp [poll, hpop]
    | some popped =>
      simp only [poll, hpop, contents, Option.elim_some]
      rw [Fifo.items_of_pop? hpop, ← Multiset.cons_coe, ← Multiset.singleton_add, add_comm]
  | fair q => exact q.contents_pollTokens q.tokens

section

variable [Scalar F] [Ranked E]

/-- An element in the form in which a call queue holds it: a fair queue remembers its level. -/
def kept (now : ℕ) (e : E) : CallQueue F E → E
  | fifo _ => e
  | fair q => (q.levelFor now e).2.1

/-- An accepted element is added to what the queue held. -/
theorem contents_offer_ok {q : CallQueue F E} {now : ℕ} {e : E} (h : (q.offer now e).2 = .ok ()) :
    (q.offer now e).1.contents = q.contents + {q.kept now e} := by
  cases q with
  | fifo q =>
    cases hpush : q.push? e with
    | none => simp [offer, hpush] at h
    | some q' =>
      simp only [offer, hpush, contents, kept]
      rw [Fifo.items_of_push? hpush, ← Multiset.coe_add, Multiset.coe_singleton]
  | fair q => exact FairQueue.contents_offer_ok h

/-- A refused element leaves what the queue held. -/
theorem contents_offer_error {q : CallQueue F E} {now : ℕ} {e e' : E}
    (h : (q.offer now e).2 = .error e') : (q.offer now e).1.contents = q.contents := by
  cases q with
  | fifo q =>
    cases hpush : q.push? e with
    | none => simp [offer, hpush]
    | some q' => simp [offer, hpush] at h
  | fair q => exact FairQueue.contents_offer_error h

end

end CallQueue

end Allotment
