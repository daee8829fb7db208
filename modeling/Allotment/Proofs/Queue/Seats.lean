import Allotment.Proofs.Queue.Growth

/-!
# Where applications sit

`seats` lists the applications of a tree with the leaf that holds each, by the leaf's name and serial
number. Changing, creating and removing queues leaves the seats as they are, as long as the changed
queues keep theirs and no removed queue has any. In a well named tree a queue is vacant when no seat
is in a leaf within its name, so seats tell which queues hold applications.
-/

namespace Allotment

open QueueName Shape

variable {F : Type}

/-- An application in a leaf. -/
structure Seat (F : Type) where
  leaf : String
  serial : ℕ
  attempt : Attempt F

namespace Queue

/-- The applications that a queue itself holds. -/
def ownSeats (q : Queue F) : List (Seat F) := q.ownAttempts.map fun a => ⟨q.name, q.info.serial, a⟩

/-- The applications in a queue, each with its leaf. -/
def seats (q : Queue F) : List (Seat F) := q.all.flatMap ownSeats

@[simp] theorem seats_leaf (info : QueueInfo F) (runnable parked : List (Attempt F)) :
    (leaf info runnable parked).seats =
      (runnable ++ parked).map fun a => ⟨info.name, info.serial, a⟩ := by
  simp [seats, ownSeats, ownAttempts, name, Queue.info]

@[simp] theorem seats_parent (info : QueueInfo F) (children : List (Queue F)) :
    (parent info children).seats = children.flatMap seats := by
  unfold seats
  rw [all_parent, List.flatMap_cons, List.flatMap_assoc]
  rfl

/-- The applications in the seats of a queue are those in it. -/
theorem map_attempt_seats (q : Queue F) : q.seats.map Seat.attempt = q.attempts := by
  induction q using Queue.induction with
  | leaf info runnable parked => simp [Function.comp_def]
  | parent info children ih =>
    rw [seats_parent, attempts_parent, List.map_flatMap]
    exact List.flatMap_congr ih

/-- A queue is vacant when it has no seats. -/
theorem isVacant_iff_seats (q : Queue F) : q.isVacant = true ↔ q.seats = [] := by
  rw [isVacant, List.isEmpty_iff, ← map_attempt_seats, List.map_eq_nil_iff]

/-- An application of a queue is the one in some seat. -/
theorem mem_attempts_iff {q : Queue F} {a : Attempt F} :
    a ∈ q.attempts ↔ ∃ x ∈ q.seats, x.attempt = a := by
  rw [← map_attempt_seats, List.mem_map]

/-- A seat of a queue is in one of the queues in it. -/
theorem mem_seats_iff {q : Queue F} {x : Seat F} :
    x ∈ q.seats ↔ ∃ r ∈ q.all, ∃ a ∈ r.ownAttempts, x = ⟨r.name, r.info.serial, a⟩ := by
  simp only [seats, ownSeats, List.mem_flatMap, List.mem_map, eq_comm]

/-! ## Seats that stay -/

/-- A change of the queues of a name that keeps what is gathered from them keeps what is gathered from
the tree. -/
theorem gather_modify {β : Type} {m : Queue F → List β}
    (hm : ∀ info children, m (parent info children) = children.flatMap m) {n : String}
    {f : Queue F → Queue F} (q : Queue F) (hf : ∀ r ∈ q.all, r.name = n → (m (f r)).Perm (m r)) :
    (m (q.modify n f)).Perm (m q) := by
  induction q using Queue.induction with
  | leaf info runnable parked =>
    rw [modify_leaf]
    split
    · rename_i hname
      exact hf _ (mem_all_self _) hname
    · exact List.Perm.refl _
  | parent info children ih =>
    rw [modify_parent]
    split
    · rename_i hname
      exact hf _ (mem_all_self _) hname
    · rw [hm, hm, List.flatMap_map]
      apply List.Perm.flatMap_left
      intro c hc
      apply ih c hc
      intro r hr
      exact hf r (mem_all_of_child hc hr)

/-- A change that keeps the seats of the queues of a name keeps those of the tree. -/
theorem seats_modify {n : String} {f : Queue F → Queue F} (q : Queue F)
    (hf : ∀ r ∈ q.all, r.name = n → (f r).seats.Perm r.seats) :
    (q.modify n f).seats.Perm q.seats :=
  gather_modify seats_parent q hf

/-- Changing the common part, but neither name nor serial number, keeps the seats. -/
theorem seats_withInfo {f : QueueInfo F → QueueInfo F} (hname : ∀ info, (f info).name = info.name)
    (hserial : ∀ info, (f info).serial = info.serial) (q : Queue F) :
    (q.withInfo f).seats = q.seats := by
  cases q with
  | leaf info runnable parked => simp [withInfo, hname, hserial]
  | parent info children => simp [withInfo]

/-- Moving parked applications up keeps the seats. -/
theorem seats_promoteParked (q : Queue F) : q.promoteParked.seats = q.seats := by
  cases q with
  | leaf info runnable parked => simp [promoteParked, promote]
  | parent info children => rfl

/-- Removing a vacant queue keeps the seats. -/
theorem seats_remove {n : String} (q : Queue F)
    (hvacant : ∀ r ∈ q.all, r.name = n → r.isVacant = true) : (q.remove n).seats = q.seats := by
  induction q using Queue.induction with
  | leaf info runnable parked => rw [remove_leaf]
  | parent info children ih =>
    have hbelow : ∀ c ∈ children, ∀ r ∈ c.all, r.name = n → r.isVacant = true := by
      intro c hc r hr
      exact hvacant r (mem_all_of_child hc hr)
    rw [remove_parent, seats_parent, seats_parent, List.flatMap_map]
    have hsame : ∀ c ∈ children.eraseP (fun q => q.name = n), (c.remove n).seats = c.seats :=
      fun c hc => ih c (List.mem_of_mem_eraseP hc) (hbelow c (List.mem_of_mem_eraseP hc))
    rw [List.flatMap_congr hsame]
    have hgone : ∀ cs : List (Queue F), (∀ c ∈ cs, c.name = n → c.isVacant = true) →
        (cs.eraseP fun q => q.name = n).flatMap seats = cs.flatMap seats := by
      intro cs hcs
      induction cs with
      | nil => rfl
      | cons c rest ihcs =>
        by_cases hname : c.name = n
        · have hnone := (isVacant_iff_seats c).mp (hcs c List.mem_cons_self hname)
          rw [List.eraseP_cons_of_pos (by simpa using hname), List.flatMap_cons, hnone,
            List.nil_append]
        · rw [List.eraseP_cons_of_neg (by simpa using hname), List.flatMap_cons, List.flatMap_cons,
            ihcs fun d hd => hcs d (List.mem_cons_of_mem c hd)]
    exact hgone children fun c hc => hbelow c hc c (mem_all_self c)

/-- A vacant child more keeps the seats. -/
theorem seats_addChild {r : Queue F} (hr : r.seats = []) (q : Queue F) :
    (addChild r q).seats = q.seats := by
  cases q with
  | leaf info runnable parked => rfl
  | parent info children => simp [addChild, hr]

end Queue

namespace QueueTree

variable {t t' : QueueTree F}

/-- Whether some leaf within a name holds an application. -/
def Holds (t : QueueTree F) (n : String) : Prop :=
  ∃ x ∈ t.root.seats, Shape.isWithin x.leaf n = true

/-- Trees with the same seats hold applications within the same names. -/
theorem holds_congr (h : t'.root.seats.Perm t.root.seats) (n : String) :
    t'.Holds n ↔ t.Holds n := by
  simp only [Holds, h.mem_iff]

/-- What holds applications within a name holds them within every name above. -/
theorem Holds.of_isWithin {m n : String} (h : t.Holds m) (hmn : Shape.isWithin m n = true) :
    t.Holds n := by
  obtain ⟨x, hx, hxm⟩ := h
  exact ⟨x, hx, isWithin_trans hxm hmn⟩

/-- A queue that is found is vacant unless an application is held within its name. -/
theorem WellNamed.isVacant_eq_false_iff (h : t.WellNamed) {n : String} {q : Queue F}
    (hfind : t.find? n = some q) : q.isVacant = false ↔ t.Holds n := by
  obtain ⟨hq, rfl⟩ := h.root.find?_eq_some_iff.mp hfind
  rw [Bool.eq_false_iff, ne_eq, Queue.isVacant_iff_seats, List.eq_nil_iff_forall_not_mem]
  push Not
  constructor
  · rintro ⟨x, hx⟩
    obtain ⟨r, hr, a, ha, rfl⟩ := Queue.mem_seats_iff.mp hx
    refine ⟨_, Queue.mem_seats_iff.mpr ⟨r, Queue.mem_all_trans hq hr, a, ha, rfl⟩, ?_⟩
    exact (h.root.of_mem hq).isWithin hr
  · rintro ⟨x, hx, hwithin⟩
    obtain ⟨r, hr, a, ha, rfl⟩ := Queue.mem_seats_iff.mp hx
    exact ⟨_, Queue.mem_seats_iff.mpr ⟨r, h.root.mem_all_of_isWithin hr hq hwithin, a, ha, rfl⟩⟩

end QueueTree

end Allotment
