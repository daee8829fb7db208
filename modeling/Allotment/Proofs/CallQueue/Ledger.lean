import Allotment.Proofs.CallQueue.Lanes
import Allotment.Proofs.CallQueue.Loss

/-!
# The ledger of a task

What a task puts into queues and takes out of them, held against what it was asked for and against what
it has come to. An insertion that ends well has put in its element once, and as long as it is in
progress or when it is refused it has put in nothing. A removal has taken out exactly the element that it
hands out, and a swap moves no element. Each step of a task keeps its ledger.

Fair queues give an element a level, so an element may be put in with another level than the one with
which it came, but it is the same in every other respect.
-/

namespace Allotment

/-- Whether two elements agree in everything that a choice of levels does not change. -/
def SameButLevel {E : Type} [Ranked E] (e e' : E) : Prop :=
  ∀ (α : Type) (f : E → α), (∀ x level, f (Ranked.withLevel x level) = f x) → f e' = f e

namespace SameButLevel

variable {E : Type} [Ranked E] {e e' e'' : E}

theorem refl (e : E) : SameButLevel e e := fun _ _ _ => rfl

theorem trans (h : SameButLevel e e') (h' : SameButLevel e' e'') : SameButLevel e e'' :=
  fun α f hf => (h' α f hf).trans (h α f hf)

/-- An element with a level is the same but for the level. -/
theorem atLevel (e : E) (level : ℕ) : SameButLevel e (Ranked.atLevel e level) := by
  intro α f hf
  unfold Ranked.atLevel
  split
  · rfl
  · exact hf e level

/-- Calls that are the same but for their levels have their number, user and method in common. -/
theorem call {c c' : Call} (h : SameButLevel c c') :
    c'.id = c.id ∧ c'.user = c.user ∧ c'.method = c.method :=
  ⟨h _ Call.id fun _ _ => rfl, h _ Call.user fun _ _ => rfl, h _ Call.method fun _ _ => rfl⟩

end SameButLevel

/-! ## Insertions and removals of a history -/

section History

variable {E : Type}

/-- The party and the element of an insertion. -/
def Event.insertion? : Event E → Option (ℕ × E)
  | .inserted party _ e => some (party, e)
  | _ => none

/-- The party and the element of a removal. -/
def Event.removal? : Event E → Option (ℕ × E)
  | .removed party _ e => some (party, e)
  | _ => none

/-- The elements that the party at a place put into queues. -/
def insertedBy (place : ℕ) (log : List (Event E)) : List E :=
  ((log.filterMap Event.insertion?).filter fun p => p.1 = place).map Prod.snd

/-- The elements that the party at a place took out of queues. -/
def removedBy (place : ℕ) (log : List (Event E)) : List E :=
  ((log.filterMap Event.removal?).filter fun p => p.1 = place).map Prod.snd

/-- All elements that were put into queues. -/
def insertions (log : List (Event E)) : Multiset E :=
  ((log.filterMap Event.insertion?).map Prod.snd : List E)

/-- All elements with which queues came into being. -/
def furnished (log : List (Event E)) : Multiset E :=
  (log.map fun | .opened _ held => held | _ => 0).sum

theorem insertedBy_append (place : ℕ) (later earlier : List (Event E)) :
    insertedBy place (later ++ earlier) = insertedBy place later ++ insertedBy place earlier := by
  simp [insertedBy]

theorem removedBy_append (place : ℕ) (later earlier : List (Event E)) :
    removedBy place (later ++ earlier) = removedBy place later ++ removedBy place earlier := by
  simp [removedBy]

/-- What came in was put in, or was there when a queue came into being. -/
theorem arrivals_eq_insertions_add (log : List (Event E)) :
    arrivals log = insertions log + furnished log := by
  induction log with
  | nil => rfl
  | cons ev rest ih =>
    simp only [arrivals, insertions, furnished, List.map_cons, List.sum_cons] at ih ⊢
    rw [ih]
    cases ev with
    | opened q held =>
      simp only [Event.came, List.filterMap_cons, Event.insertion?]
      exact add_left_comm _ _ _
    | inserted party q e =>
      simp only [Event.came, List.filterMap_cons, Event.insertion?, List.map_cons]
      rw [← Multiset.cons_coe, ← Multiset.singleton_add, zero_add, add_assoc]
    | _ => simp [Event.came, List.filterMap_cons, Event.insertion?]

@[simp] theorem insertedBy_self (place queue : ℕ) (e : E) :
    insertedBy place [.inserted place queue e] = [e] := by
  simp [insertedBy, Event.insertion?]

@[simp] theorem insertedBy_removed (place party queue : ℕ) (e : E) :
    insertedBy place [.removed party queue e] = [] := rfl

@[simp] theorem removedBy_self (place queue : ℕ) (e : E) :
    removedBy place [.removed place queue e] = [e] := by
  simp [removedBy, Event.removal?]

@[simp] theorem removedBy_inserted (place party queue : ℕ) (e : E) :
    removedBy place [.inserted party queue e] = [] := rfl

/-- Whether a party is the one whose doing an event is, if it is an insertion or a removal. -/
def Event.IsBy (place : ℕ) : Event E → Prop
  | .inserted party _ _ | .removed party _ _ => party = place
  | _ => True

/-- Nobody else has a part in what a party does. -/
theorem insertedBy_of_isBy {ev : Option (Event E)} {place other : ℕ} (h : ∀ x ∈ ev, x.IsBy place)
    (hother : place ≠ other) :
    insertedBy other ev.toList = [] ∧ removedBy other ev.toList = [] := by
  cases ev with
  | none => exact ⟨rfl, rfl⟩
  | some x =>
    have hx := h x rfl
    cases x with
    | inserted party q e =>
      obtain rfl : party = place := hx
      simp [insertedBy, removedBy, Event.insertion?, Event.removal?, hother]
    | removed party q e =>
      obtain rfl : party = place := hx
      simp [insertedBy, removedBy, Event.insertion?, Event.removal?, hother]
    | _ => exact ⟨rfl, rfl⟩

/-- What is taken out by an event is taken out by its party. -/
theorem departures_of_isBy {ev : Option (Event E)} {place : ℕ} (h : ∀ x ∈ ev, x.IsBy place) :
    departures ev.toList = (removedBy place ev.toList : List E) := by
  cases ev with
  | none => rfl
  | some x =>
    have hx := h x rfl
    cases x with
    | removed party q e =>
      obtain rfl : party = place := hx
      simp [departures, removedBy, Event.left, Event.removal?]
    | _ => rfl

end History

/-! ## One step of a task -/

namespace Task

variable {F E : Type}

/-- The element that an insertion in progress has in hand. -/
def carried? : Task F E → Option E
  | put e | insert _ e | inserting _ e | offer _ e | offerOpen _ e | offering _ _ e => some e
  | add e | addOpen e => some e
  | _ => none

/-- Whether a task is a removal in progress. -/
def Seeks : Task F E → Prop
  | take | takeOpen | taking _ | poll _ | pollOpen _ | polling _ _ _ => True
  | _ => False

/-- Whether a task is a swap in progress. -/
def Swaps (task : Task F E) : Prop := task.InSwap ∨ ∃ c, task = swap c

/-- A removal has no element in hand. -/
theorem carried?_of_seeks {task : Task F E} (h : task.Seeks) : task.carried? = none := by
  cases task <;> first | rfl | exact h.elim

/-- A swap has no element in hand. -/
theorem carried?_of_swaps {task : Task F E} (h : task.Swaps) : task.carried? = none := by
  rcases h with hin | ⟨c, rfl⟩
  · cases task <;> first | rfl | exact hin.elim
  · rfl

/-- The elements that a task hands out. -/
def handed : Task F E → List E
  | finished (.taken e) => [e]
  | _ => []

end Task

variable {F E : Type} [Scalar F] [Ranked E]

/-- How a task that began as another stands to the elements that it put into queues and took out of
them. -/
inductive Ledger (first : Task F E) : Task F E → List E → List E → Prop where
  | carrying (e e' : E) (task : Task F E) (hfirst : first.carried? = some e)
      (htask : task.carried? = some e') (hsame : SameButLevel e e') : Ledger first task [] []
  | inserted (e e' : E) (hfirst : first.carried? = some e) (hsame : SameButLevel e e') :
      Ledger first (.finished .done) [e'] []
  | refused (e e' : E) (o : Outcome E) (hfirst : first.carried? = some e) (hsame : SameButLevel e e')
      (ho : o = .refused e' ∨ o = .failed .shutdown ∨ o = .failed .queueOverflow) :
      Ledger first (.finished o) [] []
  | seeking (task : Task F E) (hfirst : first.Seeks) (htask : task.Seeks) : Ledger first task [] []
  | taken (e : E) (hfirst : first.Seeks) : Ledger first (.finished (.taken e)) [] [e]
  | unserved (o : Outcome E) (hfirst : first.Seeks) (ho : o = .nothing ∨ o = .failed .shutdown) :
      Ledger first (.finished o) [] []
  | swapping (task : Task F E) (hfirst : first.Swaps) (htask : task.Swaps) : Ledger first task [] []
  | swapped (o : Outcome E) (hfirst : first.Swaps) (ho : o = .done ∨ ∃ cause, o = .failed cause) :
      Ledger first (.finished o) [] []

namespace Ledger

variable {first task task' : Task F E} {ins outs : List E} {m m' : Switchboard F E} {now : ℕ}

omit [Scalar F] in
/-- A task begins with nothing put in and nothing taken out. -/
theorem of_isFirst (h : first.IsFirst) : Ledger first first [] [] := by
  cases first with
  | put e | add e => exact .carrying e e _ rfl rfl (.refl e)
  | offer counted e => exact .carrying e e _ rfl rfl (.refl e)
  | take | poll => exact .seeking _ trivial trivial
  | swap c => exact .swapping _ (.inr ⟨c, rfl⟩) (.inr ⟨c, rfl⟩)
  | _ => exact h.elim

end Ledger

/-- What a queue keeps of an element is the same but for the level. -/
theorem CallQueue.same_kept (q : CallQueue F E) (now : ℕ) (e : E) : SameButLevel e (q.kept now e) := by
  cases q with
  | fifo q => exact .refl e
  | fair q =>
    rw [kept, FairQueue.levelFor_element]
    exact .atLevel e _

/-- What a queue hands back is the same but for the level. -/
theorem CallQueue.same_of_offer_error {q : CallQueue F E} {now : ℕ} {e e' : E}
    (h : (q.offer now e).2 = .error e') : SameButLevel e e' := by
  cases q with
  | fifo q =>
    cases hpush : q.push? e with
    | none =>
      simp only [offer, hpush] at h
      exact Except.error.inj h ▸ .refl e
    | some pushed => simp [offer, hpush] at h
  | fair q =>
    simp only [offer, FairQueue.offer] at h
    split at h
    · simp at h
    · rw [← Except.error.inj h, FairQueue.levelFor_element]
      exact .atLevel e _

/-- An attempt to insert an element puts it in, or hands it back. -/
theorem Switchboard.offerTo_cases (m : Switchboard F E) (now place k : ℕ) (e : E) :
    ∃ e', SameButLevel e e' ∧
      ((m.offerTo now k e).2 = .ok () ∧ m.insertion? now place k e = some (.inserted place k e') ∨
        (m.offerTo now k e).2 = .error e' ∧ m.insertion? now place k e = none) := by
  unfold offerTo insertion?
  cases m.queues[k]? with
  | none => exact ⟨e, .refl e, .inr ⟨rfl, rfl⟩⟩
  | some q =>
    cases hoffer : (q.offer now e).2 with
    | ok u => exact ⟨q.kept now e, q.same_kept now e, .inl ⟨rfl, by simp [hoffer]⟩⟩
    | error e' => exact ⟨e', q.same_of_offer_error hoffer, .inr ⟨rfl, by simp [hoffer]⟩⟩

namespace Ledger

variable {first task task' : Task F E} {ins outs : List E} {m m' : Switchboard F E} {now : ℕ}

/-- An insertion in progress goes on with its element in hand, or has put it in, or is refused. -/
theorem step_carrying {e e' : E} (hfirst : first.carried? = some e) (htask : task.carried? = some e')
    (hsame : SameButLevel e e') (hstep : m.step? now task = some (m', task')) (place : ℕ) :
    Ledger first task' (insertedBy place (m.event? now place task).toList)
      (removedBy place (m.event? now place task).toList) := by
  have hrefused : ∀ (m : Switchboard F E) (counted : Bool) (x : E), SameButLevel e x →
      Ledger first (m.refuse counted x).2 [] [] := by
    intro m counted x hx
    cases counted with
    | false => exact .refused e x _ hfirst hx (.inl rfl)
    | true => exact .refused e x _ hfirst hx (.inr (.inr rfl))
  cases task with
  | put x | offerOpen counted x =>
    cases htask
    cases hstep
    exact .carrying e e' _ hfirst rfl hsame
  | insert k x | addOpen x =>
    cases htask
    simp only [Switchboard.step?] at hstep
    split at hstep <;> cases hstep
    · exact .refused e e' _ hfirst hsame (.inr (.inl rfl))
    · exact .carrying e e' _ hfirst rfl hsame
  | offer counted x =>
    cases htask
    simp only [Switchboard.step?] at hstep
    split at hstep
    · obtain ⟨-, rfl⟩ := Prod.mk.inj (Option.some.inj hstep)
      exact hrefused m counted e' hsame
    · cases hstep
      exact .carrying e e' _ hfirst rfl hsame
  | add x =>
    cases htask
    cases hstep
    split <;> exact .carrying e e' _ hfirst rfl hsame
  | inserting k x =>
    cases htask
    obtain ⟨x, hx, ⟨hok, hevent⟩ | ⟨herror, hevent⟩⟩ := m.offerTo_cases now place k e'
    · rw [Switchboard.step?, ← Prod.eta (m.offerTo now k e'), hok] at hstep
      cases hstep
      simp only [Switchboard.event?, hevent, Option.toList_some, insertedBy_self, removedBy_inserted]
      exact .inserted e x hfirst (hsame.trans hx)
    · rw [Switchboard.step?, ← Prod.eta (m.offerTo now k e'), herror] at hstep
      cases hstep
      simp only [Switchboard.event?, hevent]
      exact .carrying e x _ hfirst rfl (hsame.trans hx)
  | offering counted k x =>
    cases htask
    obtain ⟨x, hx, ⟨hok, hevent⟩ | ⟨herror, hevent⟩⟩ := m.offerTo_cases now place k e'
    · rw [Switchboard.step?, ← Prod.eta (m.offerTo now k e'), hok] at hstep
      cases hstep
      simp only [Switchboard.event?, hevent, Option.toList_some, insertedBy_self, removedBy_inserted]
      exact .inserted e x hfirst (hsame.trans hx)
    · rw [Switchboard.step?, ← Prod.eta (m.offerTo now k e'), herror] at hstep
      obtain ⟨-, rfl⟩ := Prod.mk.inj (Option.some.inj hstep)
      simp only [Switchboard.event?, hevent]
      exact hrefused _ counted x (hsame.trans hx)
  | _ => contradiction

/-- A removal in progress goes on looking, or has taken out what it hands out, or ends without. -/
theorem step_seeking (hfirst : first.Seeks) (htask : task.Seeks)
    (hstep : m.step? now task = some (m', task')) (place : ℕ) :
    Ledger first task' (insertedBy place (m.event? now place task).toList)
      (removedBy place (m.event? now place task).toList) := by
  cases task with
  | take =>
    simp only [Switchboard.step?] at hstep
    split at hstep <;> cases hstep
    · exact .unserved _ hfirst (.inr rfl)
    · exact .seeking _ hfirst trivial
  | poll deadline =>
    simp only [Switchboard.step?] at hstep
    split at hstep <;> cases hstep
    · exact .unserved _ hfirst (.inl rfl)
    · exact .seeking _ hfirst trivial
  | takeOpen | pollOpen deadline =>
    cases hstep
    exact .seeking _ hfirst trivial
  | taking k =>
    cases htaken : (m.takeFrom k).2 with
    | none =>
      rw [Switchboard.step?, ← Prod.eta (m.takeFrom k), htaken] at hstep
      cases hstep
      simp only [Switchboard.event?, Switchboard.removal?, htaken]
      exact .seeking _ hfirst trivial
    | some e =>
      rw [Switchboard.step?, ← Prod.eta (m.takeFrom k), htaken] at hstep
      cases hstep
      simp only [Switchboard.event?, Switchboard.removal?, htaken, Option.map_some,
        Option.toList_some, removedBy_self, insertedBy_removed]
      exact .taken e hfirst
  | polling k deadline remaining =>
    cases htaken : (m.takeFrom k).2 with
    | none =>
      rw [Switchboard.step?, ← Prod.eta (m.takeFrom k), htaken] at hstep
      simp only [Switchboard.event?, Switchboard.removal?, htaken]
      simp only at hstep
      split at hstep <;> cases hstep
      · exact .unserved _ hfirst (.inl rfl)
      · exact .seeking _ hfirst trivial
    | some e =>
      rw [Switchboard.step?, ← Prod.eta (m.takeFrom k), htaken] at hstep
      cases hstep
      simp only [Switchboard.event?, Switchboard.removal?, htaken, Option.map_some,
        Option.toList_some, removedBy_self, insertedBy_removed]
      exact .taken e hfirst
  | _ => exact htask.elim

/-- A swap in progress goes on or ends. -/
theorem swaps_of_step? (htask : task.Swaps) (hstep : m.step? now task = some (m', task')) :
    task'.Swaps ∨ ∃ o, task' = .finished o ∧ (o = .done ∨ ∃ cause, o = .failed cause) := by
  cases task with
  | swap c | swapLocked c =>
    simp only [Switchboard.step?] at hstep
    split at hstep <;> cases hstep <;> simp [Task.Swaps, Task.InSwap]
  | swapOpen c =>
    simp only [Switchboard.step?] at hstep
    split at hstep <;> cases hstep <;> simp [Task.Swaps, Task.InSwap]
  | draining c old new seen =>
    simp only [Switchboard.step?] at hstep
    split at hstep
    · cases hstep
      exact .inl (.inl trivial)
    · split at hstep <;> cases hstep <;> simp [Task.Swaps, Task.InSwap]
  | swapBuilt | swapPut | swapKnobs | sleeping | swapTake =>
    cases hstep
    exact .inl (.inl trivial)
  | swapCount =>
    cases hstep
    exact .inr ⟨_, rfl, .inl rfl⟩
  | _ => simp [Task.Swaps, Task.InSwap] at htask

/-- A swap in progress goes on or ends, and moves no element. -/
theorem step_swapping (hfirst : first.Swaps) (htask : task.Swaps)
    (hstep : m.step? now task = some (m', task')) (place : ℕ) :
    Ledger first task' (insertedBy place (m.event? now place task).toList)
      (removedBy place (m.event? now place task).toList) := by
  have hmoved : insertedBy place (m.event? now place task).toList = [] ∧
      removedBy place (m.event? now place task).toList = [] := by
    rcases htask with hin | ⟨c, rfl⟩
    · cases Switchboard.swapEffect_of_step? hstep hin place with
      | quiet hqueues htake hev =>
        cases hcase : m.event? now place task with
        | none => exact ⟨rfl, rfl⟩
        | some ev =>
          have hwatch := hev ev hcase
          cases ev with
          | turned | looked => exact ⟨rfl, rfl⟩
          | _ => exact hwatch.elim
      | opened q hqueues htake hev => rw [hev]; exact ⟨rfl, rfl⟩
      | moved new hqueues htake hev => rw [hev]; exact ⟨rfl, rfl⟩
    · exact ⟨rfl, rfl⟩
  rw [hmoved.1, hmoved.2]
  rcases swaps_of_step? htask hstep with hswaps | ⟨o, rfl, ho⟩
  · exact .swapping _ hfirst hswaps
  · exact .swapped o hfirst ho

/-- A step of a task keeps its ledger, which grows by what the history lists. -/
theorem step (h : Ledger first task ins outs) (hstep : m.step? now task = some (m', task'))
    (place : ℕ) :
    Ledger first task' (insertedBy place (m.event? now place task).toList ++ ins)
      (removedBy place (m.event? now place task).toList ++ outs) := by
  cases h with
  | carrying e e' task hfirst htask hsame =>
    simpa using step_carrying hfirst htask hsame hstep place
  | seeking task hfirst htask => simpa using step_seeking hfirst htask hstep place
  | swapping task hfirst htask => simpa using step_swapping hfirst htask hstep place
  | inserted | refused | taken | unserved | swapped => simp [Switchboard.step?] at hstep

omit [Scalar F] in
/-- What a task hands out is what it took out of a queue. -/
theorem handed_eq (h : Ledger first task ins outs) : task.handed = outs := by
  cases h with
  | taken => rfl
  | inserted => rfl
  | carrying e e' task hfirst htask hsame => cases task <;> first | rfl | cases htask
  | seeking task hfirst htask => cases task <;> first | rfl | exact htask.elim
  | swapping task hfirst htask =>
    rcases htask with hin | ⟨c, rfl⟩
    · cases task <;> first | rfl | exact hin.elim
    · rfl
  | refused e e' o hfirst hsame ho => rcases ho with rfl | rfl | rfl <;> rfl
  | unserved o hfirst ho => rcases ho with rfl | rfl <;> rfl
  | swapped o hfirst ho => rcases ho with rfl | ⟨cause, rfl⟩ <;> rfl

omit [Scalar F] in
/-- An insertion has put in its element if it ended well, and else nothing. -/
theorem inserts (h : Ledger first task ins outs) {e : E} (he : first.carried? = some e) :
    (task = .finished .done ∧ ∃ e', SameButLevel e e' ∧ ins = [e']) ∨
      ((task.carried?.isSome ∨ task = .finished (.failed .shutdown) ∨
        task = .finished (.failed .queueOverflow) ∨
        ∃ e', SameButLevel e e' ∧ task = .finished (.refused e')) ∧ ins = []) := by
  cases h with
  | carrying x e' task hfirst htask hsame =>
    exact .inr ⟨.inl (by rw [htask]; rfl), rfl⟩
  | inserted x e' hfirst hsame =>
    obtain rfl : x = e := Option.some.inj (hfirst.symm.trans he)
    exact .inl ⟨rfl, e', hsame, rfl⟩
  | refused x e' o hfirst hsame ho =>
    obtain rfl : x = e := Option.some.inj (hfirst.symm.trans he)
    rcases ho with rfl | rfl | rfl
    · exact .inr ⟨.inr (.inr (.inr ⟨e', hsame, rfl⟩)), rfl⟩
    · exact .inr ⟨.inr (.inl rfl), rfl⟩
    · exact .inr ⟨.inr (.inr (.inl rfl)), rfl⟩
  | seeking task hfirst | taken x hfirst | unserved o hfirst =>
    rw [Task.carried?_of_seeks hfirst] at he
    contradiction
  | swapping task hfirst | swapped o hfirst =>
    rw [Task.carried?_of_swaps hfirst] at he
    contradiction

omit [Scalar F] in
/-- A task that is no insertion has put in nothing. -/
theorem inserts_nothing (h : Ledger first task ins outs) (hfirst : first.carried? = none) :
    ins = [] := by
  cases h with
  | inserted e e' he hsame => rw [hfirst] at he; cases he
  | _ => rfl

end Ledger

/-- The party at a place has a part only in what its own steps do. -/
theorem Switchboard.isBy_event? (m : Switchboard F E) (now place : ℕ) (task : Task F E) :
    ∀ ev ∈ m.event? now place task, ev.IsBy place := by
  intro ev hev
  have hinsertion : ∀ k e, m.insertion? now place k e = some ev → ev.IsBy place := by
    intro k e h
    obtain ⟨q, -, hq⟩ := Option.bind_eq_some_iff.mp h
    split at hq <;> cases hq
    rfl
  have hremoval : ∀ k, m.removal? place k = some ev → ev.IsBy place := by
    intro k h
    obtain ⟨e, -, rfl⟩ := Option.map_eq_some_iff.mp h
    rfl
  cases task with
  | inserting k e | offering counted k e => exact hinsertion k e hev
  | taking k | polling k deadline remaining => exact hremoval k hev
  | swapOpen c =>
    simp only [event?] at hev
    split at hev <;> cases hev
    trivial
  | swapPut | sleeping | swapTake =>
    cases hev
    trivial
  | _ => cases hev

end Allotment
