import Allotment.Proofs.CallQueue.Levels

/-!
# Tokens of a fair queue

Producers and consumers visit a fair queue together, and any of them may make its next step at any
moment. Every element is accounted for: by a token, by a producer that has placed it and is yet to
leave a token, by a consumer that has spent a token and not found an element yet, or by a search that
has come to its end in vain. A search cannot come to its end in vain as long as no two searches
overlap; two that do can pass each other by, and then an element stays behind without a token.
-/

namespace Allotment

variable {σ E : Type}

/-- Where a visitor of a fair queue stands: a producer chooses a level for its element, places it, and
has its caller charged; a consumer waits for a token, is told where to start, and looks at one level
after another. -/
inductive Visitor (E : Type) where
  | choosing (e : E)
  | placing (level : ℕ) (e : E)
  | charging (caller : String)
  | accepted
  | refused (e : E)
  | waiting
  | starting
  | searching (start offset : ℕ)
  | served (e : E)
  | unserved

namespace Visitor

/-- Whether a visitor has just come. -/
def IsFirst : Visitor E → Prop
  | choosing _ | waiting => True
  | _ => False

/-- Whether a visitor has left. -/
def IsLast : Visitor E → Prop
  | accepted | refused _ | served _ | unserved => True
  | _ => False

/-- Whether a visitor has spent a token and not found an element yet. -/
def Searches : Visitor E → Prop
  | starting | searching _ _ => True
  | _ => False

/-- How many elements without a token a visitor accounts for. -/
def debt : Visitor E → ℕ
  | charging _ | starting | searching _ _ => 1
  | _ => 0

/-- A visitor that has just come or has left accounts for nothing. -/
theorem debt_eq_zero {v : Visitor E} (h : v.IsFirst ∨ v.IsLast) : v.debt = 0 := by
  cases v with
  | charging | starting | searching => exact h.elim False.elim False.elim
  | _ => rfl

end Visitor

/-- The next step of a visitor, unless it has ended or come to the end of its search. -/
def FairQueue.visit? [Ranking σ] [Ranked E] (q : FairQueue σ E) (now : ℕ) :
    Visitor E → Option (FairQueue σ E × Visitor E)
  | .choosing e =>
    let (level, e, q) := q.levelFor now e
    some (q, .placing level e)
  | .placing level e => match q.placeAt? level e with
    | some q => some (q, .charging (Ranked.caller e))
    | none => some (q, .refused e)
  | .charging caller => some (q.accept now caller, .accepted)
  | .waiting => q.spendToken?.map fun q => (q, .starting)
  | .starting => some (q.nextStart.2, .searching q.nextStart.1 0)
  | .searching start offset =>
    if offset < q.levels.length then
      match q.takeAt? ((start + offset) % q.levels.length) with
      | some (e, q) => some (q, .served e)
      | none => some (q, .searching start (offset + 1))
    else none
  | .accepted | .refused _ | .served _ | .unserved => none

/-- A fair queue, its visitors, and how many searches have come to their ends in vain. -/
structure Visits (σ E : Type) where
  queue : FairQueue σ E
  visitors : List (Visitor E)
  vain : ℕ

namespace Visits

/-- Whether a visitor that searches has an element before it. -/
def Finds (q : FairQueue σ E) : Visitor E → Prop
  | .starting => ∃ level < q.levels.length, q.HoldsAt level
  | .searching start offset =>
    ∃ k, offset ≤ k ∧ k < q.levels.length ∧ q.HoldsAt ((start + k) % q.levels.length)
  | _ => True

/-- A search still has an element before it when the queue grows. -/
theorem Finds.of_grows {q q' : FairQueue σ E} {v : Visitor E} (h : Finds q v) (hgrows : q.Grows q') :
    Finds q' v := by
  cases v with
  | starting =>
    obtain ⟨level, hlevel, hheld⟩ := h
    exact ⟨level, by rw [hgrows.length]; exact hlevel, hgrows.holdsAt level hheld⟩
  | searching start offset =>
    obtain ⟨k, hoffset, hk, hheld⟩ := h
    refine ⟨k, hoffset, by rw [hgrows.length]; exact hk, ?_⟩
    rw [hgrows.length]
    exact hgrows.holdsAt _ hheld
  | _ => trivial

/-- A visitor that does not search lacks no element. -/
theorem finds_of_not_searches {q : FairQueue σ E} {v : Visitor E} (h : ¬ v.Searches) : Finds q v := by
  cases v with
  | starting | searching => exact absurd trivial h
  | _ => trivial

variable [Ranking σ] [Ranked E]

/-- One step: a visitor comes, makes its next step, goes back to waiting after a search in vain, or
gives up waiting. -/
inductive Step : Visits σ E → Visits σ E → Prop where
  | come (q : FairQueue σ E) (visitors : List (Visitor E)) (vain : ℕ) (v : Visitor E)
      (hfirst : v.IsFirst) : Step ⟨q, visitors, vain⟩ ⟨q, visitors ++ [v], vain⟩
  | visit (q q' : FairQueue σ E) (visitors : List (Visitor E)) (vain now place : ℕ) (v v' : Visitor E)
      (hplace : visitors[place]? = some v) (hvisit : q.visit? now v = some (q', v')) :
      Step ⟨q, visitors, vain⟩ ⟨q', visitors.set place v', vain⟩
  | fail (q : FairQueue σ E) (visitors : List (Visitor E)) (vain place start offset : ℕ)
      (hplace : visitors[place]? = some (.searching start offset))
      (hend : q.levels.length ≤ offset) :
      Step ⟨q, visitors, vain⟩ ⟨q, visitors.set place .waiting, vain + 1⟩
  | giveUp (q : FairQueue σ E) (visitors : List (Visitor E)) (vain place : ℕ)
      (hplace : visitors[place]? = some .waiting) :
      Step ⟨q, visitors, vain⟩ ⟨q, visitors.set place .unserved, vain⟩

/-- The states of runs that begin with an empty queue and pass through allowed states only. -/
inductive Run (allowed : Visits σ E → Prop) : Visits σ E → Prop where
  | start (capacity : ℕ) (scope : String) (weights : List ℕ) (ranking : σ) (q : FairQueue σ E)
      (hmade : FairQueue.new capacity scope weights ranking = .ok q) : Run allowed ⟨q, [], 0⟩
  | step (t t' : Visits σ E) (hrun : Run allowed t) (hstep : Step t t') (hallowed : allowed t') :
      Run allowed t'

/-! ## What a step does -/

/-- What the step of a visitor means for the others and for itself: it trades elements for tokens and
debts, takes nothing unless it searches, and finds an element in the end if there was one before it and
no more tokens than elements. -/
structure Effect (q : FairQueue σ E) (v : Visitor E) (q' : FairQueue σ E) (v' : Visitor E) : Prop where
  trades : q'.size + q.tokens + v.debt = q.size + q'.tokens + v'.debt
  grows : ¬ v.Searches → q.Grows q'
  finds : Finds q v → q.tokens ≤ q.size → Finds q' v'

/-- Every step of a visitor has that effect. -/
theorem effect_of_visit? {q q' : FairQueue σ E} {now : ℕ} {v v' : Visitor E}
    (h : q.visit? now v = some (q', v')) : Effect q v q' v' := by
  cases v with
  | choosing e =>
    simp only [FairQueue.visit?, Option.some.injEq, Prod.mk.injEq] at h
    obtain ⟨rfl, rfl⟩ := h
    refine ⟨?_, fun _ => .of_levels (q.levels_levelFor now e), fun _ _ => trivial⟩
    simp only [FairQueue.size, q.levels_levelFor now e, q.tokens_levelFor now e, Visitor.debt]
  | placing level e =>
    cases hplaced : q.placeAt? level e with
    | none =>
      simp only [FairQueue.visit?, hplaced] at h
      cases h
      exact ⟨rfl, fun _ => .of_levels rfl, fun _ _ => trivial⟩
    | some placed =>
      simp only [FairQueue.visit?, hplaced] at h
      cases h
      obtain ⟨hsize, htokens, hgrows⟩ := FairQueue.of_placeAt? hplaced
      refine ⟨?_, fun _ => hgrows, fun _ _ => trivial⟩
      simp only [Visitor.debt]
      omega
  | charging caller =>
    cases h
    refine ⟨?_, fun _ => .of_levels rfl, fun _ _ => trivial⟩
    simp only [FairQueue.accept, FairQueue.size, Visitor.debt]
    omega
  | waiting =>
    obtain ⟨spent, hspent, heq⟩ := Option.map_eq_some_iff.mp h
    cases heq
    obtain ⟨n, hn, rfl⟩ := FairQueue.spendToken?_eq_some_iff.mp hspent
    refine ⟨?_, fun _ => .of_levels rfl, ?_⟩
    · simp only [FairQueue.size, Visitor.debt, hn]
      omega
    · intro _ htokens
      exact FairQueue.exists_holdsAt (by omega : 0 < q.size)
  | starting =>
    cases h
    refine ⟨rfl, fun _ => .of_levels rfl, ?_⟩
    rintro ⟨level, hlevel, hheld⟩ -
    obtain ⟨k, hk, heq⟩ := FairQueue.exists_offset q.nextStart.1 hlevel
    exact ⟨k, Nat.zero_le k, hk, by rw [← heq] at hheld; exact hheld⟩
  | searching start offset =>
    simp only [FairQueue.visit?] at h
    split at h
    · cases htaken : q.takeAt? ((start + offset) % q.levels.length) with
      | none =>
        simp only [htaken] at h
        cases h
        refine ⟨rfl, fun _ => .of_levels rfl, ?_⟩
        rintro ⟨k, hk, hbound, hheld⟩ -
        have hne : k ≠ offset := by
          rintro rfl
          exact FairQueue.not_holdsAt_of_takeAt? htaken hheld
        exact ⟨k, Nat.lt_of_le_of_ne hk (Ne.symm hne), hbound, hheld⟩
      | some found =>
        simp only [htaken] at h
        cases h
        obtain ⟨hsize, htokens⟩ := FairQueue.of_takeAt? htaken
        refine ⟨?_, fun hv => absurd trivial hv, fun _ _ => trivial⟩
        simp only [Visitor.debt]
        omega
    · contradiction
  | accepted | refused | served | unserved => contradiction

/-! ## Every element is accounted for -/

variable {allowed : Visits σ E → Prop} {t t' : Visits σ E}

/-- What visitors account for together. -/
def debts (t : Visits σ E) : ℕ := (t.visitors.map Visitor.debt).sum

/-- One step keeps every element accounted for. -/
theorem Step.accounts (h : Step t t')
    (haccounts : t.queue.size = t.queue.tokens + t.debts + t.vain) :
    t'.queue.size = t'.queue.tokens + t'.debts + t'.vain := by
  cases h with
  | come q visitors vain v hfirst =>
    simpa [debts, Visitor.debt_eq_zero (.inl hfirst)] using haccounts
  | visit q q' visitors vain now place v v' hplace hvisit =>
    have htraded := (effect_of_visit? hvisit).trades
    have hset := sum_map_set Visitor.debt visitors place v v' hplace
    simp only [debts] at haccounts ⊢
    omega
  | fail q visitors vain place start offset hplace hend =>
    have hset := sum_map_set Visitor.debt visitors place _ .waiting hplace
    simp only [debts, Visitor.debt] at haccounts hset ⊢
    omega
  | giveUp q visitors vain place hplace =>
    have hset := sum_map_set Visitor.debt visitors place _ .unserved hplace
    simp only [debts, Visitor.debt] at haccounts hset ⊢
    omega

/-- Every element has a token, or is accounted for by a visitor, or by a search in vain. -/
theorem Run.accounts (h : Run allowed t) : t.queue.size = t.queue.tokens + t.debts + t.vain := by
  induction h with
  | start capacity scope weights ranking q hmade =>
    obtain ⟨hsize, htokens⟩ := FairQueue.of_new hmade
    simp [debts, hsize, htokens]
  | step t t' hrun hstep hallowed ih => exact hstep.accounts ih

/-! ## Searches that do not overlap -/

/-- Whether at most one visitor is searching. -/
def Alone (t : Visits σ E) : Prop :=
  ∀ (i j : ℕ) (v w : Visitor E), t.visitors[i]? = some v → t.visitors[j]? = some w → v.Searches →
    w.Searches → i = j

/-- Where searches must not overlap, they do not. -/
theorem Run.alone (h : Run Alone t) : Alone t := by
  cases h with
  | start capacity scope weights ranking q hmade =>
    intro i j v w hv
    simp at hv
  | step t t' hrun hstep hallowed => exact hallowed

/-- As long as searches do not overlap each of them has an element before it. -/
theorem Run.finds (h : Run Alone t) : t.vain = 0 ∧ ∀ v ∈ t.visitors, Finds t.queue v := by
  induction h with
  | start capacity scope weights ranking q hmade => simp
  | step t t' hrun hstep halone ih =>
    obtain ⟨hvain, hfinds⟩ := ih
    have haccounts := hrun.accounts
    cases hstep with
    | come q visitors vain v hfirst =>
      refine ⟨hvain, ?_⟩
      intro w hw
      rcases List.mem_append.mp hw with hw | hw
      · exact hfinds w hw
      · obtain rfl := List.mem_singleton.mp hw
        cases w with
        | choosing | waiting => trivial
        | _ => exact hfirst.elim
    | visit q q' visitors vain now place v v' hplace hvisit =>
      refine ⟨hvain, ?_⟩
      intro w hw
      obtain ⟨i, hi⟩ := List.mem_iff_getElem?.mp hw
      rw [List.getElem?_set] at hi
      split at hi
      · rename_i hsame
        obtain rfl : v' = w := Option.some.inj (Option.ite_none_right_eq_some.mp hi).2
        have htokens : q.tokens ≤ q.size := by
          simp only at haccounts
          omega
        exact (effect_of_visit? hvisit).finds (hfinds v (List.mem_of_getElem? hplace)) htokens
      · rename_i hother
        have hw' : Finds q w := hfinds w (List.mem_of_getElem? hi)
        by_cases hwsearches : w.Searches
        · -- The visitor that made the step was not searching, or there would be two of them.
          have hv : ¬ v.Searches := by
            intro hvsearches
            exact hother (hrun.alone place i v w hplace hi hvsearches hwsearches)
          exact hw'.of_grows ((effect_of_visit? hvisit).grows hv)
        · exact finds_of_not_searches hwsearches
    | fail q visitors vain place start offset hplace hend =>
      obtain ⟨k, hoffset, hk, -⟩ := hfinds _ (List.mem_of_getElem? hplace)
      exact absurd (hend.trans hoffset) (Nat.not_le_of_lt hk)
    | giveUp q visitors vain place hplace =>
      refine ⟨hvain, ?_⟩
      intro w hw
      rcases List.mem_or_eq_of_mem_set hw with hw | rfl
      · exact hfinds w hw
      · trivial

/-- Whether no operation is in progress. -/
def AtRest (t : Visits σ E) : Prop := ∀ v ∈ t.visitors, v.IsLast

/-- Whenever no operation is in progress, the elements are the tokens and the searches in vain. -/
theorem Run.size_of_atRest (h : Run allowed t) (hrest : t.AtRest) :
    t.queue.size = t.queue.tokens + t.vain := by
  have hdebts : t.debts = 0 :=
    sum_map_eq_zero Visitor.debt t.visitors fun v hv => Visitor.debt_eq_zero (.inr (hrest v hv))
  rw [h.accounts, hdebts, Nat.add_zero]

/-- As long as searches do not overlap, a queue that holds something answers the next poll whenever no
operation is in progress. -/
theorem Run.exists_poll (h : Run Alone t) (hrest : t.AtRest) (hsize : 0 < t.queue.size) :
    ∃ e, t.queue.poll.2 = some e := by
  have htokens := h.size_of_atRest hrest
  rw [h.finds.1, Nat.add_zero] at htokens
  exact FairQueue.exists_poll (htokens ▸ hsize) hsize

/-! ## Searches that pass each other by -/

/-- The state after the visitor at a place has gone on, if it can. -/
def goOn (t : Visits σ E) (place : ℕ) : Visits σ E :=
  match t.visitors[place]? with
  | none => t
  | some v => match t.queue.visit? 0 v with
    | some (q, v') => ⟨q, t.visitors.set place v', t.vain⟩
    | none => match v with
      | .searching _ offset =>
        if t.queue.levels.length ≤ offset then ⟨t.queue, t.visitors.set place .waiting, t.vain + 1⟩
        else t
      | _ => t

/-- Visitors that come at once make a run. -/
theorem Run.come_all (h : Run (fun _ => True) t) (visitors : List (Visitor E))
    (hfirst : ∀ v ∈ visitors, v.IsFirst) :
    Run (fun _ => True) ⟨t.queue, t.visitors ++ visitors, t.vain⟩ := by
  induction visitors generalizing t with
  | nil => simpa using h
  | cons v rest ih =>
    have hcome : Run (fun _ => True) ⟨t.queue, t.visitors ++ [v], t.vain⟩ :=
      .step t _ h (.come t.queue t.visitors t.vain v (hfirst v List.mem_cons_self)) trivial
    simpa using ih hcome fun w hw => hfirst w (List.mem_cons_of_mem v hw)

/-- Visitors that go on one after another make a run. -/
theorem Run.goOn_all (h : Run (fun _ => True) t) (places : List ℕ) :
    Run (fun _ => True) (places.foldl goOn t) := by
  induction places generalizing t with
  | nil => exact h
  | cons place rest ih =>
    apply ih
    unfold goOn
    split
    · exact h
    · rename_i v hplace
      split
      · rename_i q v' hvisit
        exact .step t _ h (.visit t.queue q t.visitors t.vain 0 place v v' hplace hvisit) trivial
      · split
        · rename_i start offset hstop
          split
          · rename_i hend
            exact .step t _ h
              (.fail t.queue t.visitors t.vain place start offset hplace hend) trivial
          · exact h
        · exact h

/-- A queue of two levels with a turn of one call each. -/
def twoLevels : FairQueue UniformRanking Call :=
  ⟨"calls", [Fifo.new FairQueue.kind 1, Fifo.new FairQueue.kind 1], ⟨2⟩, RoundRobin.new [1, 1], 0⟩

/-- A producer for each level and two consumers. The first consumer has looked at the upper level in
vain when a call comes there, and the second takes the call on the lower level before the first has
looked at that. -/
def passingBy : Visits UniformRanking Call :=
  [0, 0, 0, 2, 2, 2, 1, 1, 1, 3, 3, 3, 2, 2].foldl goOn
    ⟨twoLevels, [.choosing ⟨1, "user", "call", some 1⟩, .choosing ⟨2, "user", "call", some 0⟩,
      .waiting, .waiting], 0⟩

/-- The state after the first consumer, back at waiting for a token, has given up. -/
def passedBy : Visits UniformRanking Call :=
  ⟨passingBy.queue, passingBy.visitors.set 2 .unserved, passingBy.vain⟩

/-- Two searches that overlap can leave a call behind that no poll finds. -/
theorem exists_vain_search :
    Run (fun _ => True) passedBy ∧ passedBy.AtRest ∧ passedBy.queue.size = 1 ∧
      passedBy.queue.poll.2 = none := by
  have hstart : Run (fun _ => True) (⟨twoLevels, [], 0⟩ : Visits UniformRanking Call) :=
    .start 2 "calls" [1, 1] ⟨2⟩ twoLevels rfl
  have hcome := hstart.come_all [.choosing ⟨1, "user", "call", some 1⟩,
    .choosing ⟨2, "user", "call", some 0⟩, .waiting, .waiting] (by simp [Visitor.IsFirst])
  have hpassing : Run (fun _ => True) passingBy := hcome.goOn_all _
  have hvisitors : passedBy.visitors =
      [.accepted, .accepted, .unserved, .served ⟨1, "user", "call", some 1⟩] := rfl
  refine ⟨.step passingBy _ hpassing (.giveUp _ _ _ 2 rfl) trivial, ?_, rfl, rfl⟩
  unfold AtRest
  rw [hvisitors]
  simp [Visitor.IsLast]

end Visits

end Allotment
