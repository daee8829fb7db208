import Allotment.Proofs.CallQueue.Errands
import Allotment.Proofs.Table
import Allotment.Scalar.Double
import Mathlib.Algebra.Ring.Rat
import Mathlib.Logic.Function.Iterate

/-!
# Counts of accepted calls

A ranking by recent traffic counts the calls that were accepted. As long as no decay is due and nobody
changes the ranking otherwise, the count of a caller grows by one for each call of the caller that is
accepted, and by nothing else, however often calls are refused and tried again.
-/

namespace Allotment

namespace DecayRanking

variable {F : Type} [Scalar F]

/-- Whether a decay is due at a time. -/
def IsDue (r : DecayRanking F) (now : ℕ) : Prop := (now - r.lastDecay) / r.periodNs ≠ 0

/-- While no decay is due there is nothing to catch up with. -/
theorem catchUp_of_not_isDue {r : DecayRanking F} {now : ℕ} (h : ¬ r.IsDue now) : r.catchUp now = r := by
  unfold catchUp
  rw [if_pos (not_not.mp h)]

/-- One more call counts for its caller only. -/
theorem count_addCall (r : DecayRanking F) (caller other : String) :
    (r.addCall caller).count other =
      if caller = other then r.count other + Scalar.one else r.count other := by
  unfold count addCall Table.adjust
  rw [Table.get?_insert]
  by_cases h : caller = other
  · subst h
    simp
  · simp [h]

end DecayRanking

/-- The time of a query. -/
def Query.now : Query → ℕ
  | rank now _ | charge now _ => now

section Quiet

variable {F : Type} [Scalar F]

/-- Whether an entry of a history falls between two decays: the ranking is asked when no decay is due, and
nobody changes it otherwise. -/
def Entry.IsQuiet (r : DecayRanking F) : Entry (DecayRanking F) → Prop
  | mark _ (.asked x) => ¬ r.IsDue x.now
  | mark _ (.tried _ _) => True
  | changed _ => False

/-- Between two decays a query counts one more call of the caller whom it charges. -/
theorem Query.apply_of_not_isDue {r : DecayRanking F} {x : Query} (h : ¬ r.IsDue x.now) :
    x.apply r = match x with
      | rank _ _ => r
      | charge _ caller => r.addCall caller := by
  cases x with
  | rank now caller => exact DecayRanking.catchUp_of_not_isDue h
  | charge now caller =>
    exact congrArg (DecayRanking.addCall · caller) (DecayRanking.catchUp_of_not_isDue h)

/-- Between two decays the count of a caller grows by one at each charge. -/
theorem count_replay (hist : List (Entry (DecayRanking F))) (r : DecayRanking F)
    (h : ∀ x ∈ hist, x.IsQuiet r) (caller : String) :
    (replay hist r).count caller =
      (· + Scalar.one)^[hist.countP (Entry.charges caller)] (r.count caller) := by
  induction hist generalizing r with
  | nil => rfl
  | cons x rest ih =>
    have hrest : ∀ y ∈ rest, y.IsQuiet r := fun y hy => h y (List.mem_cons_of_mem x hy)
    have hx := h x List.mem_cons_self
    change (replay rest (x.apply r)).count caller = _
    cases x with
    | changed f => exact hx.elim
    | mark place m =>
      cases m with
      | tried level ok => simpa [Entry.apply, Entry.charges] using ih r hrest
      | asked x =>
        rw [Entry.apply, Query.apply_of_not_isDue hx]
        cases x with
        | rank now asker => simpa [Entry.charges] using ih r hrest
        | charge now charged =>
          -- The time of the last decay is what it was, so the rest is as quiet as before.
          rw [ih (r.addCall charged) fun y hy => by
            have hy := hrest y hy
            cases y with
            | changed f => exact hy
            | mark place m => cases m <;> exact hy]
          rw [DecayRanking.count_addCall]
          by_cases hcaller : charged = caller
          · simp [Entry.charges, hcaller]
          · simp [Entry.charges, hcaller]

omit [Scalar F] in
/-- Where one is added exactly, it is added exactly any number of times. -/
theorem iterate_exact (value : F → ℚ) (next : F → F) (n : ℕ) (x : F)
    (h : ∀ k < n, value (next (next^[k] x)) = value (next^[k] x) + 1) :
    value (next^[n] x) = value x + n := by
  induction n with
  | zero => simp
  | succ n ih =>
    rw [Function.iterate_succ_apply', h n (Nat.lt_succ_self n),
      ih fun k hk => h k (Nat.lt_succ_of_lt hk)]
    rw [Nat.cast_add_one, add_assoc]

/-- What an insertion makes of the ranking. -/
theorem ranking_put (q : FairQueue (DecayRanking F) Call) (chosen charged : ℕ) (c : Call) :
    (q.put chosen charged c).1.ranking =
      let looked := if c.level.isSome then q.ranking else q.ranking.catchUp chosen
      match (q.put chosen charged c).2 with
      | .ok () => (looked.catchUp charged).addCall c.user
      | .error _ => looked := by
  have hlooked : (q.levelFor chosen c).2.2.ranking =
      if c.level.isSome then q.ranking else q.ranking.catchUp chosen := by
    simp only [FairQueue.levelFor, Ranked.level?]
    cases c.level <;> rfl
  have huser : (q.levelFor chosen c).2.1.user = c.user := by
    simp only [FairQueue.levelFor, Ranked.level?]
    cases c.level <;> rfl
  unfold FairQueue.put
  cases hplace : (q.levelFor chosen c).2.2.placeAt? (q.levelFor chosen c).1 (q.levelFor chosen c).2.1 with
  | none =>
    simp only [hplace]
    exact hlooked
  | some placed =>
    simp only [hplace, FairQueue.accept, Stage.ranking_of_placeAt? hplace, hlooked]
    rw [← huser]
    rfl

/-- A call is ranked once and charged once.

Every insertion is an attempt in two steps. Whatever ranking a fair queue has, and whatever goes on at it:
what a call leaves behind is at most one choice of a level, made before its first attempt if it came
without a level, then some refusals, all at one level, and at last, if it is accepted, the acceptance at
this level and one charge for its caller. The ranking is asked for nothing else. If it is asked for a level,
that is the one it answers, being what the history has made of it by then, as far as there are levels, and
the call remembers it.

For a ranking by recent traffic, a refused insertion makes up for decays that are due and does not
count, and an accepted one counts once. As long as no decay is due and nobody changes the ranking
otherwise, the count of a caller grows by one for each call of the caller that is accepted, hence by
their number where adding one is exact. -/
theorem ranked_and_charged_once {F : Type} [Scalar F] :
    (∀ {σ : Type} [Ranking σ] (q : FairQueue σ Call) (chosen charged : ℕ) (c : Call),
      q.offer chosen c = q.put chosen chosen c ∧
      ∃ looked r, (Stage.ready c).next? q chosen = some looked ∧
        looked.2.next? looked.1 charged = some r ∧
          q.put chosen charged c = (r.1, r.2.answer)) ∧
    (∀ {σ : Type} [Ranking σ] (q : FairQueue σ Call) (hist : List (Entry σ)) (t : Reception σ),
      Reception.Goes ⟨q, []⟩ hist t →
        t.queue.ranking = replay hist q.ranking ∧
        ∀ (place : ℕ) (x : Errand), t.errands[place]? = some x →
          ∃ (level refusals : ℕ) (asks : List Query) (finish : List Mark),
            marksOf place hist =
              asks.map .asked ++ List.replicate refusals (.tried level false) ++ finish ∧
            (asks = [] ∧ (x.came.level ≠ none ∨ x.stage = .ready x.came ∧ refusals = 0) ∨
              x.came.level = none ∧ ∃ now before after, asks = [.rank now x.came.user] ∧
                hist = before ++ .mark place (.asked (.rank now x.came.user)) :: after ∧
                level = min (Ranking.rank (replay before q.ranking) now x.came.user).1
                  (q.levels.length - 1) ∧
                x.stage.call.level = some level) ∧
            (∀ l, x.came.level = some l ∨ x.stage.call.level = some l →
              level = min l (q.levels.length - 1)) ∧
            ((finish = [] ∧ ∀ c, x.stage ≠ .accepted c) ∨
              (∃ c, x.stage = .accepted c) ∧
                ∃ now, finish = [.tried level true, .asked (.charge now x.came.user)])) ∧
    (∀ (q : FairQueue (DecayRanking F) Call) (chosen charged : ℕ) (c : Call),
      (q.put chosen charged c).1.ranking =
        let looked := if c.level.isSome then q.ranking else q.ranking.catchUp chosen
        match (q.put chosen charged c).2 with
        | .ok () => (looked.catchUp charged).addCall c.user
        | .error _ => looked) ∧
    ∀ (s t : Reception (DecayRanking F)) (hist : List (Entry (DecayRanking F))), s.Goes hist t →
      (∀ x ∈ hist, x.IsQuiet s.queue.ranking) → ∀ caller, ∃ n,
        acceptedOf caller t.errands = acceptedOf caller s.errands + n ∧
        t.queue.ranking.count caller = (· + Scalar.one)^[n] (s.queue.ranking.count caller) ∧
        ∀ value : F → ℚ,
          (∀ k < n, value ((· + Scalar.one)^[k] (s.queue.ranking.count caller) + Scalar.one) =
            value ((· + Scalar.one)^[k] (s.queue.ranking.count caller)) + 1) →
          value (t.queue.ranking.count caller) = value (s.queue.ranking.count caller) + n := by
  refine ⟨fun q chosen charged c => ⟨q.offer_eq_put chosen c, Stage.put_eq q chosen charged c⟩,
    fun q hist t h => ⟨h.ranking, fun place x hx => ?_⟩, ranking_put, ?_⟩
  · obtain ⟨level, refusals, asks, finish, hmarks, hasks, hlevel, hfinish⟩ :=
      (h.kept.course place x hx).marks_eq
    refine ⟨level, refusals, asks, finish, hmarks, hasks.imp_right ?_, hlevel, hfinish⟩
    rintro ⟨hnone, now, rfl⟩
    obtain ⟨before, after, hhist, hremembers⟩ := h.answered place x hx now x.came.user (by
      rw [hmarks]
      simp)
    -- The level of the attempts is the one that the call remembers, which is one of the queue.
    have hsame := hlevel _ (.inr hremembers)
    rw [min_eq_left (Nat.min_le_right _ _)] at hsame
    exact ⟨hnone, now, before, after, rfl, hhist, hsame, hsame ▸ hremembers⟩
  · intro s t hist h hquiet caller
    refine ⟨hist.countP (Entry.charges caller), h.acceptedOf caller, ?_, fun value hexact => ?_⟩
    · rw [h.ranking, count_replay hist _ hquiet]
    · rw [h.ranking, count_replay hist _ hquiet]
      exact iterate_exact value (· + Scalar.one) _ _ hexact

end Quiet

/-- A queue of two levels with space for one call each, and no calls counted. -/
def uncounted : FairQueue (DecayRanking Float) Call where
  scope := "calls"
  levels := [Fifo.new FairQueue.kind 1, Fifo.new FairQueue.kind 1]
  ranking := ⟨2, [Scalar.one], Scalar.one, 1000, Table.empty, Scalar.zero, 0⟩
  turn := RoundRobin.new [1, 1]
  tokens := 0

/-- Two calls of one caller that are sent to the same level. The first one is accepted, and the second one
is tried twice in vain. -/
def twoCalls : List (Entry (DecayRanking Float)) × Reception (DecayRanking Float) :=
  [0, 0, 1, 1, 1, 1].foldl (Reception.goOn 0)
    ([], ⟨uncounted, [⟨⟨1, "user", "call", some 1⟩, .ready ⟨1, "user", "call", some 1⟩⟩,
      ⟨⟨2, "user", "call", some 5⟩, .ready ⟨2, "user", "call", some 5⟩⟩]⟩)

/-- The refusals of the second call are at the level of the first, and only the first one is counted. -/
theorem ranked_and_charged_once_of_twoCalls :
    Reception.Goes ⟨uncounted, []⟩ twoCalls.1 twoCalls.2 ∧
      (∀ x ∈ twoCalls.1, x.IsQuiet uncounted.ranking) ∧
      (∃ refusals, marksOf 1 twoCalls.1 = List.replicate refusals (.tried 1 false)) ∧
      twoCalls.2.queue.ranking.count "user" = uncounted.ranking.count "user" + Scalar.one := by
  have hfirst : Reception.Goes ⟨uncounted, []⟩ [] ⟨uncounted, _⟩ :=
    .step _ _ _ _ .refl (.come uncounted [] ⟨1, "user", "call", some 1⟩)
  have hsecond : Reception.Goes ⟨uncounted, []⟩ [] ⟨uncounted, _⟩ :=
    .step _ _ _ _ hfirst (.come uncounted _ ⟨2, "user", "call", some 5⟩)
  have hgoes : Reception.Goes ⟨uncounted, []⟩ twoCalls.1 twoCalls.2 :=
    Reception.Goes.goOn (r := ([], ⟨uncounted, _⟩)) hsecond 0 [0, 0, 1, 1, 1, 1]
  have hquiet : ∀ x ∈ twoCalls.1, x.IsQuiet uncounted.ranking := by
    have hhist : twoCalls.1 = [.mark 0 (.tried 1 true), .mark 0 (.asked (.charge 0 "user")),
        .mark 1 (.tried 1 false), .mark 1 (.tried 1 false)] := rfl
    rw [hhist]
    simp [Entry.IsQuiet, DecayRanking.IsDue, Query.now, uncounted]
  obtain ⟨-, hcourse, -, hcount⟩ := ranked_and_charged_once (F := Float)
  refine ⟨hgoes, hquiet, ?_, ?_⟩
  · obtain ⟨level, refusals, asks, finish, hmarks, hasks, hlevel, hfinish⟩ :=
      (hcourse uncounted _ _ hgoes).2 1 ⟨⟨2, "user", "call", some 5⟩, .ready ⟨2, "user", "call", some 5⟩⟩ rfl
    obtain rfl : asks = [] := hasks.elim And.left fun h => nomatch h.1
    obtain rfl : level = 1 := hlevel 5 (.inl rfl)
    obtain rfl : finish = [] := hfinish.elim And.left fun ⟨⟨c, hc⟩, _⟩ => nomatch hc
    exact ⟨refusals, by simpa using hmarks⟩
  · obtain ⟨n, haccepted, hcounted, -⟩ := hcount ⟨uncounted, []⟩ _ _ hgoes hquiet "user"
    obtain rfl : n = 1 := by
      have hone : acceptedOf "user" twoCalls.2.errands = 1 := rfl
      rw [hone] at haccepted
      simpa [acceptedOf] using haccepted.symm
    exact hcounted

end Allotment
