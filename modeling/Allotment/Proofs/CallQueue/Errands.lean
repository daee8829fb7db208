import Allotment.Proofs.CallQueue.Lanes

/-!
# Calls that are tried until they are accepted

A caller whose call is refused gets it back and may try again, and in the meantime others come and go.
Each attempt is made of two steps: a level is looked up for the call, and then, perhaps after some time,
the call is placed on it and its caller is charged, or the call is handed back. A history lists what the
ranking of callers is asked in these steps, by running them with a ranking that keeps a list of it, and
what comes of each attempt.

Whatever happens between the steps, a call that came with a level keeps that, and for any other call the
ranking is asked for a level once, before the first attempt. All attempts go to the same level, and the
one that is accepted is the last one and the only one that is charged.
-/

namespace Allotment

/-- What a ranking is asked: to choose a level for a caller, or to charge one. -/
inductive Query where
  | rank (now : ℕ) (caller : String)
  | charge (now : ℕ) (caller : String)

/-- A ranking together with what it was asked. -/
structure WatchedRanking (σ : Type) where
  ranking : σ
  asked : List Query

instance {σ : Type} [Ranking σ] : Ranking (WatchedRanking σ) where
  levels w := Ranking.levels w.ranking
  rank w now caller :=
    ((Ranking.rank w.ranking now caller).1,
      ⟨(Ranking.rank w.ranking now caller).2, w.asked ++ [.rank now caller]⟩)
  charge w now caller := ⟨Ranking.charge w.ranking now caller, w.asked ++ [.charge now caller]⟩

/-- A queue whose ranking is watched from now on. -/
def FairQueue.watched {σ E : Type} (q : FairQueue σ E) : FairQueue (WatchedRanking σ) E :=
  ⟨q.scope, q.levels, ⟨q.ranking, []⟩, q.turn, q.tokens⟩

/-- Where a call stands with a fair queue: its caller has it in hand, or it waits for space on a level,
or it was accepted. -/
inductive Stage where
  | ready (c : Call)
  | waiting (level : ℕ) (c : Call)
  | accepted (c : Call)

/-- The call with the level that it remembers by now. -/
def Stage.call : Stage → Call
  | ready c | waiting _ c | accepted c => c

/-- What an attempt or its first step leaves behind in a history. -/
inductive Mark where
  | asked (x : Query)
  | tried (level : ℕ) (ok : Bool)

namespace Stage

variable {σ : Type} [Ranking σ]

/-- The next step of a call: its level is looked up, or it is placed on its level and its caller is
charged, or it is handed back. -/
def next? (q : FairQueue σ Call) (now : ℕ) : Stage → Option (FairQueue σ Call × Stage)
  | ready c => some ((q.levelFor now c).2.2, waiting (q.levelFor now c).1 (q.levelFor now c).2.1)
  | waiting level c => match q.placeAt? level c with
    | some q => some (q.accept now c.user, accepted c)
    | none => some (q, ready c)
  | accepted _ => none

/-- What the ranking is asked in the next step of a call. -/
def queries (q : FairQueue σ Call) (now : ℕ) (s : Stage) : List Query :=
  (s.next? q.watched now).elim [] fun r => r.1.ranking.asked

omit [Ranking σ] in
/-- The level at which the next step of a call makes an attempt, and whether that is accepted. -/
def tried? (q : FairQueue σ Call) : Stage → Option (ℕ × Bool)
  | waiting level c => some (level, (q.placeAt? level c).isSome)
  | _ => none

/-- What the next step of a call leaves behind in the history. -/
def marks (q : FairQueue σ Call) (now : ℕ) (s : Stage) : List Mark :=
  (s.tried? q).toList.map (fun p => .tried p.1 p.2) ++ (s.queries q now).map .asked

omit [Ranking σ] in
/-- The answer with which an attempt ends. -/
def answer : Stage → Except Call Unit
  | ready c => .error c
  | _ => .ok ()

/-- An insertion is made of the two steps of an attempt. -/
theorem put_eq (q : FairQueue σ Call) (chosen charged : ℕ) (c : Call) :
    ∃ looked r, (ready c).next? q chosen = some looked ∧ looked.2.next? looked.1 charged = some r ∧
      q.put chosen charged c = (r.1, r.2.answer) := by
  simp only [next?, FairQueue.put, Option.some.injEq, exists_and_left, exists_eq_left']
  cases (q.levelFor chosen c).2.2.placeAt? (q.levelFor chosen c).1 (q.levelFor chosen c).2.1 with
  | none => exact ⟨_, rfl, rfl⟩
  | some placed => exact ⟨_, rfl, rfl⟩

/-- The ranking is asked for a level if the call does not remember one. -/
theorem queries_ready (q : FairQueue σ Call) (now : ℕ) (c : Call) :
    (ready c).queries q now = if c.level.isSome then [] else [.rank now c.user] := by
  simp only [queries, next?, Option.elim_some, FairQueue.levelFor, Ranked.level?]
  cases c.level <;> rfl

omit [Ranking σ] in
/-- Placing a call does not depend on the ranking. -/
theorem placeAt?_watched (q : FairQueue σ Call) (level : ℕ) (c : Call) :
    q.watched.placeAt? level c = (q.placeAt? level c).map FairQueue.watched := by
  unfold FairQueue.placeAt? FairQueue.watched
  cases q.levels[level]? with
  | none => rfl
  | some l => cases hpush : l.push? c <;> simp [hpush]

/-- The ranking is asked to charge the caller of a call that is accepted. -/
theorem queries_waiting (q : FairQueue σ Call) (now level : ℕ) (c : Call) :
    (waiting level c).queries q now =
      if (q.placeAt? level c).isSome then [.charge now c.user] else [] := by
  simp only [queries, next?, placeAt?_watched]
  cases q.placeAt? level c <;> rfl

end Stage

/-- A call as it came and where it stands. -/
structure Errand where
  came : Call
  stage : Stage

/-- A fair queue and the calls that are brought to it, each at its own place. -/
structure Reception (σ : Type) where
  queue : FairQueue σ Call
  errands : List Errand

/-- What a history lists: a mark left by the call at a place, or a change of the ranking by others, such as
a decay out of turn. -/
inductive Entry (σ : Type) where
  | mark (place : ℕ) (m : Mark)
  | changed (f : σ → σ)

/-- What the call at a place left behind in a history. -/
def marksOf {σ : Type} (place : ℕ) (hist : List (Entry σ)) : List Mark :=
  hist.filterMap fun
    | .mark p m => if p = place then some m else none
    | .changed _ => none

namespace Reception

variable {σ : Type} [Ranking σ]

/-- One step: a call comes, the call at a place goes on, a call is taken out, or others change the
ranking. -/
inductive Step : Reception σ → List (Entry σ) → Reception σ → Prop where
  | come (q : FairQueue σ Call) (errands : List Errand) (c : Call) :
      Step ⟨q, errands⟩ [] ⟨q, errands ++ [⟨c, .ready c⟩]⟩
  | advance (q q' : FairQueue σ Call) (errands : List Errand) (now place : ℕ) (came : Call)
      (stage stage' : Stage) (hplace : errands[place]? = some ⟨came, stage⟩)
      (hnext : stage.next? q now = some (q', stage')) :
      Step ⟨q, errands⟩ ((stage.marks q now).map (.mark place)) ⟨q', errands.set place ⟨came, stage'⟩⟩
  | poll (q : FairQueue σ Call) (errands : List Errand) : Step ⟨q, errands⟩ [] ⟨q.poll.1, errands⟩
  | change (q : FairQueue σ Call) (errands : List Errand) (f : σ → σ) :
      Step ⟨q, errands⟩ [.changed f] ⟨{ q with ranking := f q.ranking }, errands⟩

/-- From a state through any number of steps to another, with the history of these steps, the oldest
entry first. -/
inductive Goes (s : Reception σ) : List (Entry σ) → Reception σ → Prop where
  | refl : Goes s [] s
  | step (hist new : List (Entry σ)) (t u : Reception σ) (hgoes : Goes s hist t) (hstep : Step t new u) :
      Goes s (hist ++ new) u

end Reception

/-! ## The course of a call -/

/-- Which level is chosen for a call, how the call is held from then on, and what the ranking was asked:
a call that came with a level keeps that, and for any other the ranking is asked once. -/
inductive Chosen (levels : ℕ) (came : Call) : ℕ → Call → List Query → Prop where
  | carried (level : ℕ) (h : came.level = some level) :
      Chosen levels came (min level (levels - 1)) came []
  | ranked (now level : ℕ) (h : came.level = none) (hlevel : level ≤ levels - 1) :
      Chosen levels came level { came with level := some level } [.rank now came.user]

/-- What a call has left behind, by where it stands: nothing before its first attempt, then the choice of
a level, some refusals at this level, and at last the acceptance and the charge. -/
inductive Course (levels : ℕ) (came : Call) : Stage → List Mark → Prop where
  | fresh : Course levels came (.ready came) []
  | waiting (level refusals : ℕ) (c : Call) (asks : List Query) (h : Chosen levels came level c asks) :
      Course levels came (.waiting level c)
        (asks.map .asked ++ List.replicate refusals (.tried level false))
  | refused (level refusals : ℕ) (c : Call) (asks : List Query) (h : Chosen levels came level c asks) :
      Course levels came (.ready c)
        (asks.map .asked ++ List.replicate (refusals + 1) (.tried level false))
  | accepted (level refusals now : ℕ) (c : Call) (asks : List Query)
      (h : Chosen levels came level c asks) :
      Course levels came (.accepted c)
        (asks.map .asked ++ List.replicate refusals (.tried level false) ++
          [.tried level true, .asked (.charge now came.user)])

section Course

variable {σ : Type} [Ranking σ] {levels : ℕ} {came : Call}

/-- A call is its caller's, whatever level it remembers. -/
theorem Chosen.user_eq {level : ℕ} {c : Call} {asks : List Query} (h : Chosen levels came level c asks) :
    c.user = came.user := by
  cases h <;> rfl

/-- The level that a call remembers leads to the level that was chosen for it. -/
theorem Chosen.remembers {level : ℕ} {c : Call} {asks : List Query}
    (h : Chosen levels came level c asks) :
    ∃ l, c.level = some l ∧ level = min l (levels - 1) := by
  cases h with
  | carried l hl => exact ⟨l, hl, rfl⟩
  | ranked now level hnone hlevel => exact ⟨level, rfl, (Nat.min_eq_left hlevel).symm⟩

/-- The ranking is asked for a level once for a call that came without one, and otherwise never. -/
theorem Chosen.asks_eq {level : ℕ} {c : Call} {asks : List Query} (h : Chosen levels came level c asks) :
    asks = [] ∧ came.level ≠ none ∨ came.level = none ∧ ∃ now, asks = [.rank now came.user] := by
  cases h with
  | carried l hl => exact .inl ⟨rfl, by simp [hl]⟩
  | ranked now level hnone hlevel => exact .inr ⟨hnone, now, rfl⟩

/-- The level is the one with which the call came or which it remembers by now, as far as there are
levels. -/
theorem Chosen.level_eq {level l : ℕ} {c : Call} {asks : List Query}
    (h : Chosen levels came level c asks) (hl : came.level = some l ∨ c.level = some l) :
    level = min l (levels - 1) := by
  cases h with
  | carried l' hl' =>
    have hcame : came.level = some l := hl.elim id id
    rw [Option.some.inj (hl'.symm.trans hcame)]
  | ranked now level hnone hlevel =>
    rcases hl with hcame | hcall
    · rw [hnone] at hcame
      contradiction
    · rw [← Option.some.inj hcall, Nat.min_eq_left hlevel]

/-- A call that remembers a level is sent to it, and nobody is asked. -/
theorem levelFor_of_level {q : FairQueue σ Call} {now l : ℕ} {c : Call} (h : c.level = some l) :
    q.levelFor now c = (min l (q.levels.length - 1), c, q) := by
  simp only [FairQueue.levelFor, Ranked.level?, h]

omit [Ranking σ] in
/-- A call without a level remembers the one that it gets. -/
theorem atLevel_of_none {c : Call} (h : c.level = none) (level : ℕ) :
    Ranked.atLevel c level = { c with level := some level } := by
  simp [Ranked.atLevel, Ranked.level?, Ranked.withLevel, h]

/-- The first look for a level chooses one. -/
theorem chosen_levelFor (q : FairQueue σ Call) (now : ℕ) (c : Call) :
    Chosen q.levels.length c (q.levelFor now c).1 (q.levelFor now c).2.1
      ((Stage.ready c).queries q now) := by
  rw [Stage.queries_ready]
  cases hlevel : c.level with
  | some l =>
    rw [levelFor_of_level hlevel]
    exact .carried l hlevel
  | none =>
    have hlast : (q.levelFor now c).1 ≤ q.levels.length - 1 := by
      rw [FairQueue.levelFor_level]
      exact Nat.min_le_right _ _
    rw [FairQueue.levelFor_element, atLevel_of_none hlevel]
    exact .ranked now _ hlevel hlast

/-- Each step of a call keeps its course. -/
theorem Course.next {q q' : FairQueue σ Call} {now : ℕ} {stage stage' : Stage} {marks : List Mark}
    (h : Course q.levels.length came stage marks) (hnext : stage.next? q now = some (q', stage')) :
    Course q.levels.length came stage' (marks ++ stage.marks q now) := by
  cases h with
  | fresh =>
    cases hnext
    simpa [Stage.marks, Stage.tried?] using Course.waiting _ 0 _ _ (chosen_levelFor q now came)
  | refused level refusals c asks hchosen =>
    obtain ⟨l, hl, rfl⟩ := hchosen.remembers
    rw [Stage.next?, levelFor_of_level hl] at hnext
    cases hnext
    simpa [Stage.marks, Stage.tried?, Stage.queries_ready, hl] using
      Course.waiting _ (refusals + 1) c asks hchosen
  | waiting level refusals c asks hchosen =>
    cases hplace : q.placeAt? level c with
    | none =>
      rw [Stage.next?, hplace] at hnext
      cases hnext
      simpa [Stage.marks, Stage.tried?, Stage.queries_waiting, hplace, List.replicate_succ'] using
        Course.refused level refusals c asks hchosen
    | some placed =>
      rw [Stage.next?, hplace] at hnext
      cases hnext
      simpa [Stage.marks, Stage.tried?, Stage.queries_waiting, hplace, hchosen.user_eq] using
        Course.accepted level refusals now c asks hchosen
  | accepted => cases hnext

omit [Ranking σ] in
/-- The marks of a course: one question for a level if the call came without one and has been tried, refusals
at one level, and an acceptance with one charge. -/
theorem Course.marks_eq {stage : Stage} {marks : List Mark} (h : Course levels came stage marks) :
    ∃ (level refusals : ℕ) (asks : List Query) (finish : List Mark),
      marks = asks.map .asked ++ List.replicate refusals (.tried level false) ++ finish ∧
      (asks = [] ∧ (came.level ≠ none ∨ stage = .ready came ∧ refusals = 0) ∨
        came.level = none ∧ ∃ now, asks = [.rank now came.user]) ∧
      (∀ l, came.level = some l ∨ stage.call.level = some l → level = min l (levels - 1)) ∧
      ((finish = [] ∧ ∀ c, stage ≠ .accepted c) ∨
        (∃ c, stage = .accepted c) ∧
          ∃ now, finish = [.tried level true, .asked (.charge now came.user)]) := by
  cases h with
  | fresh =>
    refine ⟨min (came.level.getD 0) (levels - 1), 0, [], [], rfl, .inl ⟨rfl, .inr ⟨rfl, rfl⟩⟩, ?_,
      .inl ⟨rfl, nofun⟩⟩
    rintro l (hl | hl) <;> rw [show came.level = some l from hl, Option.getD_some]
  | waiting level refusals c asks hchosen =>
    exact ⟨level, refusals, asks, [], (List.append_nil _).symm,
      hchosen.asks_eq.imp_left (.imp_right .inl), fun l => hchosen.level_eq, .inl ⟨rfl, nofun⟩⟩
  | refused level refusals c asks hchosen =>
    exact ⟨level, refusals + 1, asks, [], (List.append_nil _).symm,
      hchosen.asks_eq.imp_left (.imp_right .inl), fun l => hchosen.level_eq, .inl ⟨rfl, nofun⟩⟩
  | accepted level refusals now c asks hchosen =>
    exact ⟨level, refusals, asks, _, rfl, hchosen.asks_eq.imp_left (.imp_right .inl),
      fun l => hchosen.level_eq, .inr ⟨⟨c, rfl⟩, now, rfl⟩⟩

end Course

/-! ## Runs -/

/-- What a query makes of a ranking. -/
def Query.apply {σ : Type} [Ranking σ] : Query → σ → σ
  | rank now caller, r => (Ranking.rank r now caller).2
  | charge now caller, r => Ranking.charge r now caller

/-- What an entry of a history means for the ranking: an attempt alone means nothing. -/
def Entry.apply {σ : Type} [Ranking σ] : Entry σ → σ → σ
  | mark _ (.asked x), r => x.apply r
  | mark _ (.tried _ _), r => r
  | changed f, r => f r

/-- What a history makes of a ranking. -/
def replay {σ : Type} [Ranking σ] (hist : List (Entry σ)) (r : σ) : σ :=
  hist.foldl (fun r x => x.apply r) r

/-- Whether an entry charges a caller. -/
def Entry.charges {σ : Type} (caller : String) : Entry σ → Bool
  | mark _ (.asked (.charge _ charged)) => charged = caller
  | _ => false

/-- Whether a call of a caller was accepted. -/
def Errand.isAcceptedOf (caller : String) (x : Errand) : Bool :=
  match x.stage with
  | .accepted c => c.user = caller
  | _ => false

/-- The number of calls of a caller that were accepted. -/
def acceptedOf (caller : String) (errands : List Errand) : ℕ :=
  errands.countP (Errand.isAcceptedOf caller)

section Marks

variable {σ : Type}

theorem marksOf_append (place : ℕ) (earlier later : List (Entry σ)) :
    marksOf place (earlier ++ later) = marksOf place earlier ++ marksOf place later := by
  simp [marksOf]

theorem marksOf_map_mark (place other : ℕ) (marks : List Mark) :
    marksOf other (marks.map (.mark place) : List (Entry σ)) = if place = other then marks else [] := by
  by_cases h : place = other <;> simp [marksOf, List.filterMap_map, h]

theorem replay_append [Ranking σ] (earlier later : List (Entry σ)) (r : σ) :
    replay (earlier ++ later) r = replay later (replay earlier r) :=
  List.foldl_append

end Marks

namespace Stage

variable {σ : Type} [Ranking σ] {q q' : FairQueue σ Call} {now : ℕ} {stage stage' : Stage}

/-- A step of a call keeps the number of levels. -/
theorem length_of_next? (h : stage.next? q now = some (q', stage')) :
    q'.levels.length = q.levels.length := by
  cases stage with
  | ready c =>
    cases h
    rw [q.levels_levelFor]
  | waiting level c =>
    simp only [next?] at h
    split at h <;> cases h
    · rename_i placed hplace
      exact (FairQueue.of_placeAt? hplace).2.2.length
    · rfl
  | accepted c => cases h

omit [Ranking σ] in
/-- Placing a call does not change the ranking. -/
theorem ranking_of_placeAt? {level : ℕ} {c : Call} (h : q.placeAt? level c = some q') :
    q'.ranking = q.ranking := by
  unfold FairQueue.placeAt? at h
  split at h
  · contradiction
  · obtain ⟨l, -, rfl⟩ := Option.map_eq_some_iff.mp h
    rfl

/-- A step of a call makes of the ranking what its marks say. -/
theorem ranking_of_next? (h : stage.next? q now = some (q', stage')) (place : ℕ) :
    q'.ranking = replay ((stage.marks q now).map (.mark place)) q.ranking := by
  cases stage with
  | ready c =>
    cases h
    rw [marks, queries_ready]
    cases hlevel : c.level with
    | some l =>
      rw [levelFor_of_level hlevel]
      rfl
    | none =>
      simp only [FairQueue.levelFor, Ranked.level?, hlevel]
      rfl
  | waiting level c =>
    rw [marks, queries_waiting]
    cases hplace : q.placeAt? level c with
    | none =>
      rw [next?, hplace] at h
      cases h
      simp [tried?, replay, Entry.apply]
    | some placed =>
      rw [next?, hplace] at h
      cases h
      have hranking := ranking_of_placeAt? hplace
      simp [tried?, replay, Entry.apply, Query.apply, FairQueue.accept, hranking, hplace]
  | accepted c => cases h

/-- A step of a call leaves it the level that it remembers. -/
theorem level_of_next? (h : stage.next? q now = some (q', stage')) {l : ℕ}
    (hlevel : stage.call.level = some l) : stage'.call.level = some l := by
  cases stage with
  | ready c =>
    have hcall : c.level = some l := hlevel
    rw [next?, levelFor_of_level hcall] at h
    cases h
    exact hcall
  | waiting level c =>
    simp only [next?] at h
    split at h <;> cases h <;> exact hlevel
  | accepted c => cases h

/-- When the ranking is asked for a level in a step of a call, the call remembers the answer from then on, as
far as there are levels. -/
theorem level_of_rank (h : stage.next? q now = some (q', stage')) {asked : ℕ} {caller : String}
    (hasked : .asked (.rank asked caller) ∈ stage.marks q now) :
    stage.marks q now = [.asked (.rank asked caller)] ∧
      stage'.call.level =
        some (min (Ranking.rank q.ranking asked caller).1 (q.levels.length - 1)) := by
  cases stage with
  | ready c =>
    rw [marks, queries_ready] at hasked ⊢
    cases hlevel : c.level with
    | some l => simp [tried?, hlevel] at hasked
    | none =>
      obtain ⟨rfl, rfl⟩ : asked = now ∧ caller = c.user := by simpa [tried?, hlevel] using hasked
      refine ⟨by simp [tried?], ?_⟩
      cases h
      change (q.levelFor asked c).2.1.level = _
      rw [FairQueue.levelFor_element, atLevel_of_none hlevel, FairQueue.levelFor_level]
      simp only [Ranked.level?, hlevel, Option.getD_none]
      rfl
  | waiting level c =>
    rw [marks, queries_waiting] at hasked
    split at hasked <;> simp [tried?] at hasked
  | accepted c => cases h

/-- A step of a call charges a caller exactly if a call of the caller becomes an accepted one. -/
theorem charges_of_next? (h : stage.next? q now = some (q', stage')) (came : Call) (place : ℕ)
    (caller : String) :
    (if Errand.isAcceptedOf caller ⟨came, stage⟩ then 1 else 0) +
        ((stage.marks q now).map (.mark place) : List (Entry σ)).countP (Entry.charges caller) =
      if Errand.isAcceptedOf caller ⟨came, stage'⟩ then 1 else 0 := by
  cases stage with
  | ready c =>
    cases h
    rw [marks, queries_ready]
    cases c.level <;> rfl
  | waiting level c =>
    rw [marks, queries_waiting]
    cases hplace : q.placeAt? level c with
    | none =>
      rw [next?, hplace] at h
      cases h
      simp [tried?, Errand.isAcceptedOf, Entry.charges]
    | some placed =>
      rw [next?, hplace] at h
      cases h
      simp [tried?, Errand.isAcceptedOf, Entry.charges, hplace]
  | accepted c => cases h

end Stage

namespace Reception

variable {σ : Type} [Ranking σ] {s t u : Reception σ} {hist new : List (Entry σ)}

/-- Every step keeps the number of levels. -/
theorem Step.length (h : Step s new t) : t.queue.levels.length = s.queue.levels.length := by
  cases h with
  | come | change => rfl
  | advance q q' errands now place came stage stage' hplace hnext => exact Stage.length_of_next? hnext
  | poll q errands => exact q.poll_keeps.1

/-- Every step makes of the ranking what the history says. -/
theorem Step.ranking (h : Step s new t) : t.queue.ranking = replay new s.queue.ranking := by
  cases h with
  | come | change => rfl
  | advance q q' errands now place came stage stage' hplace hnext =>
    exact Stage.ranking_of_next? hnext place
  | poll q errands => exact q.poll_keeps.2

/-- Every step charges a caller as often as calls of the caller become accepted ones. -/
theorem Step.acceptedOf (h : Step s new t) (caller : String) :
    acceptedOf caller t.errands = acceptedOf caller s.errands + new.countP (Entry.charges caller) := by
  cases h with
  | come q errands c => simp [Allotment.acceptedOf, Errand.isAcceptedOf]
  | advance q q' errands now place came stage stage' hplace hnext =>
    obtain ⟨hlt, hget⟩ := List.getElem?_eq_some_iff.mp hplace
    have hcharges := Stage.charges_of_next? hnext came place caller
    have hcounted : Errand.isAcceptedOf caller ⟨came, stage⟩ = true →
        0 < errands.countP (Errand.isAcceptedOf caller) := fun haccepted =>
      List.countP_pos_iff.mpr ⟨_, List.getElem_mem hlt, hget ▸ haccepted⟩
    unfold Allotment.acceptedOf
    rw [List.countP_set hlt, hget, ← hcharges]
    by_cases haccepted : Errand.isAcceptedOf caller ⟨came, stage⟩ = true
    · have hpos := hcounted haccepted
      simp only [if_pos haccepted]
      omega
    · simp only [if_neg haccepted]
      omega
  | poll => rfl
  | change => rfl

/-- Any number of steps make of the ranking what the history says. -/
theorem Goes.ranking (h : Goes s hist t) : t.queue.ranking = replay hist s.queue.ranking := by
  induction h with
  | refl => rfl
  | step hist new t u hgoes hstep ih => rw [hstep.ranking, ih, replay_append]

/-- A caller is charged as often as calls of the caller are accepted. -/
theorem Goes.acceptedOf (h : Goes s hist t) (caller : String) :
    acceptedOf caller t.errands = acceptedOf caller s.errands + hist.countP (Entry.charges caller) := by
  induction h with
  | refl => rfl
  | step hist new t u hgoes hstep ih => rw [hstep.acceptedOf, ih, List.countP_append, add_assoc]

/-- What is so of the calls that were brought to a queue of some levels. -/
structure Kept (levels : ℕ) (hist : List (Entry σ)) (t : Reception σ) : Prop where
  length : t.queue.levels.length = levels
  course : ∀ place x, t.errands[place]? = some x → Course levels x.came x.stage (marksOf place hist)
  beyond : ∀ place, t.errands.length ≤ place → marksOf place hist = []

/-- Each step keeps the courses of all calls. -/
theorem Kept.step {levels : ℕ} (h : Kept levels hist t) (hstep : Step t new u) :
    Kept levels (hist ++ new) u := by
  have hlength := hstep.length.trans h.length
  cases hstep with
  | come q errands c =>
    rw [List.append_nil]
    refine ⟨hlength, ?_, fun place hplace => h.beyond place ?_⟩
    · intro place x hx
      rcases getElem?_append_singleton_cases hx with hx | ⟨rfl, rfl⟩
      · exact h.course place x hx
      · rw [h.beyond errands.length (Nat.le_refl _)]
        exact .fresh
    · rw [List.length_append, List.length_singleton] at hplace
      exact Nat.le_of_succ_le hplace
  | advance q q' errands now place came stage stage' hplace hnext =>
    refine ⟨hlength, ?_, ?_⟩
    · intro other x hx
      rw [marksOf_append, marksOf_map_mark]
      rcases getElem?_set_cases hx with ⟨rfl, rfl⟩ | ⟨hother, hx⟩
      · have hcourse := h.course other _ hplace
        rw [if_pos rfl]
        rw [← h.length] at hcourse ⊢
        exact hcourse.next hnext
      · rw [if_neg hother.symm, List.append_nil]
        exact h.course other x hx
    · intro other hbeyond
      rw [List.length_set] at hbeyond
      have hlt := (List.getElem?_eq_some_iff.mp hplace).1
      rw [marksOf_append, marksOf_map_mark, if_neg (by omega), List.append_nil]
      exact h.beyond other hbeyond
  | poll q errands => exact ⟨hlength, by simpa using h.course, by simpa using h.beyond⟩
  | change q errands f =>
    exact ⟨hlength, by simpa [marksOf] using h.course, by simpa [marksOf] using h.beyond⟩

/-- Calls that are brought to a queue keep their courses. -/
theorem Goes.kept {q : FairQueue σ Call} (h : Goes ⟨q, []⟩ hist t) : Kept q.levels.length hist t := by
  induction h with
  | refl => exact ⟨rfl, by simp, fun _ _ => rfl⟩
  | step hist new t u hgoes hstep ih => exact ih.step hstep

/-- Whether every answer that a ranking gave for a call in a history, being by then what the history had made
of it, is the level that the call remembers, as far as there are levels. -/
def Answered (levels : ℕ) (r : σ) (hist : List (Entry σ)) (t : Reception σ) : Prop :=
  ∀ place x, t.errands[place]? = some x → ∀ now caller,
    Mark.asked (.rank now caller) ∈ marksOf place hist → ∃ before after,
      hist = before ++ .mark place (.asked (.rank now caller)) :: after ∧
      x.stage.call.level = some (min (Ranking.rank (replay before r) now caller).1 (levels - 1))

/-- Each step keeps the answers that calls remember. -/
theorem Answered.step {levels : ℕ} {r : σ} (h : Answered levels r hist t) (hkept : Kept levels hist t)
    (hranking : t.queue.ranking = replay hist r) (hstep : Step t new u) :
    Answered levels r (hist ++ new) u := by
  intro other x hx asked caller hasked
  rw [marksOf_append, List.mem_append] at hasked
  cases hstep with
  | come q errands c =>
    obtain hasked | hasked := hasked
    · rcases getElem?_append_singleton_cases hx with hx | ⟨rfl, rfl⟩
      · rw [List.append_nil]
        exact h other x hx asked caller hasked
      · rw [hkept.beyond errands.length (Nat.le_refl _)] at hasked
        contradiction
    · contradiction
  | advance q q' errands now place came stage stage' hplace hnext =>
    rw [marksOf_map_mark] at hasked
    rcases getElem?_set_cases hx with ⟨rfl, rfl⟩ | ⟨hother, hx⟩
    · rw [if_pos rfl] at hasked
      obtain hasked | hasked := hasked
      · obtain ⟨before, after, rfl, hlevel⟩ := h other _ hplace asked caller hasked
        exact ⟨before, _, by rw [List.append_assoc, List.cons_append], Stage.level_of_next? hnext hlevel⟩
      · obtain ⟨hmarks, hlevel⟩ := Stage.level_of_rank hnext hasked
        rw [hmarks]
        rw [hranking, hkept.length] at hlevel
        exact ⟨hist, [], rfl, hlevel⟩
    · rw [if_neg hother.symm, or_iff_left List.not_mem_nil] at hasked
      obtain ⟨before, after, rfl, hlevel⟩ := h other x hx asked caller hasked
      exact ⟨before, _, by rw [List.append_assoc, List.cons_append], hlevel⟩
  | poll q errands =>
    rw [List.append_nil]
    exact h other x hx asked caller (hasked.resolve_right List.not_mem_nil)
  | change q errands f =>
    obtain ⟨before, after, rfl, hlevel⟩ :=
      h other x hx asked caller (hasked.resolve_right (by simp [marksOf]))
    exact ⟨before, _, by rw [List.append_assoc, List.cons_append], hlevel⟩

/-- Calls that are brought to a queue remember what the ranking answered. -/
theorem Goes.answered {q : FairQueue σ Call} (h : Goes ⟨q, []⟩ hist t) :
    Answered q.levels.length q.ranking hist t := by
  induction h with
  | refl => exact fun place x hx => by simp at hx
  | step hist new t u hgoes hstep ih => exact ih.step hgoes.kept hgoes.ranking hstep

/-- A history and a reception after the call at a place has gone on, if it can. -/
def goOn (now : ℕ) (r : List (Entry σ) × Reception σ) (place : ℕ) : List (Entry σ) × Reception σ :=
  match r.2.errands[place]? with
  | none => r
  | some x => match x.stage.next? r.2.queue now with
    | none => r
    | some (q, stage) =>
      (r.1 ++ (x.stage.marks r.2.queue now).map (.mark place),
        ⟨q, r.2.errands.set place ⟨x.came, stage⟩⟩)

/-- Calls that go on one after another take steps. -/
theorem Goes.goOn {r : List (Entry σ) × Reception σ} (h : Goes s r.1 r.2) (now : ℕ)
    (places : List ℕ) :
    Goes s (places.foldl (goOn now) r).1 (places.foldl (goOn now) r).2 := by
  refine List.foldlRecOn (motive := fun r => Goes s r.1 r.2) places (Reception.goOn now) h ?_
  intro r hr place _
  unfold Reception.goOn
  split
  · exact hr
  · rename_i x hplace
    split
    · exact hr
    · rename_i q stage hnext
      exact .step _ _ _ _ hr (.advance r.2.queue q r.2.errands now place x.came x.stage stage hplace hnext)

end Reception

end Allotment
