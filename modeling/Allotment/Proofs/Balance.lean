import Allotment.Proofs.Double.Arithmetic
import Allotment.Proofs.Queue.Waiting
import Allotment.Proofs.Queue.Victim
import Allotment.Proofs.Scheduler.Choice

/-!
# The books of an application

An application computes in doubles what a request waits for, and takes it off one container at a time.
As long as the requests together ask for no more than doubles count exactly, and what the containers have
together is a machine integer, nothing is lost on the way: what is accounted as used is what the containers
have, and what is accounted as pending is what the requests still ask for. The demand is the sum of both,
which stops at the largest amount as all sums of resources do.
-/

namespace Allotment

/-! ## Multiples of amounts -/

/-- A multiple that doubles count exactly is exact. -/
theorem Amount.toNat_scale {a : Amount} {n : ℕ} (h : a.toNat * n ≤ 2 ^ 53) :
    (Amount.scale a (Scalar.ofUInt64 n.toUInt64 : Float)).toNat = a.toNat * n := by
  have hfactor := Double.isFinite_ofUInt64 n.toUInt64
  have hproduct := Double.mul_eq (Double.isFinite_ofUInt64 a) hfactor
  have hvalue : Double.value (Scalar.ofUInt64 a : Float) * Double.value (Scalar.ofUInt64 n.toUInt64 : Float) =
      ((a.toNat * n : ℕ) : ℚ) := by
    -- a factor that is too large for a machine integer is multiplied by zero
    obtain hzero | hpos := Nat.eq_zero_or_pos a.toNat
    · have hnothing := (Double.exactly_ofUInt64 (n := a) (by omega)).value_eq
      rw [hnothing, hzero, zero_mul, Nat.cast_zero, zero_mul]
    · have ha : a.toNat ≤ 2 ^ 53 ∨ n = 0 := by
        obtain hn | hn := Nat.eq_zero_or_pos n
        · exact .inr hn
        · exact .inl ((Nat.le_mul_of_pos_right _ hn).trans h)
      have hn : n ≤ 2 ^ 53 := (Nat.le_mul_of_pos_left _ hpos).trans h
      have hcast : n.toUInt64.toNat = n := Nat.mod_eq_of_lt (by omega)
      have hcount := (Double.exactly_ofUInt64 (n := n.toUInt64) (by omega)).value_eq
      rw [hcount, hcast]
      obtain ha | rfl := ha
      · rw [(Double.exactly_ofUInt64 ha).value_eq, Nat.cast_mul]
      · rw [Nat.cast_zero, mul_zero, Nat.mul_zero, Nat.cast_zero]
  have hexact : Double.Exactly (Scalar.ofUInt64 a * Scalar.ofUInt64 n.toUInt64 : Float) (a.toNat * n : ℕ) := by
    rw [hvalue] at hproduct
    simpa using Double.exactly_of_rounded (e := 0) (by simpa using hproduct) h (by norm_num) (by norm_num)
  have hlimit : ¬ Scalar.le (Scalar.ofUInt64 limit)
      (Scalar.ofUInt64 a * Scalar.ofUInt64 n.toUInt64 : Float) = true := by
    rw [Double.le_iff_value_le (Double.ofUInt64_eq limit).1 hexact.number, hexact.value_eq, not_le]
    calc ((a.toNat * n : ℕ) : ℚ)
      _ ≤ 2 ^ 53 := by exact_mod_cast h
      _ < 2 ^ (63 : ℤ) := by norm_num
      _ ≤ Double.value (Scalar.ofUInt64 limit) := by
        rw [(Double.ofUInt64_eq limit).2]
        exact (Double.isDouble_two_zpow (by norm_num)).le_nearest (by rw [limit_toNat]; norm_num)
  unfold Amount.scale
  dsimp only
  rw [if_neg hlimit]
  split
  · rename_i hle
    rw [Double.le_iff_value_le hexact.number Double.exactly_zero.number, hexact.value_eq,
      Double.exactly_zero.value_eq] at hle
    exact (Nat.le_zero.mp (by exact_mod_cast hle)).symm
  · rw [Double.toNat_toUInt64, hexact.value_eq, Nat.floor_natCast]
    omega

/-- What a request asks for in a dimension, all its containers together. -/
def Request.amount (r : Request) (d : Dimension) : ℕ := (r.capability.get d).toNat * r.count

/-- What doubles count exactly is accounted for as it is asked for. -/
theorem Request.toNat_outstanding {r : Request} {d : Dimension} (h : r.amount d ≤ 2 ^ 53) :
    ((r.outstanding Float).get d).toNat = r.amount d := by
  cases d <;> exact Amount.toNat_scale h

/-! ## What requests ask for -/

/-- What the requests of a table ask for together in a dimension. -/
def totalAsked (requests : Table ℕ Request) (d : Dimension) : ℕ :=
  (requests.entries.map fun e => e.2.amount d).sum

section Asked

variable {requests : Table ℕ Request} {k : ℕ} {r : Request} (d : Dimension)

/-- A request under some priority asks for its part. -/
theorem totalAsked_of_get? (h : requests.get? k = some r) :
    totalAsked requests d = r.amount d + totalAsked (requests.erase k) d := by
  have hsum := ((Table.entries_perm_of_get? h).map fun e => e.2.amount d).sum_nat
  rwa [List.map_cons, List.sum_cons] at hsum

/-- A request takes the place of the one that has its priority. -/
theorem totalAsked_insert (requests : Table ℕ Request) (k : ℕ) (r : Request) :
    totalAsked (requests.insert k r) d = r.amount d + totalAsked (requests.erase k) d := by
  have hsum := ((requests.entries_insert_perm k r).map fun e => e.2.amount d).sum_nat
  rwa [List.map_cons, List.sum_cons] at hsum

end Asked

namespace Attempt

/-! ## Balanced books -/

section Books

variable {F : Type}

/-- What the containers of an application have together in a dimension. -/
def held (a : Attempt F) (d : Dimension) : ℕ := (a.live.map fun c => (c.resource.get d).toNat).sum

/-- Whether the requests of an application ask for no more than doubles count exactly, and its containers
have no more than an amount can be. -/
def Moderate (a : Attempt F) : Prop := ∀ d, totalAsked a.requests d ≤ 2 ^ 53 ∧ a.held d < 2 ^ 64

/-- Giving containers back leaves an application moderate. -/
theorem Moderate.of_sublist {a b : Attempt F} (h : a.Moderate) (hrequests : b.requests = a.requests)
    (hlive : b.live.Sublist a.live) : b.Moderate := by
  intro d
  have hheld : b.held d ≤ a.held d := (hlive.map _).sum_le_sum fun n _ => Nat.zero_le n
  rw [hrequests]
  exact ⟨(h d).1, hheld.trans_lt (h d).2⟩

/-- Whether the books of an application agree with its containers and requests, when containers are
numbered from some number on: what it uses is what the containers have, what it waits for is what the
requests ask for, these are filed, the numbers of the containers ascend, and it remembers no container to
have been asked back that it does not hold. -/
structure Balanced (next : ℕ) (a : Attempt F) : Prop where
  used : ∀ d, (a.usage.used.get d).toNat = a.held d
  pending : ∀ d, (a.usage.pending.get d).toNat = totalAsked a.requests d
  filed : a.Filed
  ascending : a.live.Pairwise fun c c' => c.id < c'.id
  lt_next : ∀ c ∈ a.live, c.id < next
  recalled : ∀ i ∈ a.preempting, ∃ c ∈ a.live, c.id = i

variable {next next' : ℕ} {a : Attempt F}

/-- What an application holds that has received a container. -/
theorem Receives.held_eq {b : Attempt F} {r : Request} {c : Container} (h : a.Receives b r c)
    (d : Dimension) : b.held d = a.held d + (c.resource.get d).toNat := by
  rw [held, held, h.live, List.map_append, List.sum_append_nat, List.map_singleton, List.sum_singleton]

/-- What an application asked for before it received a container. -/
theorem Receives.totalAsked_eq {b : Attempt F} {r : Request} {c : Container} (h : a.Receives b r c)
    (hpos : 0 < r.count) (d : Dimension) :
    totalAsked a.requests d = totalAsked b.requests d + (r.capability.get d).toNat := by
  have hless : r.amount d = (r.capability.get d).toNat * (r.count - 1) + (r.capability.get d).toNat := by
    rw [← Nat.mul_succ, Nat.succ_eq_add_one, Nat.sub_add_cancel hpos, Request.amount]
  rw [totalAsked_of_get? d h.asked, h.requests_eq, takeOne, hless]
  split
  · rename_i hone
    rw [hone, Nat.sub_self, Nat.mul_zero, Nat.zero_add, Nat.add_comm]
  · rw [totalAsked_insert, Request.amount, Nat.add_right_comm]

/-- The numbers of containers do not repeat. -/
theorem Balanced.nodup (h : a.Balanced next) : (a.live.map Container.id).Nodup := by
  rw [List.Nodup, List.pairwise_map]
  exact h.ascending.imp Nat.ne_of_lt

/-- Numbers may be left out. -/
theorem Balanced.mono (h : a.Balanced next) (hle : next ≤ next') : a.Balanced next' :=
  { h with lt_next := fun c hc => (h.lt_next c hc).trans_le hle }

/-- The books of an application that has received a container stay balanced. -/
theorem Balanced.receive {b : Attempt F} {r : Request} {c : Container} (h : a.Balanced next)
    (hreceives : a.Receives b r c) (hpos : 0 < r.count) (hcapability : c.resource = r.capability)
    (hnumber : next ≤ c.id) (hfiled : b.Filed) (hafter : b.Moderate) : b.Balanced (c.id + 1) := by
  have hbelow : ∀ c' ∈ a.live, c'.id < c.id := fun c' hc' => (h.lt_next c' hc').trans_le hnumber
  refine ⟨fun d => ?_, fun d => ?_, hfiled, ?_, ?_, ?_⟩
  · have hbound := (hafter d).2
    rw [hreceives.held_eq] at hbound ⊢
    rw [hreceives.used, Resource.toNat_get_add, h.used, Amount.limit_toNat]
    omega
  · rw [hreceives.pending, Resource.toNat_get_sub, h.pending, hreceives.totalAsked_eq hpos, hcapability,
      Nat.add_sub_cancel]
  · rw [hreceives.live, List.pairwise_append]
    refine ⟨h.ascending, List.pairwise_singleton _ _, fun c' hc' d hd => ?_⟩
    rw [List.mem_singleton.mp hd]
    exact hbelow c' hc'
  · rw [hreceives.live]
    intro c' hc'
    obtain hc' | hc' := List.mem_append.mp hc'
    · exact Nat.lt_succ_of_lt (hbelow c' hc')
    · rw [List.mem_singleton.mp hc']
      exact Nat.lt_succ_self _
  · intro i hi
    rw [hreceives.rest] at hi
    obtain ⟨c', hc', hid⟩ := h.recalled i hi
    rw [hreceives.live]
    exact ⟨c', List.mem_append_left _ hc', hid⟩

/-- The books of an application that was asked for a container stay balanced. -/
theorem Balanced.preempt (h : a.Balanced next) : a.preempt.1.Balanced next := by
  obtain ⟨hsame, -⟩ | ⟨c, hmarked, hvictim⟩ := a.preempt_cases
  · rw [hsame]
    exact h
  · rw [hmarked]
    refine { h with recalled := fun i hi => ?_ }
    obtain rfl | hi := List.mem_cons.mp hi
    · exact ⟨c, hvictim.live, rfl⟩
    · exact h.recalled i hi

/-- What an application is that has given a container back. -/
theorem release_of_find? {i : ℕ} {c : Container} (hfound : a.live.find? (fun c => c.id = i) = some c) :
    (a.release i).1 = { a with
      live := a.live.eraseP fun c => c.id = i
      preempting := a.preempting.filter (· ≠ i)
      usage := a.usage.dropUsed c.resource } := by
  rw [Attempt.release, hfound]

/-- What an application held before it gave a container back. -/
theorem held_release {i : ℕ} {c : Container} (hfound : a.live.find? (fun c => c.id = i) = some c)
    (d : Dimension) : a.held d = (c.resource.get d).toNat + (a.release i).1.held d := by
  obtain ⟨hid, before, after, hsplit, hbefore⟩ := List.find?_eq_some_iff_append.mp hfound
  have hrest : a.live.eraseP (fun c => c.id = i) = before ++ after := by
    rw [hsplit, List.eraseP_append_right _ (by simpa using hbefore), List.eraseP_cons_of_pos (by exact hid)]
  rw [held, held, release_of_find? hfound]
  dsimp only
  rw [hrest, hsplit]
  simp only [List.map_append, List.map_cons, List.sum_append_nat, List.sum_cons]
  omega

/-- The books of an application that gives a container back stay balanced. -/
theorem Balanced.release (h : a.Balanced next) (i : ℕ) : (a.release i).1.Balanced next := by
  have hlive := live_release h.nodup i
  cases hfound : a.live.find? fun c => c.id = i with
  | none =>
    have hsame : a.release i = (a, none) := by rw [Attempt.release, hfound]
    rw [hsame]
    exact h
  | some c =>
    have hgiven := release_of_find? hfound
    refine ⟨fun d => ?_, fun d => ?_, h.filed.congr (by rw [hgiven]), ?_, ?_, ?_⟩
    · have hused := h.used d
      rw [held_release hfound] at hused
      rw [hgiven]
      dsimp only
      rw [Usage.used_dropUsed, Resource.toNat_get_sub, hused, Nat.add_sub_cancel_left, hgiven]
    · rw [hgiven]
      dsimp only
      rw [Usage.pending_dropUsed, h.pending]
    · rw [hlive]
      exact h.ascending.filter _
    · rw [hlive]
      exact fun c hc => h.lt_next c (List.mem_filter.mp hc).1
    · intro j hj
      rw [hgiven, List.mem_filter, decide_eq_true_eq] at hj
      obtain ⟨c, hc, hcj⟩ := h.recalled j hj.1
      rw [hlive]
      exact ⟨c, List.mem_filter.mpr ⟨hc, by rw [hcj]; exact decide_eq_true hj.2⟩, hcj⟩

/-- What is used once containers were given back one after another. -/
theorem used_dropAll (cs : List Container) (u : Usage) (d : Dimension) :
    ((cs.foldl (fun u c => u.dropUsed c.resource) u).used.get d).toNat =
        (u.used.get d).toNat - (cs.map fun c => (c.resource.get d).toNat).sum ∧
      (cs.foldl (fun u c => u.dropUsed c.resource) u).pending = u.pending := by
  induction cs generalizing u with
  | nil => exact ⟨(Nat.sub_zero _).symm, rfl⟩
  | cons c rest ih =>
    obtain ⟨hused, hpending⟩ := ih (u.dropUsed c.resource)
    rw [List.foldl_cons, hused, hpending, Usage.used_dropUsed, Usage.pending_dropUsed,
      Resource.toNat_get_sub, List.map_cons, List.sum_cons, Nat.sub_add_eq]
    exact ⟨rfl, rfl⟩

/-- The books of an application that gives everything back stay balanced. -/
theorem Balanced.releaseAll (h : a.Balanced next) : a.releaseAll.1.Balanced next where
  used d := by
    change ((a.live.foldl _ a.usage).used.get d).toNat = 0
    rw [(used_dropAll _ _ d).1, h.used, held, Nat.sub_self]
  pending d := by
    change ((a.live.foldl _ a.usage).pending.get d).toNat = totalAsked a.requests d
    rw [(used_dropAll _ _ d).2, h.pending]
  filed := h.filed.congr rfl
  ascending := .nil
  lt_next _ hc := absurd hc List.not_mem_nil
  recalled _ hi := absurd hi List.not_mem_nil

end Books

variable {next : ℕ} {a : Attempt Float}

/-- The application without its request of some priority. -/
def withdraw (a : Attempt Float) (k : ℕ) : Attempt Float :=
  { a with
    usage := match a.requests.get? k with
      | some previous => a.usage.dropPending (previous.outstanding Float)
      | none => a.usage
    requests := a.requests.erase k }

/-- The application with a request more. -/
def file (a : Attempt Float) (r : Request) : Attempt Float :=
  { a with
    usage := a.usage.addPending (r.outstanding Float)
    requests := a.requests.insert r.priority r }

/-- Asking for something is taking back what was asked for under that priority, and then asking anew
unless for nothing. -/
theorem ask_eq (a : Attempt Float) (r : Request) : a.ask r =
    if r.count = 0 then a.withdraw r.priority else (a.withdraw r.priority).file r := by
  unfold ask
  dsimp only
  by_cases hcount : r.count = 0
  · rw [if_pos hcount, if_pos hcount]
    rfl
  · rw [if_neg hcount, if_neg hcount]
    rfl

/-- The books stay balanced when the request of a priority is taken back. -/
theorem Balanced.withdraw (h : a.Balanced next) (hmoderate : a.Moderate) (k : ℕ) :
    (a.withdraw k).Balanced next := by
  unfold Attempt.withdraw
  have hfiled : ∀ e ∈ (a.requests.erase k).entries, e.2.priority = e.1 ∧ 0 < e.2.count :=
    fun e he => h.filed e (List.mem_filter.mp he).1
  cases hfound : a.requests.get? k with
  | none =>
    rw [Table.erase_of_get?_eq_none hfound] at hfiled ⊢
    exact { h with }
  | some previous =>
    refine ⟨fun d => ?_, fun d => ?_, hfiled, h.ascending, h.lt_next, h.recalled⟩
    · rw [Usage.used_dropPending, h.used]
      rfl
    · have hsplit := totalAsked_of_get? d hfound
      have hbound := (hmoderate d).1
      rw [Usage.pending_dropPending, Resource.toNat_get_sub, h.pending,
        Request.toNat_outstanding (by omega), hsplit, Nat.add_sub_cancel_left]

/-- The books stay balanced when something is asked for under a priority that had no request. -/
theorem Balanced.file (h : a.Balanced next) {r : Request} (hfree : a.requests.get? r.priority = none)
    (hpos : 0 < r.count) (hafter : (a.file r).Moderate) : (a.file r).Balanced next := by
  have hfiled : (a.file r).Filed := by
    intro e he
    obtain rfl | he := Table.mem_insertEntry he
    · exact ⟨rfl, hpos⟩
    · exact h.filed e he
  have hasked : ∀ d, totalAsked (a.file r).requests d = r.amount d + totalAsked a.requests d := by
    intro d
    rw [Attempt.file, totalAsked_insert, Table.erase_of_get?_eq_none hfree]
  refine ⟨fun d => ?_, fun d => ?_, hfiled, h.ascending, h.lt_next, h.recalled⟩
  · rw [Attempt.file, Usage.used_addPending, h.used]
    rfl
  · have hbound := (hafter d).1
    rw [hasked] at hbound ⊢
    rw [Attempt.file, Usage.pending_addPending, Resource.toNat_get_add, h.pending,
      Request.toNat_outstanding (by omega), Amount.limit_toNat]
    omega

/-- The books of an application that asks for something else stay balanced. -/
theorem Balanced.ask (h : a.Balanced next) (hbefore : a.Moderate) (r : Request)
    (hafter : (a.ask r).Moderate) : (a.ask r).Balanced next := by
  have hback := h.withdraw hbefore r.priority
  rw [ask_eq] at hafter ⊢
  by_cases hcount : r.count = 0
  · rw [if_pos hcount]
    exact hback
  · rw [if_neg hcount] at hafter ⊢
    refine hback.file ?_ (Nat.pos_of_ne_zero hcount) hafter
    rw [Attempt.withdraw, Table.get?_erase, if_pos rfl]

/-- The books of an application that was offered a node stay balanced. -/
theorem Balanced.assign (h : a.Balanced next) (p : Placement Float) (hnext : next ≤ p.nextContainer)
    (hafter : (a.assign p).subject.Moderate) :
    (a.assign p).subject.Balanced (a.assign p).placement.nextContainer := by
  have hfiled := h.filed.assign p
  cases heligible : a.eligible? p.node.available with
  | none =>
    rw [assign_of_none heligible]
    exact h.mono hnext
  | some r =>
    have hmem := (h.filed.firstFit heligible).mem
    rw [assign_eq_receive heligible] at hafter hfiled ⊢
    exact h.receive (h.filed.receives hmem p.node.id p.nextContainer) (h.filed.count_pos hmem) rfl hnext
      hfiled hafter

/-! ## Histories -/

/-- The histories of an application on its own, with the number of the next container: what is asked for
and what is received stays moderate, nodes are any nodes, and others may have taken numbers in between. -/
inductive History : ℕ → Attempt Float → Prop where
  | new (id user queue : String) (priority serial next : ℕ) :
    History next (new id user queue priority serial)
  | ask {next : ℕ} {a : Attempt Float} (h : History next a) (r : Request)
    (hmoderate : (a.ask r).Moderate) : History next (a.ask r)
  | assign {next : ℕ} {a : Attempt Float} (h : History next a) (p : Placement Float)
    (hnext : next ≤ p.nextContainer) (hmoderate : (a.assign p).subject.Moderate) :
    History (a.assign p).placement.nextContainer (a.assign p).subject
  | preempt {next : ℕ} {a : Attempt Float} (h : History next a) : History next a.preempt.1
  | release {next : ℕ} {a : Attempt Float} (h : History next a) (container : ℕ) :
    History next (a.release container).1
  | releaseAll {next : ℕ} {a : Attempt Float} (h : History next a) : History next a.releaseAll.1
  | updateDemand {next : ℕ} {a : Attempt Float} (h : History next a) : History next a.updateDemand

/-- An application stays moderate on the way. -/
theorem History.moderate (h : History next a) : a.Moderate := by
  induction h with
  | new id user queue priority serial next => exact fun d => ⟨Nat.zero_le _, Nat.two_pow_pos 64⟩
  | ask _ r hmoderate _ => exact hmoderate
  | assign _ p _ hmoderate _ => exact hmoderate
  | @preempt next a _ ih =>
    obtain ⟨hsame, -⟩ | ⟨c, hmarked, -⟩ := a.preempt_cases
    · rw [hsame]
      exact ih
    · rw [hmarked]
      exact ih.of_sublist rfl (List.Sublist.refl _)
  | release _ container ih =>
    unfold Attempt.release
    split
    · exact ih
    · exact ih.of_sublist rfl List.eraseP_sublist
  | releaseAll _ ih => exact ih.of_sublist rfl (List.nil_sublist _)
  | updateDemand _ ih => exact ih.of_sublist rfl (List.Sublist.refl _)

/-- The books of an application are balanced all the way. -/
theorem History.balanced (h : History next a) : a.Balanced next := by
  induction h with
  | new id user queue priority serial next =>
    refine ⟨fun d => ?_, fun d => ?_, fun e he => absurd he List.not_mem_nil, .nil,
      fun c hc => absurd hc List.not_mem_nil, fun i hi => absurd hi List.not_mem_nil⟩
    · cases d <;> rfl
    · cases d <;> rfl
  | ask h r hmoderate ih => exact ih.ask h.moderate r hmoderate
  | assign _ p hnext hmoderate ih => exact ih.assign p hnext hmoderate
  | preempt _ ih => exact ih.preempt
  | release _ container ih => exact ih.release container
  | releaseAll _ ih => exact ih.releaseAll
  | updateDemand _ ih => exact { ih with filed := ih.filed.congr rfl }

/-- In every history of moderate requests and containers, what an application uses is the sum of its
containers, what it waits for is the sum of what its requests still ask for, and its demand, brought up to
date, is the sum of the two, at most the largest amount. Requests stand under their own priorities and ask
for something, the numbers of containers ascend, and containers asked back are among those held. -/
theorem History.books_balance (h : History next a) :
    (∀ d, (a.usage.used.get d).toNat = a.held d) ∧
    (∀ d, (a.usage.pending.get d).toNat = totalAsked a.requests d) ∧
    (a.updateDemand.demand = a.usage.used + a.usage.pending ∧
      ∀ d, (a.updateDemand.demand.get d).toNat =
        min (a.held d + totalAsked a.requests d) Amount.limit.toNat) ∧
    (∀ e ∈ a.requests.entries, e.2.priority = e.1 ∧ 1 ≤ e.2.count) ∧
    (a.live.Pairwise fun c c' => c.id < c'.id) ∧
    ∀ i ∈ a.preempting, ∃ c ∈ a.live, c.id = i := by
  have hbalanced := h.balanced
  refine ⟨hbalanced.used, hbalanced.pending, ⟨rfl, fun d => ?_⟩, hbalanced.filed, hbalanced.ascending,
    hbalanced.recalled⟩
  rw [Attempt.updateDemand, Resource.toNat_get_add, hbalanced.used, hbalanced.pending]

/-- A node that offers enough, and the number of the next container. -/
def spacious : Placement Float := ⟨Node.new "node" ⟨1024, 4⟩, 7, Table.empty⟩

/-- An application that has asked for two containers. -/
def asksTwo : Attempt Float := (Attempt.new "app" "user" "root.a" 0 1).ask ⟨1, ⟨512, 1⟩, 2⟩

/-- The application after it got one container and was asked for it, and then asked for three smaller ones
in place of the other. -/
def halfServed : Attempt Float := (asksTwo.assign spacious).subject.preempt.1.ask ⟨1, ⟨256, 2⟩, 3⟩

/-- The books of an application whose request was changed when it was half served. -/
theorem books_balance_of_halfServed : History 8 halfServed ∧
    (halfServed.usage.used.get .memory).toNat = 512 ∧ (halfServed.usage.pending.get .memory).toNat = 768 ∧
    (halfServed.updateDemand.demand.get .vcores).toNat = 7 ∧ halfServed.preempting = [7] := by
  have hasks : asksTwo.Moderate := fun d => by cases d <;> decide
  have hserved : (asksTwo.assign spacious).subject.Moderate := fun d => by cases d <;> decide
  have hhalf : halfServed.Moderate := fun d => by cases d <;> decide
  have hhistory : History 8 halfServed :=
    .ask (.preempt (.assign (.ask (.new _ _ _ _ _ 7) _ hasks) spacious (by decide) hserved)) _ hhalf
  obtain ⟨hused, hpending, ⟨-, hdemand⟩, -⟩ := hhistory.books_balance
  refine ⟨hhistory, ?_, ?_, ?_, ?_⟩
  · rw [hused]
    decide
  · rw [hpending]
    decide
  · rw [hdemand]
    decide
  · decide

end Attempt

end Allotment
