import Allotment.Metrics.Document
import Allotment.Proofs.Json.Double
import Allotment.Proofs.Json.Value
import Allotment.Proofs.Metrics

/-!
# Metrics read as they are written

Metrics are read back from their text exactly if each of their gauges is read back from its number. Names and
counters are read back whatever they are, and so are scopes with gauges only or with counters only. Gauges that
are set to whole numbers are read back up to a bound of about `9 * 10 ^ 14`.
-/

namespace Allotment

namespace Json.Value

/-! ## Records and tables -/

theorem entries?_ofFields (fields : List (String × Value)) :
    entries? (fields.map fun f => (some f.1, f.2)) = some fields := by
  rw [entries?, List.mapM_map]
  exact mapM_eq_some_iff.mpr (List.forall₂_same.mpr fun _ _ => rfl)

/-- An object that is written from a table is read as a table with the same keys, each value read from what was
written for it. -/
theorem table?_tableValue_iff {α β : Type} {read : ℕ → Value → Option β} {f : α → Value} {depth : ℕ}
    {t : Table String α} {t' : Table String β} :
    table? read (depth + 1) (Metrics.tableValue f t) = some t' ↔
      List.Forall₂ (fun e e' => e.1 = e'.1 ∧ read depth (f e.2) = some e'.2) t.entries t'.entries := by
  have hread : ∀ es, ((t.entries.map fun e => (e.1, f e.2)).mapM fun e =>
      (read depth e.2).map fun v => (e.1, v)) = some es ↔
        List.Forall₂ (fun e e' => e.1 = e'.1 ∧ read depth (f e.2) = some e'.2) t.entries es := by
    intro es
    rw [mapM_eq_some_iff, List.forall₂_map_left_iff]
    have hentry : ∀ (e : String × α) (e' : String × β),
        ((read depth (f e.2)).map fun v => (e.1, v)) = some e' ↔ e.1 = e'.1 ∧ read depth (f e.2) = some e'.2 := by
      rintro e ⟨k, v⟩
      rw [Option.map_eq_some_iff]
      constructor
      · rintro ⟨v, hv, h⟩
        cases h
        exact ⟨rfl, hv⟩
      · rintro ⟨hk, hv⟩
        exact ⟨v, hv, Prod.ext hk rfl⟩
    simp only [hentry]
  have hkeys : ∀ {es : List (String × β)},
      List.Forall₂ (fun e e' => e.1 = e'.1 ∧ read depth (f e.2) = some e'.2) t.entries es →
        t.entries.map (·.1) = es.map (·.1) := by
    intro es h
    rw [← List.forall₂_eq_eq_eq, List.forall₂_map_left_iff, List.forall₂_map_right_iff]
    exact h.imp fun _ _ h => h.1
  change ((entries? ((t.entries.map fun e => (e.1, f e.2)).map fun f => (some f.1, f.2))).bind fun entries =>
    (entries.mapM fun e => (read depth e.2).map fun v => (e.1, v)).bind fun es => some (Table.ofList es)) = _ ↔ _
  rw [entries?_ofFields, Option.bind_some, Option.bind_eq_some_iff]
  constructor
  · rintro ⟨es, hes, heq⟩
    rw [hread] at hes
    cases heq
    have hascending : es.Pairwise fun a b => a.1 < b.1 := by
      have h := List.pairwise_map.mpr t.ascending
      rw [hkeys hes] at h
      exact List.pairwise_map.mp h
    rwa [Table.ofList_of_ascending hascending]
  · intro h
    exact ⟨t'.entries, (hread _).mpr h, congrArg some (Table.ofList_of_ascending t'.ascending)⟩

/-- A table is read back exactly if each of its values is. -/
theorem table?_tableValue_self_iff {α : Type} {read : ℕ → Value → Option α} {f : α → Value} {depth : ℕ}
    {t : Table String α} :
    table? read (depth + 1) (Metrics.tableValue f t) = some t ↔ ∀ e ∈ t.entries, read depth (f e.2) = some e.2 := by
  rw [table?_tableValue_iff, List.forall₂_same]
  simp only [true_and]

/-- A record with one field has that field. -/
theorem record?_singleton (name : String) (v : Value) : record? [name] (ofFields [(name, v)]) = some [some v] := by
  simp [record?, ofFields, entries?]

/-- A record with two fields has both. -/
theorem record?_pair {name name' : String} (h : name ≠ name') (v v' : Value) :
    record? [name, name'] (ofFields [(name, v), (name', v')]) = some [some v, some v'] := by
  simp [record?, ofFields, entries?, h, h.symm]

end Json.Value

namespace Metrics

open Json (Value Number)

/-- A gauge is read back exactly if its number is. -/
theorem float?_gaugeValue_iff {x : Float} : (gaugeValue x).float? = some x ↔ Number.ReadsBack x := by
  unfold gaugeValue Number.ReadsBack
  cases Number.ofFloat? x <;> rfl

/-- Every counter is read back. -/
theorem nat?_ofNat (c : UInt64) : ((Value.ofNat c.toNat).nat?.map Nat.toUInt64) = some c := by
  have hlimit : c.toNat ≤ Number.machineLimit := Nat.le_of_lt_succ c.toNat_lt
  rw [Value.ofNat, Value.nat?, Number.ofNat, Number.toNat?, if_pos ⟨rfl, rfl, rfl, hlimit⟩, Option.map_some]
  exact congrArg some UInt64.ofNat_toNat

/-- A scope is read back exactly if its gauges are. -/
theorem Scope.ofValue?_toValue_iff {depth : ℕ} {s : Scope Float} :
    Scope.ofValue? (depth + 2) s.toValue = some s ↔ ∀ e ∈ s.gauges.entries, Number.ReadsBack e.2 := by
  have hgauges : Value.table? (fun _ => Value.float?) (depth + 1) (tableValue gaugeValue s.gauges) = some s.gauges ↔
      ∀ e ∈ s.gauges.entries, Number.ReadsBack e.2 := by
    simp only [Value.table?_tableValue_self_iff, float?_gaugeValue_iff]
  have hcounters : Value.table? (fun _ v => v.nat?.map Nat.toUInt64) (depth + 1)
      (tableValue (fun c => Value.ofNat c.toNat) s.counters) = some s.counters :=
    Value.table?_tableValue_self_iff.mpr fun e _ => nat?_ofNat e.2
  rw [← hgauges, Scope.ofValue?, Scope.toValue, Value.record?_pair (by decide)]
  dsimp only [Value.fieldOr]
  rw [hcounters, Option.bind_eq_bind, Option.bind_eq_some_iff]
  constructor
  · rintro ⟨gauges, hread, h⟩
    rw [hread]
    exact congrArg (fun s => some s.gauges) (Option.some.inj h)
  · exact fun hread => ⟨s.gauges, hread, rfl⟩

/-- Metrics are read back from their value exactly if each of their gauges is. -/
theorem ofValue?_toValue_iff {depth : ℕ} {m : Metrics Float} :
    ofValue? (depth + 4) m.toValue = some m ↔
      ∀ scope name x, m.gauge? scope name = some x → Number.ReadsBack x := by
  rw [ofValue?, toValue, Value.record?_singleton]
  change Value.table? Scope.ofValue? (depth + 3) (tableValue Scope.toValue m) = some m ↔ _
  simp only [Value.table?_tableValue_self_iff, Scope.ofValue?_toValue_iff]
  constructor
  · intro h scope name x hx
    obtain ⟨s, hs, hname⟩ := Option.bind_eq_some_iff.mp hx
    exact h (scope, s) (Table.get?_eq_some_iff.mp hs) (name, x) (Table.get?_eq_some_iff.mp hname)
  · intro h e he g hg
    exact h e.1 g.1 g.2 (Option.bind_eq_some_iff.mpr
      ⟨e.2, Table.get?_eq_some_iff.mpr he, Table.get?_eq_some_iff.mpr hg⟩)

/-- Metrics are read back from their text exactly if each of their gauges is read back from its number. -/
theorem ofText_toText_iff {m : Metrics Float} :
    ofText m.toText = .ok m ↔ ∀ scope name x, m.gauge? scope name = some x → Number.ReadsBack x := by
  rw [← @ofValue?_toValue_iff 123, ofText, toText, Value.ofText?_render, Option.bind_some, Json.depthLimit]
  cases ofValue? 127 m.toValue with
  | none => exact iff_of_false nofun nofun
  | some m' => rw [Except.ok.injEq, Option.some.injEq]

/-- Metrics with whole numbers in their gauges are read back from their text, if these have at most 53 bits also
with a zero put behind them. Nothing is assumed about reading and writing. -/
theorem ofText_toText_of_whole {m : Metrics Float}
    (h : ∀ scope name x, m.gauge? scope name = some x → ∃ n : UInt64, 10 * n.toNat ≤ 2 ^ 53 ∧ x = Scalar.ofUInt64 n) :
    ofText m.toText = .ok m := by
  refine ofText_toText_iff.mpr fun scope name x hx => ?_
  obtain ⟨n, hn, rfl⟩ := h scope name x hx
  exact Number.readsBack_ofUInt64 hn

/-! ## What was published -/

/-- What a gauge holds was published. -/
theorem exists_reading_of_gauge? {ps : List (Publication Float)} {scope name : String} {x : Float}
    (h : (ofPublications ps).gauge? scope name = some x) : ∃ r, .reading r ∈ ps ∧ r.value = x := by
  rw [gauge?_ofPublications] at h
  obtain ⟨p, hp, hvalue⟩ := List.mem_filterMap.mp (List.mem_of_getLast? h)
  cases p with
  | reading r =>
    rw [Publication.value?] at hvalue
    split_ifs at hvalue
    exact ⟨r, hp, Option.some.inj hvalue⟩
  | amount _ _ _ => cases hvalue

/-- Whatever was published for gauges and counters of any names, the text of the metrics reads back as these
metrics, in which each gauge holds the last value that was published for it and each counter the sum of the
amounts, as far as the machine integers reach. The values of gauges are finite, and of those that were published
it is assumed that they are read back from the shortest decimal that is written for them. -/
theorem ofText_toText_ofPublications (ps : List (Publication Float))
    (hfinite : ∀ r, .reading r ∈ ps → r.value.isFinite = true)
    (hshortest : ∀ r, .reading r ∈ ps → r.value.isFinite = true → Number.ReadsBack r.value) :
    ofText (ofPublications ps).toText = .ok (ofPublications ps) ∧
    (∀ scope name, (ofPublications ps).gauge? scope name = (valuesOf ps scope name).getLast?) ∧
    (∀ scope name, (ofPublications ps).counter? scope name = none ↔ amountsOf ps scope name = []) ∧
    ∀ scope name c, (ofPublications ps).counter? scope name = some c →
      c.toNat = min (amountsOf ps scope name).sum (2 ^ 64 - 1) := by
  refine ⟨ofText_toText_iff.mpr fun scope name x hx => ?_, gauge?_ofPublications ps,
    counter?_ofPublications_eq_none_iff ps, fun scope name c hc => ?_⟩
  · obtain ⟨r, hr, rfl⟩ := exists_reading_of_gauge? hx
    exact hshortest r hr (hfinite r hr)
  · rw [← toNat_counter?_ofPublications, hc, Option.getD_some]

/-- Publications with names that must be escaped or are empty, a gauge that is set twice, a negative zero, the
smallest and the largest double, and a counter that runs over. -/
def awkward : List (Publication Float) :=
  [.reading ⟨"", "\"quoted\"\\", 0.1⟩, .amount "\x07\n" "" 18446744073709551615,
    .reading ⟨"", "\"quoted\"\\", -0.0⟩, .reading ⟨"\x00", "\u2028", 5e-324⟩,
    .amount "\x07\n" "" 3, .reading ⟨"\x00", "", 1.7976931348623157e308⟩]

/-- The awkward publications are read back: the gauge that was set twice as the negative zero, and the counter as
the largest machine integer. -/
theorem ofText_toText_ofPublications_of_awkward :
    ofText (ofPublications awkward).toText = .ok (ofPublications awkward) ∧
      (ofPublications awkward).gauge? "" "\"quoted\"\\" = some (-0.0) ∧
      ∃ c, (ofPublications awkward).counter? "\x07\n" "" = some c ∧ c.toNat = 2 ^ 64 - 1 := by
  have hreadings : ∀ r, .reading r ∈ awkward → r.value.isFinite = true ∧ Number.ReadsBack r.value := by
    intro r hr
    simp only [awkward, List.mem_cons, Publication.reading.injEq, reduceCtorEq, List.not_mem_nil, or_false,
      false_or] at hr
    rcases hr with rfl | rfl | rfl | rfl
    all_goals exact ⟨by decide +kernel, by decide +kernel⟩
  obtain ⟨htext, hgauges, hnone, hcounters⟩ :=
    ofText_toText_ofPublications awkward (fun r hr => (hreadings r hr).1) fun r hr _ => (hreadings r hr).2
  refine ⟨htext, ?_, ?_⟩
  · rw [hgauges]
    decide +kernel
  · obtain ⟨c, hc⟩ := Option.ne_none_iff_exists'.mp (mt (hnone "\x07\n" "").mp (by decide))
    exact ⟨c, hc, by rw [hcounters _ _ c hc]; decide⟩

end Metrics

end Allotment
