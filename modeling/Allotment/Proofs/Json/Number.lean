import Allotment.Json.Number
import Allotment.Json.Token
import Mathlib.Algebra.Order.Ring.Int
import Mathlib.Data.List.Basic

/-!
# Numbers read as they are written

The characters of a number are read as that number, whatever its sign, its digits and its exponent are: the
whole part is written without a leading zero, and what follows it begins with a point or a letter.
-/

namespace Allotment.Json.Number

variable {n : ℕ} {ds : List (Fin 10)} {cs : List Char}

/-! ## Digits -/

theorem digit?_charOf (d : Fin 10) : digit? (Char.ofNat ('0'.toNat + d.val)) = some d := by
  revert d
  decide

/-- Digits are read up to the first character that is none. -/
theorem digits_charsOf_append (hcs : digits cs = ([], cs)) (ds : List (Fin 10)) :
    digits (charsOf ds ++ cs) = (ds, cs) := by
  induction ds with
  | nil => exact hcs
  | cons d ds ih =>
    change digits (Char.ofNat ('0'.toNat + d.val) :: (charsOf ds ++ cs)) = _
    rw [digits, digit?_charOf, ih]

theorem charsOf_append (ds ds' : List (Fin 10)) : charsOf (ds ++ ds') = charsOf ds ++ charsOf ds' :=
  List.map_append

theorem natOf_append_singleton (ds : List (Fin 10)) (d : Fin 10) : natOf (ds ++ [d]) = natOf ds * 10 + d := by
  rw [natOf, List.foldl_append]
  rfl

/-- Whether digits are those of a natural number, without a leading zero. -/
structure Spells (n : ℕ) (ds : List (Fin 10)) : Prop where
  chars : Nat.toDigits 10 n = charsOf ds
  value : natOf ds = n
  lead : ds.head? = some 0 → ds = [0]

/-- Every natural number is spelt by some digits: those of a tenth of it, and its last one. -/
theorem exists_spells (n : ℕ) : ∃ ds, Spells n ds := by
  induction n using Nat.strong_induction_on with
  | _ n ih =>
    have hlast : ∀ d : Fin 10, Nat.digitChar d = Char.ofNat ('0'.toNat + d.val) := by decide
    rcases lt_or_ge n 10 with hn | hn
    · refine ⟨[⟨n, hn⟩], ?_, ?_, fun h => List.singleton_inj.mpr (Option.some.inj h)⟩
      · rw [Nat.toDigits_of_lt_base hn, hlast ⟨n, hn⟩]
        rfl
      · change 0 * 10 + n = n
        omega
    · obtain ⟨ds, hchars, hvalue, hlead⟩ := ih (n / 10) (by omega)
      refine ⟨ds ++ [⟨n % 10, Nat.mod_lt n (by decide)⟩], ?_, ?_, fun h => ?_⟩
      · rw [Nat.toDigits_of_base_le (by decide) hn, hchars, hlast ⟨n % 10, _⟩, charsOf_append]
        rfl
      · rw [natOf_append_singleton, hvalue]
        exact Nat.div_add_mod' n 10
      · have hne : ds ≠ [] := by
          rintro rfl
          change 0 = n / 10 at hvalue
          omega
        rw [List.head?_append_of_ne_nil ds hne] at h
        rw [hlead h] at hvalue
        change 0 = n / 10 at hvalue
        omega

theorem Spells.ne_nil (h : Spells n ds) : ds ≠ [] := by
  rintro rfl
  exact Nat.toDigits_ne_nil h.chars

/-! ## Whole numbers -/

/-- The characters of an exponent. -/
def exponentChars : Option ℤ → List Char
  | none => []
  | some e => 'e' :: (if e < 0 then '-' else '+') :: Nat.toDigits 10 e.natAbs

/-- The characters of an exponent are read as that exponent. -/
theorem exponent?_exponentChars (e : Option ℤ) : exponent? (exponentChars e) = some e := by
  cases e with
  | none => rfl
  | some e =>
    obtain ⟨ds, hds⟩ := exists_spells e.natAbs
    have hread : digits (Nat.toDigits 10 e.natAbs) = (ds, []) := by
      rw [hds.chars, ← List.append_nil (charsOf ds)]
      exact digits_charsOf_append rfl ds
    obtain ⟨d, rest, rfl⟩ := List.exists_cons_of_ne_nil hds.ne_nil
    dsimp only [exponentChars]
    by_cases hneg : e < 0
    · rw [if_pos hneg]
      simp only [exponent?, true_or, if_true, hread]
      rw [hds.value, Int.ofNat_natAbs_of_nonpos hneg.le, neg_neg]
    · rw [if_neg hneg]
      simp only [exponent?, true_or, if_true, hread, Bool.false_eq_true, if_false]
      rw [hds.value, Int.natAbs_of_nonneg (not_lt.mp hneg)]

theorem digits_exponentChars (e : Option ℤ) : digits (exponentChars e) = ([], exponentChars e) := by
  cases e <;> rfl

/-- The number with a sign and a whole part that goes on with these characters: perhaps a point and digits,
perhaps an exponent. -/
def tail? (negative : Bool) (whole : ℕ) : List Char → Option Number
  | '.' :: rest =>
    if (digits rest).1 = [] then none
    else (exponent? (digits rest).2).map fun e => ⟨negative, whole, (digits rest).1, e⟩
  | rest => (exponent? rest).map fun e => ⟨negative, whole, [], e⟩

/-- The sign at the front of a number, and the rest of it. -/
def sign : List Char → Bool × List Char
  | '-' :: rest => (true, rest)
  | rest => (false, rest)

/-- A number is a sign, digits without a leading zero, and what follows them. -/
theorem ofChars?_eq (cs : List Char) :
    ofChars? cs =
      let ds := (digits (sign cs).2).1
      if ds = [] ∨ (ds.head? = some 0 ∧ 1 < ds.length) then none
      else tail? (sign cs).1 (natOf ds) (digits (sign cs).2).2 :=
  rfl

/-- A sign and digits without a leading zero are read as such. -/
theorem ofChars?_signed {rest : List Char} (negative : Bool) (hds : Spells n ds)
    (hrest : digits rest = ([], rest)) :
    ofChars? ((if negative then ['-'] else []) ++ (Nat.toDigits 10 n ++ rest)) = tail? negative n rest := by
  have hlead : ¬ (ds = [] ∨ (ds.head? = some 0 ∧ 1 < ds.length)) := by
    rintro (h | ⟨hzero, hlength⟩)
    · exact hds.ne_nil h
    · rw [hds.lead hzero] at hlength
      exact lt_irrefl 1 hlength
  have hdigits : digits (Nat.toDigits 10 n ++ rest) = (ds, rest) := by
    rw [hds.chars, digits_charsOf_append hrest]
  generalize Nat.toDigits 10 n ++ rest = cs at hdigits
  have hsign : sign ((if negative then ['-'] else []) ++ cs) = (negative, cs) := by
    cases negative with
    | true => rfl
    | false =>
      rw [if_neg Bool.false_ne_true, List.nil_append]
      unfold sign
      split
      · exact absurd (Prod.mk.inj hdigits).1.symm hds.ne_nil
      · rfl
  rw [ofChars?_eq, hsign]
  dsimp only
  rw [hdigits, if_neg hlead, hds.value]

/-- The characters of a number are read as that number. -/
theorem ofChars?_render (n : Number) : ofChars? n.render = some n := by
  obtain ⟨negative, whole, fraction, exponent⟩ := n
  obtain ⟨ds, hds⟩ := exists_spells whole
  have hrender : render ⟨negative, whole, fraction, exponent⟩ =
      (if negative then ['-'] else []) ++ (Nat.toDigits 10 whole ++
        ((if fraction = [] then [] else '.' :: charsOf fraction) ++ exponentChars exponent)) := by
    unfold render
    rw [List.append_assoc, List.append_assoc]
    cases exponent <;> rfl
  have hexponent := exponent?_exponentChars exponent
  have hstop := digits_exponentChars exponent
  rw [hrender]
  cases fraction with
  | nil =>
    rw [if_pos rfl, List.nil_append, ofChars?_signed negative hds hstop]
    cases exponent with
    | none => rfl
    | some e =>
      change (exponent? (exponentChars (some e))).map _ = _
      rw [hexponent]
      rfl
  | cons d ds =>
    rw [if_neg (List.cons_ne_nil d ds), ofChars?_signed negative hds rfl]
    have hfraction := digits_charsOf_append hstop (d :: ds)
    rw [List.cons_append, tail?, hfraction, if_neg (List.cons_ne_nil d ds), hexponent]
    rfl

end Allotment.Json.Number
