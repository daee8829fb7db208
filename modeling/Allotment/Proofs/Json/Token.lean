import Allotment.Json.Value
import Allotment.Proofs.Json.Number
import Mathlib.Data.Fintype.Basic
import Mathlib.Tactic.FinCases

/-!
# Tokens read as they are written

What is read between two tokens does not depend on what was read before, so a text is read part by part. A
string ends with its quotes; a number or a word ends where a brace, a bracket, a comma or a colon follows, or
with the text.
-/

namespace Allotment.Json

/-! ## Strings -/

/-- Whether a part of a written string stands for a character, whatever follows it. -/
def Piece.StandsFor (p : Piece) (c : Char) : Prop :=
  ∀ rest, Piece.chars? (p :: rest) = (Piece.chars? rest).map (c :: ·)

namespace Token

variable {before ts ts' : List Token} {cs cs' : List Char} {c : Char} {t : Token}

theorem hexDigit?_digitChar {d : ℕ} (h : d < 16) : hexDigit? (Nat.digitChar d) = some d := by
  revert d
  decide

/-- A control character is read back from the unit that is written for it. -/
theorem standsFor_unit (h : c.toNat < 0x20) : Piece.StandsFor (.unit c.toNat) c := by
  intro rest
  have hhigh : Piece.isHigh c.toNat = false := by
    rw [Piece.isHigh, Bool.and_eq_false_iff]
    exact .inl (decide_eq_false (by omega))
  have hlow : Piece.isLow c.toNat = false := by
    rw [Piece.isLow, Bool.and_eq_false_iff]
    exact .inl (decide_eq_false (by omega))
  rw [Piece.chars?.eq_def]
  dsimp only
  rw [hhigh, hlow, Char.ofNat_toNat]
  rfl

/-- Within a string a character is read from what is written for it. -/
theorem exists_standsFor (before : List Token) (read : List Piece) (c : Char) : ∃ p, p.StandsFor c ∧
    (quoteChar c).foldlM Reader.step? ⟨before, .text read⟩ = some ⟨before, .text (p :: read)⟩ := by
  have hchar : ∀ c, Piece.StandsFor (.char c) c := fun _ _ => rfl
  unfold quoteChar
  split
  case h_8 hquote hslash _ _ _ _ _ =>
    split_ifs with hcontrol
    · refine ⟨.unit c.toNat, standsFor_unit hcontrol, ?_⟩
      have hhigh : hexDigit? (Nat.digitChar (c.toNat / 16)) = some (c.toNat / 16) :=
        hexDigit?_digitChar (by omega)
      have hlow : hexDigit? (Nat.digitChar (c.toNat % 16)) = some (c.toNat % 16) :=
        hexDigit?_digitChar (by omega)
      change [Nat.digitChar (c.toNat / 16), Nat.digitChar (c.toNat % 16)].foldlM Reader.step?
        ⟨before, .unit read 2 0⟩ = _
      simp only [List.foldlM_cons, List.foldlM_nil, Reader.step?, hhigh, hlow]
      simp [Nat.div_add_mod']
    · refine ⟨.char c, hchar c, ?_⟩
      rw [List.foldlM_cons, Reader.step?]
      dsimp only
      rw [if_neg hquote, if_neg hslash, if_neg hcontrol]
      rfl
  all_goals exact ⟨.char _, hchar _, rfl⟩

/-- Within a string a text is read from what is written for its characters. -/
theorem exists_chars? (before : List Token) (read : List Piece) (cs : List Char) : ∃ ps,
    Piece.chars? ps = some cs ∧ (cs.flatMap quoteChar).foldlM Reader.step? ⟨before, .text read⟩ =
      some ⟨before, .text (ps.reverse ++ read)⟩ := by
  induction cs generalizing read with
  | nil => exact ⟨[], rfl, rfl⟩
  | cons c cs ih =>
    obtain ⟨p, hp, hread⟩ := exists_standsFor before read c
    obtain ⟨ps, hps, hrest⟩ := ih (p :: read)
    refine ⟨p :: ps, by rw [hp, hps, Option.map_some], ?_⟩
    rw [List.flatMap_cons, List.foldlM_append, hread, Option.bind_eq_bind, Option.bind_some, hrest,
      List.reverse_cons, List.append_assoc, List.singleton_append]

/-! ## Reading part by part -/

/-- Whether characters that are read between tokens make these tokens, once what is still being read has
ended. -/
def Reads (cs : List Char) (ts : List Token) : Prop :=
  ∀ before, ∃ r, cs.foldlM Reader.step? ⟨before, .between⟩ = some r ∧
    r.close? = some ⟨ts.reverse ++ before, .between⟩

/-- The token of a brace, a bracket, a comma or a colon. -/
def mark? : Char → Option Token
  | '{' => some .openBrace
  | '}' => some .closeBrace
  | '[' => some .openBracket
  | ']' => some .closeBracket
  | ',' => some .comma
  | ':' => some .colon
  | _ => none

theorem begin?_of_mark (h : mark? c = some t) (before : List Token) :
    Reader.begin? before c = some ⟨t :: before, .between⟩ := by
  unfold mark? at h
  split at h
  all_goals cases h
  all_goals rfl

/-- A mark belongs to no word and to no number. -/
theorem not_letter_of_mark (h : mark? c = some t) : isLetter c = false ∧ isNumeral c = false := by
  unfold mark? at h
  split at h
  all_goals cases h
  all_goals decide

/-- A mark ends what is being read. -/
theorem step?_of_mark {r : Reader} (hr : r.close? = some ⟨before, .between⟩) (h : mark? c = some t) :
    r.step? c = some ⟨t :: before, .between⟩ := by
  obtain ⟨tokens, mode⟩ := r
  obtain ⟨hletter, hnumeral⟩ := not_letter_of_mark h
  have hbegin := begin?_of_mark h before
  cases mode with
  | between =>
    cases hr
    exact hbegin
  | word read =>
    rw [Reader.step?]
    dsimp only
    rw [hletter, if_neg Bool.false_ne_true, hr, Option.bind_some, hbegin]
  | number read =>
    rw [Reader.step?]
    dsimp only
    rw [hnumeral, if_neg Bool.false_ne_true, hr, Option.bind_some, hbegin]
  | text read => cases hr
  | escape read => cases hr
  | unit read digits value => cases hr

theorem Reads.nil : Reads [] [] := fun _ => ⟨_, rfl, rfl⟩

/-- A mark and what is read after it. -/
theorem Reads.mark (h : mark? c = some t) (hcs : Reads cs ts) : Reads (c :: cs) (t :: ts) := by
  intro before
  obtain ⟨r, hr, hclose⟩ := hcs (t :: before)
  refine ⟨r, ?_, by rw [hclose, List.reverse_cons, List.append_assoc, List.singleton_append]⟩
  rw [List.foldlM_cons, Reader.step?, begin?_of_mark h]
  exact hr

/-- What is read, then a mark, then what is read after it. -/
theorem Reads.append (hcs : Reads cs ts) (h : mark? c = some t) (hcs' : Reads cs' ts') :
    Reads (cs ++ c :: cs') (ts ++ t :: ts') := by
  intro before
  obtain ⟨r, hr, hclose⟩ := hcs before
  obtain ⟨r', hr', hclose'⟩ := hcs' (t :: (ts.reverse ++ before))
  refine ⟨r', ?_, by rw [hclose']; simp⟩
  rw [List.foldlM_append, hr, Option.bind_eq_bind, Option.bind_some, List.foldlM_cons, step?_of_mark hclose h]
  exact hr'

/-- A text that is read makes the tokens that were read. -/
theorem Reads.ofText? (h : Reads cs ts) : Token.ofText? (String.ofList cs) = some ts := by
  obtain ⟨r, hr, hclose⟩ := h []
  rw [Token.ofText?, String.toList_ofList, Reader.start, hr, Option.bind_some, Reader.finish?, hclose,
    Option.bind_some, List.append_nil, List.reverse_reverse]

/-! ## Single tokens -/

theorem reads_null : Reads ['n', 'u', 'l', 'l'] [.null] := fun _ => ⟨_, rfl, rfl⟩

theorem reads_true : Reads ['t', 'r', 'u', 'e'] [.bool true] := fun _ => ⟨_, rfl, rfl⟩

theorem reads_false : Reads ['f', 'a', 'l', 's', 'e'] [.bool false] := fun _ => ⟨_, rfl, rfl⟩

theorem reads_string (s : Option String) : Reads (Value.renderString s) [.string s] := by
  intro before
  cases s with
  | none => exact ⟨_, rfl, rfl⟩
  | some s =>
    obtain ⟨ps, hps, hread⟩ := exists_chars? before [] s.toList
    refine ⟨⟨.string (some s) :: before, .between⟩, ?_, rfl⟩
    rw [Value.renderString, quote, List.cons_append, List.foldlM_cons]
    change (s.toList.flatMap quoteChar ++ ['"']).foldlM Reader.step? ⟨before, .text []⟩ = _
    rw [List.foldlM_append, hread, Option.bind_eq_bind, Option.bind_some, List.foldlM_cons, Reader.step?]
    dsimp only
    rw [if_pos rfl, List.append_nil, List.reverse_reverse, hps, Option.map_some, String.ofList_toList]
    rfl

/-! ## Numbers -/

theorem isNumeral_of_mem_charsOf {ds : List (Fin 10)} (h : c ∈ Number.charsOf ds) : isNumeral c = true := by
  have hdigit : ∀ d : Fin 10, isNumeral (Char.ofNat ('0'.toNat + d.val)) = true := by decide
  obtain ⟨d, -, rfl⟩ := List.mem_map.mp h
  exact hdigit d

theorem isNumeral_of_mem_toDigits {n : ℕ} (h : c ∈ Nat.toDigits 10 n) : isNumeral c = true := by
  obtain ⟨ds, hds⟩ := Number.exists_spells n
  exact isNumeral_of_mem_charsOf (hds.chars ▸ h)

/-- A number is written with the characters of numbers. -/
theorem isNumeral_of_mem_render {n : Number} (h : c ∈ n.render) : isNumeral c = true := by
  obtain ⟨negative, whole, fraction, exponent⟩ := n
  rw [Number.render, List.mem_append, List.mem_append, List.mem_append] at h
  rcases h with ((h | h) | h) | h
  · cases negative with
    | true => rw [List.mem_singleton.mp h]; decide
    | false => cases h
  · exact isNumeral_of_mem_toDigits h
  · cases fraction with
    | nil => cases h
    | cons d ds =>
      rcases List.mem_cons.mp h with rfl | h
      · decide
      · exact isNumeral_of_mem_charsOf h
  · cases exponent with
    | none => cases h
    | some e =>
      rcases List.mem_cons.mp h with rfl | h
      · decide
      · rcases List.mem_cons.mp h with rfl | h
        · split <;> decide
        · exact isNumeral_of_mem_toDigits h

/-- A number begins with its sign or a digit. -/
theorem exists_render_cons (n : Number) : ∃ c rest, n.render = c :: rest ∧
    ∀ before, Reader.begin? before c = some ⟨before, .number [c]⟩ := by
  have hdigit : ∀ d : Fin 10, ∀ before, Reader.begin? before (Char.ofNat ('0'.toNat + d.val)) =
      some ⟨before, .number [Char.ofNat ('0'.toNat + d.val)]⟩ := by
    intro d before
    fin_cases d <;> rfl
  obtain ⟨ds, hds⟩ := Number.exists_spells n.whole
  obtain ⟨d, ds, rfl⟩ := List.exists_cons_of_ne_nil hds.ne_nil
  unfold Number.render
  rw [hds.chars]
  cases n.negative with
  | true => exact ⟨_, _, rfl, fun _ => rfl⟩
  | false => exact ⟨_, _, rfl, hdigit d⟩

theorem foldlM_number (before : List Token) (read : List Char) (h : ∀ c ∈ cs, isNumeral c = true) :
    cs.foldlM Reader.step? ⟨before, .number read⟩ = some ⟨before, .number (cs.reverse ++ read)⟩ := by
  induction cs generalizing read with
  | nil => rfl
  | cons c cs ih =>
    rw [List.foldlM_cons, Reader.step?]
    dsimp only
    rw [if_pos (h c List.mem_cons_self), Option.bind_eq_bind, Option.bind_some,
      ih _ fun c hc => h c (List.mem_cons_of_mem _ hc), List.reverse_cons, List.append_assoc,
      List.singleton_append]

theorem reads_number (n : Number) : Reads n.render [.number n] := by
  intro before
  obtain ⟨c, rest, hrender, hbegin⟩ := exists_render_cons n
  have hnumerals : ∀ c ∈ rest, isNumeral c = true := fun c hc =>
    isNumeral_of_mem_render (hrender ▸ List.mem_cons_of_mem _ hc)
  refine ⟨⟨before, .number (rest.reverse ++ [c])⟩, ?_, ?_⟩
  · rw [hrender, List.foldlM_cons, Reader.step?]
    dsimp only
    rw [hbegin, Option.bind_eq_bind, Option.bind_some, foldlM_number before [c] hnumerals]
  · rw [Reader.close?]
    dsimp only
    rw [← List.reverse_cons, List.reverse_reverse, ← hrender, Number.ofChars?_render]
    rfl

end Token

end Allotment.Json
