import Allotment.Proofs.Json.Token

/-!
# Values read as they are written

Every value is read back from its text. Its characters are read as its tokens, by its structure; and the tokens
of a value, wherever a value may stand, build that value and leave what is open as it was.
-/

namespace Allotment.Json.Value

/-! ## Tokens -/

mutual

/-- The tokens of a value. -/
def tokens : Value → List Token
  | .null => [.null]
  | .bool b => [.bool b]
  | .number n => [.number n]
  | .string s => [.string s]
  | .array [] => [.openBracket, .closeBracket]
  | .array (v :: rest) => .openBracket :: (v.tokens ++ itemTokens rest)
  | .object [] => [.openBrace, .closeBrace]
  | .object ((k, v) :: rest) => .openBrace :: .string k :: .colon :: (v.tokens ++ fieldTokens rest)

/-- The tokens of the items after the first, and the closing bracket. -/
def itemTokens : List Value → List Token
  | [] => [.closeBracket]
  | v :: rest => .comma :: (v.tokens ++ itemTokens rest)

/-- The tokens of the fields after the first, and the closing brace. -/
def fieldTokens : List (Option String × Value) → List Token
  | [] => [.closeBrace]
  | (k, v) :: rest => .comma :: .string k :: .colon :: (v.tokens ++ fieldTokens rest)

end

open Token (Reads)

/-- Whether characters are read as tokens after anything that is read. -/
def Continues (cs : List Char) (ts : List Token) : Prop :=
  ∀ ⦃cs' ts'⦄, Reads cs' ts' → Reads (cs' ++ cs) (ts' ++ ts)

mutual

/-- The characters of a value are read as its tokens. -/
theorem reads_chars : ∀ v : Value, Reads v.chars v.tokens
  | .null => by
    rw [chars, tokens]
    exact Token.reads_null
  | .bool true => by
    rw [chars, tokens]
    exact Token.reads_true
  | .bool false => by
    rw [chars, tokens]
    exact Token.reads_false
  | .number n => by
    rw [chars, tokens]
    exact Token.reads_number n
  | .string s => by
    rw [chars, tokens]
    exact Token.reads_string s
  | .array [] => by
    rw [chars, tokens]
    exact .mark rfl (.mark rfl .nil)
  | .array (v :: rest) => by
    rw [chars, tokens]
    exact .mark rfl (continues_itemChars rest (reads_chars v))
  | .object [] => by
    rw [chars, tokens]
    exact .mark rfl (.mark rfl .nil)
  | .object ((k, v) :: rest) => by
    rw [chars, tokens, List.append_assoc]
    exact .mark rfl ((Token.reads_string k).append rfl (continues_fieldChars rest (reads_chars v)))

/-- The characters of the items after the first are read as the tokens of them. -/
theorem continues_itemChars : ∀ rest : List Value, Continues (itemChars rest) (itemTokens rest)
  | [], _, _, h => by
    rw [itemChars, itemTokens]
    exact h.append rfl .nil
  | v :: rest, _, _, h => by
    rw [itemChars, itemTokens]
    exact h.append rfl (continues_itemChars rest (reads_chars v))

/-- The characters of the fields after the first are read as the tokens of them. -/
theorem continues_fieldChars :
    ∀ rest : List (Option String × Value), Continues (fieldChars rest) (fieldTokens rest)
  | [], _, _, h => by
    rw [fieldChars, fieldTokens]
    exact h.append rfl .nil
  | (k, v) :: rest, _, _, h => by
    rw [fieldChars, fieldTokens, List.append_assoc]
    exact h.append rfl ((Token.reads_string k).append rfl (continues_fieldChars rest (reads_chars v)))

end

/-! ## Building -/

/-- No value begins with a closing bracket. -/
theorem exists_tokens_cons (v : Value) : ∃ t ts, v.tokens = t :: ts ∧ t ≠ .closeBracket := by
  cases v with
  | null => exact ⟨_, _, by rw [tokens], by nofun⟩
  | bool b => exact ⟨_, _, by rw [tokens], by nofun⟩
  | number n => exact ⟨_, _, by rw [tokens], by nofun⟩
  | string s => exact ⟨_, _, by rw [tokens], by nofun⟩
  | array items => cases items with
    | nil => exact ⟨_, _, by rw [tokens], by nofun⟩
    | cons v rest => exact ⟨_, _, by rw [tokens], by nofun⟩
  | object fields => cases fields with
    | nil => exact ⟨_, _, by rw [tokens], by nofun⟩
    | cons f rest => exact ⟨_, _, by rw [tokens], by nofun⟩

/-- A first item is built as an item is after a comma. -/
theorem foldlM_firstItem (v : Value) (ts : List Token) (stack : List Frame) :
    (v.tokens ++ ts).foldlM Build.step? (.firstItem stack) =
      (v.tokens ++ ts).foldlM Build.step? (.value (.array [] :: stack)) := by
  obtain ⟨t, rest, htokens, ht⟩ := v.exists_tokens_cons
  rw [htokens, List.cons_append, List.foldlM_cons, List.foldlM_cons]
  cases t with
  | closeBracket => exact absurd rfl ht
  | _ => rfl

mutual

/-- The tokens of a value build it. -/
theorem foldlM_tokens : ∀ (v : Value) (stack : List Frame),
    v.tokens.foldlM Build.step? (.value stack) = some (.done v stack)
  | .null, _ => by
    rw [tokens]
    rfl
  | .bool _, _ => by
    rw [tokens]
    rfl
  | .number _, _ => by
    rw [tokens]
    rfl
  | .string _, _ => by
    rw [tokens]
    rfl
  | .array [], _ => by
    rw [tokens]
    rfl
  | .array (v :: rest), stack => by
    rw [tokens]
    change (v.tokens ++ itemTokens rest).foldlM Build.step? (.firstItem stack) = _
    rw [foldlM_firstItem, List.foldlM_append, foldlM_tokens v]
    exact foldlM_itemTokens rest v [] stack
  | .object [], _ => by
    rw [tokens]
    rfl
  | .object ((k, v) :: rest), stack => by
    rw [tokens]
    change (v.tokens ++ fieldTokens rest).foldlM Build.step? (.value (.object [] k :: stack)) = _
    rw [List.foldlM_append, foldlM_tokens v]
    exact foldlM_fieldTokens rest k v [] stack

/-- The tokens of the items after the first build an array with all of them. -/
theorem foldlM_itemTokens : ∀ (rest : List Value) (v : Value) (before : List Value) (stack : List Frame),
    (itemTokens rest).foldlM Build.step? (.done v (.array before :: stack)) =
      some (.done (.array (before.reverse ++ v :: rest)) stack)
  | [], v, before, stack => by
    rw [itemTokens]
    change some (Build.done (.array (v :: before).reverse) stack) = _
    rw [List.reverse_cons]
  | v' :: rest, v, before, stack => by
    rw [itemTokens]
    change (v'.tokens ++ itemTokens rest).foldlM Build.step? (.value (.array (v :: before) :: stack)) = _
    rw [List.foldlM_append, foldlM_tokens v', Option.bind_eq_bind, Option.bind_some,
      foldlM_itemTokens rest v' (v :: before) stack, List.reverse_cons, List.append_assoc,
      List.singleton_append]

/-- The tokens of the fields after the first build an object with all of them. -/
theorem foldlM_fieldTokens : ∀ (rest : List (Option String × Value)) (k : Option String) (v : Value)
    (before : List (Option String × Value)) (stack : List Frame),
    (fieldTokens rest).foldlM Build.step? (.done v (.object before k :: stack)) =
      some (.done (.object (before.reverse ++ (k, v) :: rest)) stack)
  | [], k, v, before, stack => by
    rw [fieldTokens]
    change some (Build.done (.object ((k, v) :: before).reverse) stack) = _
    rw [List.reverse_cons]
  | (k', v') :: rest, k, v, before, stack => by
    rw [fieldTokens]
    change (v'.tokens ++ fieldTokens rest).foldlM Build.step? (.value (.object ((k, v) :: before) k' :: stack)) = _
    rw [List.foldlM_append, foldlM_tokens v', Option.bind_eq_bind, Option.bind_some,
      foldlM_fieldTokens rest k' v' ((k, v) :: before) stack, List.reverse_cons, List.append_assoc,
      List.singleton_append]

end

/-- A value is read back from its text. -/
theorem ofText?_render (v : Value) : ofText? v.render = some v := by
  have htokens : Token.ofText? v.render = some v.tokens := (reads_chars v).ofText?
  rw [ofText?, htokens, Option.bind_some, ofTokens?, foldlM_tokens v]
  rfl

end Allotment.Json.Value
