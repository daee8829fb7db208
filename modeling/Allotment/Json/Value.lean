import Allotment.Json.Token

/-!
# Documents

A document is one value. An object keeps its fields in the order in which they are written, repeated
ones included; what a repeated field means is for the reader of the object to say.

Values are built from tokens with a stack of the arrays and objects that are still open, so that no
depth of nesting is too deep.
-/

namespace Allotment.Json

/-- A value of a document. -/
inductive Value where
  | null
  | bool (b : Bool)
  | number (n : Number)
  | string (s : Option String)
  | array (items : List Value)
  | object (fields : List (Option String × Value))
  deriving Inhabited

namespace Value

/-- A natural number as a value. -/
def ofNat (n : Nat) : Value := .number (Number.ofNat n)

/-- A text as a value. -/
def ofString (s : String) : Value := .string (some s)

/-- An object of named fields. -/
def ofFields (fields : List (String × Value)) : Value :=
  .object (fields.map fun f => (some f.1, f.2))

/-- An array or object that is still open, with what was read of it last first. -/
inductive Frame where
  | array (before : List Value)
  | object (before : List (Option String × Value)) (key : Option String)

/-- What the tokens so far have made, and so what may follow. -/
inductive Build where
  | value (stack : List Frame)
  | firstItem (stack : List Frame)
  | key (before : List (Option String × Value)) (stack : List Frame)
  | colon (before : List (Option String × Value)) (key : Option String) (stack : List Frame)
  | done (v : Value) (stack : List Frame)

namespace Build

/-- A token where a value must begin. -/
def begin? (stack : List Frame) : Token → Option Build
  | .openBrace => some (.key [] stack)
  | .openBracket => some (.firstItem stack)
  | .null => some (.done .null stack)
  | .bool b => some (.done (.bool b) stack)
  | .number n => some (.done (.number n) stack)
  | .string s => some (.done (.string s) stack)
  | .closeBrace | .closeBracket | .comma | .colon => none

/-- The build after one more token. -/
def step? : Build → Token → Option Build
  | .value stack, t => begin? stack t
  | .firstItem stack, .closeBracket => some (.done (.array []) stack)
  | .firstItem stack, t => begin? (.array [] :: stack) t
  | .key before stack, .string k => some (.colon before k stack)
  | .key [] stack, .closeBrace => some (.done (.object []) stack)
  | .key _ _, _ => none
  | .colon before k stack, .colon => some (.value (.object before k :: stack))
  | .colon _ _ _, _ => none
  | .done v (.array before :: stack), .comma => some (.value (.array (v :: before) :: stack))
  | .done v (.array before :: stack), .closeBracket =>
    some (.done (.array (v :: before).reverse) stack)
  | .done v (.object before k :: stack), .comma => some (.key ((k, v) :: before) stack)
  | .done v (.object before k :: stack), .closeBrace =>
    some (.done (.object ((k, v) :: before).reverse) stack)
  | .done _ _, _ => none

/-- The value of a build with nothing open. -/
def finish? : Build → Option Value
  | .done v [] => some v
  | _ => none

end Build

/-- The value of some tokens. -/
def ofTokens? (ts : List Token) : Option Value :=
  (ts.foldlM Build.step? (.value [])).bind Build.finish?

/-- The value that a text is. -/
def ofText? (s : String) : Option Value := (Token.ofText? s).bind ofTokens?

/-! ## Writing -/

/-- A string as it is written; one without a text is written as a surrogate alone. -/
def renderString : Option String → List Char
  | some s => quote s.toList
  | none => '"' :: '\\' :: 'u' :: 'd' :: '8' :: '0' :: '0' :: ['"']

mutual

/-- The characters of a value, without blanks. -/
def chars : Value → List Char
  | .null => ['n', 'u', 'l', 'l']
  | .bool true => ['t', 'r', 'u', 'e']
  | .bool false => ['f', 'a', 'l', 's', 'e']
  | .number n => n.render
  | .string s => renderString s
  | .array [] => ['[', ']']
  | .array (v :: rest) => '[' :: v.chars ++ itemChars rest
  | .object [] => ['{', '}']
  | .object ((k, v) :: rest) => '{' :: renderString k ++ ':' :: v.chars ++ fieldChars rest

/-- The characters of the items after the first, and the closing bracket. -/
def itemChars : List Value → List Char
  | [] => [']']
  | v :: rest => ',' :: v.chars ++ itemChars rest

/-- The characters of the fields after the first, and the closing brace. -/
def fieldChars : List (Option String × Value) → List Char
  | [] => ['}']
  | (k, v) :: rest => ',' :: renderString k ++ ':' :: v.chars ++ fieldChars rest

end

/-- The text of a value, without blanks. -/
def render (v : Value) : String := String.ofList v.chars

end Value

end Allotment.Json
