import Allotment.Json.Number
import Allotment.Json.Text

/-!
# Tokens of documents

A document is read one character at a time. Between tokens only a space, a tab, a line feed or a
carriage return may stand; a run of letters must be one of three words, and a run of the characters
that numbers are made of must be a number.
-/

namespace Allotment.Json

/-- A token of a document. A string has no text when a surrogate stands alone in it. -/
inductive Token where
  | openBrace
  | closeBrace
  | openBracket
  | closeBracket
  | comma
  | colon
  | null
  | bool (b : Bool)
  | number (n : Number)
  | string (s : Option String)
  deriving DecidableEq, Repr

namespace Token

/-- Where the reader stands within a token; what was read of it is kept last first. -/
inductive Mode where
  | between
  | word (read : List Char)
  | number (read : List Char)
  | text (read : List Piece)
  | escape (read : List Piece)
  | unit (read : List Piece) (digits value : Nat)
  deriving DecidableEq, Repr

/-- The state of the reader: the tokens so far, last first, and the one being read. -/
structure Reader where
  tokens : List Token
  mode : Mode
  deriving DecidableEq, Repr

/-- Whether a character may stand between tokens. -/
def isGap (c : Char) : Bool := c = ' ' || c = '\n' || c = '\t' || c = '\r'

/-- Whether words are made of a character. -/
def isLetter (c : Char) : Bool := 'a' ≤ c && c ≤ 'z'

/-- Whether numbers are made of a character. -/
def isNumeral (c : Char) : Bool :=
  ('0' ≤ c && c ≤ '9') || c = '-' || c = '+' || c = '.' || c = 'e' || c = 'E'

/-- The token of a word. -/
def ofWord? (cs : List Char) : Option Token :=
  if cs = ['n', 'u', 'l', 'l'] then some .null
  else if cs = ['t', 'r', 'u', 'e'] then some (.bool true)
  else if cs = ['f', 'a', 'l', 's', 'e'] then some (.bool false)
  else none

namespace Reader

/-- The reader before the first character. -/
def start : Reader := ⟨[], .between⟩

/-- The reader after a whole token. -/
def push (r : Reader) (t : Token) : Reader := ⟨t :: r.tokens, .between⟩

/-- A character between tokens. -/
def begin? (tokens : List Token) (c : Char) : Option Reader :=
  match c with
  | '{' => some ⟨.openBrace :: tokens, .between⟩
  | '}' => some ⟨.closeBrace :: tokens, .between⟩
  | '[' => some ⟨.openBracket :: tokens, .between⟩
  | ']' => some ⟨.closeBracket :: tokens, .between⟩
  | ',' => some ⟨.comma :: tokens, .between⟩
  | ':' => some ⟨.colon :: tokens, .between⟩
  | '"' => some ⟨tokens, .text []⟩
  | c =>
    if isGap c then some ⟨tokens, .between⟩
    else if c = '-' ∨ ('0' ≤ c ∧ c ≤ '9') then some ⟨tokens, .number [c]⟩
    else if isLetter c then some ⟨tokens, .word [c]⟩
    else none

/-- The reader with a word or number ended. -/
def close? (r : Reader) : Option Reader :=
  match r.mode with
  | .word read => (ofWord? read.reverse).map r.push
  | .number read => (Number.ofChars? read.reverse).map fun n => r.push (.number n)
  | _ => some r

/-- The reader after one more character. -/
def step? (r : Reader) (c : Char) : Option Reader :=
  match r.mode with
  | .between => begin? r.tokens c
  | .word read =>
    if isLetter c then some { r with mode := .word (c :: read) }
    else r.close?.bind fun r => begin? r.tokens c
  | .number read =>
    if isNumeral c then some { r with mode := .number (c :: read) }
    else r.close?.bind fun r => begin? r.tokens c
  | .text read =>
    if c = '"' then some (r.push (.string ((Piece.chars? read.reverse).map String.ofList)))
    else if c = '\\' then some { r with mode := .escape read }
    else if c.toNat < 0x20 then none
    else some { r with mode := .text (.char c :: read) }
  | .escape read =>
    if c = 'u' then some { r with mode := .unit read 0 0 }
    else (Piece.escaped? c).map fun c => { r with mode := .text (.char c :: read) }
  | .unit read digits value =>
    (hexDigit? c).map fun d =>
      if digits = 3 then { r with mode := .text (.unit (value * 16 + d) :: read) }
      else { r with mode := .unit read (digits + 1) (value * 16 + d) }

/-- The tokens of a text that has ended. -/
def finish? (r : Reader) : Option (List Token) :=
  r.close?.bind fun r => match r.mode with
    | .between => some r.tokens.reverse
    | _ => none

end Reader

/-- The tokens of a text. -/
def ofText? (s : String) : Option (List Token) :=
  (s.toList.foldlM Reader.step? Reader.start).bind Reader.finish?

end Token

end Allotment.Json
