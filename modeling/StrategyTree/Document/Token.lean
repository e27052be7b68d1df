import StrategyTree.Document.Basic

/-!
# Tokens of a document

The lexer takes a text character by character. Between tokens it passes over blanks; a string is
read up to its closing quote, while a word or a number ends before the first character that cannot
belong to it. `Lexer.run_append` says that it may be run piece by piece.
-/

namespace StrategyTree.Document

open Text

/-- The pieces a document text consists of; a leaf is a word, a number or a string. -/
inductive Token where
  | openArray
  | closeArray
  | openObject
  | closeObject
  | comma
  | colon
  | leaf (value : Document)

/-! ## Strings -/

/-- A part of a string between its quotes, as far as it has been read: its characters, the last one
first, whether an escape stood for half a character, and the first half of a character whose second
half must come next. -/
structure StringSoFar where
  chars : List Char := []
  broken : Bool := false
  half : Option Nat := none

/-- Where in a string the lexer stands. Within the four digits of a code unit that is how many are
left, and the value of those read. -/
inductive StringPlace where
  | plain
  | escape
  | unit (left value : Nat)

namespace StringSoFar

/-- Adds a character. A half character before it stays without its second half. -/
def push (s : StringSoFar) (c : Char) : StringSoFar :=
  { chars := c :: s.chars, broken := s.broken || s.half.isSome, half := none }

/-- Adds a code unit: a character by itself, or one half of a character. -/
def pushUnit (s : StringSoFar) (n : Nat) : StringSoFar :=
  if 0xDC00 ≤ n ∧ n ≤ 0xDFFF then
    match s.half with
    | some high =>
      let c := Char.ofNat (0x10000 + (high - 0xD800) * 0x400 + (n - 0xDC00))
      { chars := c :: s.chars, broken := s.broken, half := none }
    | none => { s with broken := true }
  else if 0xD800 ≤ n ∧ n ≤ 0xDBFF then
    { chars := s.chars, broken := s.broken || s.half.isSome, half := some n }
  else s.push (Char.ofNat n)

/-- The text of the whole string, if every escape stood for a character. -/
def finish (s : StringSoFar) : Option String :=
  if s.broken || s.half.isSome then none else some (String.ofList s.chars.reverse)

end StringSoFar

/-- The character that a one-letter escape stands for. -/
def unescape : Char → Option Char
  | '"' => some '"'
  | '\\' => some '\\'
  | '/' => some '/'
  | 'b' => some '\x08'
  | 'f' => some '\x0c'
  | 'n' => some '\n'
  | 'r' => some '\r'
  | 't' => some '\t'
  | _ => none

/-- The value of a hexadecimal digit. -/
def hexValue (c : Char) : Option Nat :=
  if '0' ≤ c ∧ c ≤ '9' then some (c.toNat - 48)
  else if 'a' ≤ c ∧ c ≤ 'f' then some (c.toNat - 87)
  else if 'A' ≤ c ∧ c ≤ 'F' then some (c.toNat - 55)
  else none

/-! ## Words and numbers -/

/-- Whether a character can stand in a number. -/
def isNumberChar (c : Char) : Bool :=
  c.isDigit || c == '-' || c == '+' || c == '.' || c == 'e' || c == 'E'

/-- The document of a bare word. -/
def wordOf (s : List Char) : Option Document :=
  if s = "null".toList then some .null
  else if s = "true".toList then some (.bool true)
  else if s = "false".toList then some (.bool false)
  else none

/-! ## The lexer -/

/-- What the lexer is in the middle of; letters and digits are kept last one first. -/
inductive Lexer.Mode where
  | between
  | word (seen : List Char)
  | number (seen : List Char)
  | string (sofar : StringSoFar) (place : StringPlace)

/-- The state of the lexer; tokens are kept last one first. -/
structure Lexer where
  tokens : List Token := []
  mode : Lexer.Mode := .between

namespace Lexer

/-- Whether a character may stand between tokens. -/
def isSpace (c : Char) : Bool := c == ' ' || c == '\t' || c == '\n' || c == '\r'

/-- Takes a character that stands between tokens or begins one. -/
def start (tokens : List Token) (c : Char) : Option Lexer :=
  if isSpace c then some ⟨tokens, .between⟩
  else if c = '[' then some ⟨.openArray :: tokens, .between⟩
  else if c = ']' then some ⟨.closeArray :: tokens, .between⟩
  else if c = '\x7b' then some ⟨.openObject :: tokens, .between⟩
  else if c = '\x7d' then some ⟨.closeObject :: tokens, .between⟩
  else if c = ',' then some ⟨.comma :: tokens, .between⟩
  else if c = ':' then some ⟨.colon :: tokens, .between⟩
  else if c = '"' then some ⟨tokens, .string {} .plain⟩
  else if c.isDigit || c == '-' then some ⟨tokens, .number [c]⟩
  else if c.isAlpha then some ⟨tokens, .word [c]⟩
  else none

/-- Ends the word or number the lexer is in. -/
def close (l : Lexer) : Option (List Token) :=
  match l.mode with
  | .between => some l.tokens
  | .word seen => (wordOf seen.reverse).map fun d => .leaf d :: l.tokens
  | .number seen => (Number.read seen.reverse).map fun n => .leaf (.number n) :: l.tokens
  | .string .. => none

/-- Takes a character within a string. -/
def stringStep (tokens : List Token) (s : StringSoFar) (place : StringPlace) (c : Char) :
    Option Lexer :=
  match place with
  | .plain =>
    if c = '"' then some ⟨.leaf (.string s.finish) :: tokens, .between⟩
    else if c = '\\' then some ⟨tokens, .string s .escape⟩
    else if c.toNat < 0x20 then none
    else some ⟨tokens, .string (s.push c) .plain⟩
  | .escape =>
    if c = 'u' then some ⟨tokens, .string s (.unit 4 0)⟩
    else (unescape c).map fun d => ⟨tokens, .string (s.push d) .plain⟩
  | .unit left value =>
    (hexValue c).map fun n =>
      if left ≤ 1 then ⟨tokens, .string (s.pushUnit (16 * value + n)) .plain⟩
      else ⟨tokens, .string s (.unit (left - 1) (16 * value + n))⟩

/-- Takes one character. -/
def step (l : Lexer) (c : Char) : Option Lexer :=
  match l.mode with
  | .between => start l.tokens c
  | .word seen =>
    if c.isAlpha then some { l with mode := .word (c :: seen) }
    else l.close >>= fun tokens => start tokens c
  | .number seen =>
    if isNumberChar c then some { l with mode := .number (c :: seen) }
    else l.close >>= fun tokens => start tokens c
  | .string s place => stringStep l.tokens s place c

/-- Takes a text. -/
def run (l : Lexer) (s : List Char) : Option Lexer := s.foldlM step l

theorem run_append (l : Lexer) (s t : List Char) :
    l.run (s ++ t) = l.run s >>= fun l => l.run t := by
  simp [run, List.foldlM_append]

end Lexer

/-- The tokens of a text. -/
def tokens (s : List Char) : Option (List Token) := do
  let l ← Lexer.run {} s
  return (← l.close).reverse

end StrategyTree.Document
