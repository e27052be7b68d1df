import StrategyTree.Document.Basic

/-!
# Writing documents

Documents are written in two ways: `Document.compact` without any blanks, and `Document.pretty` with
every item and member on a line of its own, indented by two blanks a level. Strings escape the
quote, the backslash and the control characters, and nothing else. A double is written with the
fewest digits that read back; what is no ordinary number is written as `null`.
-/

namespace StrategyTree

open Text

namespace Document

/-- A double as a document. -/
def ofFloat (x : Float) : Document :=
  if x.isFinite then
    if x == 0.0 then number (.fraction (isNegative x) (Decimal.layout ⟨0, 0⟩))
    else
      match Decimal.shortest x.abs with
      | some d => number (.fraction (isNegative x) d.layout)
      | none => null
  else null

/-- A lower-case hexadecimal digit. -/
def hexDigit (n : Nat) : Char := if n < 10 then Char.ofNat (48 + n) else Char.ofNat (87 + n)

/-- A character within a string. -/
def escape (c : Char) : List Char :=
  if c = '"' then ['\\', '"']
  else if c = '\\' then ['\\', '\\']
  else if c = '\x08' then ['\\', 'b']
  else if c = '\x0c' then ['\\', 'f']
  else if c = '\n' then ['\\', 'n']
  else if c = '\r' then ['\\', 'r']
  else if c = '\t' then ['\\', 't']
  else if c.toNat < 0x20 then
    ['\\', 'u', '0', '0', hexDigit (c.toNat / 16), hexDigit (c.toNat % 16)]
  else [c]

/-- A string with its quotes; one that has no text is written as an empty one. -/
def quoted (s : Option String) : List Char := '"' :: (s.getD "").toList.flatMap escape ++ ['"']

/-- The documents that are not made of others. -/
def leafText : Document → List Char
  | bool true => "true".toList
  | bool false => "false".toList
  | number n => n.render
  | string s => quoted s
  | _ => "null".toList

/-! ## Without blanks -/

mutual

/-- The text of a document without blanks. -/
def compactChars : Document → List Char
  | array items => '[' :: compactItems items ++ [']']
  | object members => '\x7b' :: compactMembers members ++ ['\x7d']
  | leaf => leafText leaf

/-- The items of an array, with commas between them. -/
def compactItems : List Document → List Char
  | [] => []
  | [d] => d.compactChars
  | d :: ds => d.compactChars ++ ',' :: compactItems ds

/-- The members of an object, with commas between them. -/
def compactMembers : List (Option String × Document) → List Char
  | [] => []
  | [(name, d)] => quoted name ++ ':' :: d.compactChars
  | (name, d) :: ms => quoted name ++ ':' :: d.compactChars ++ ',' :: compactMembers ms

end

/-- The text of a document without blanks. -/
def compact (d : Document) : String := String.ofList d.compactChars

/-! ## With a line for each part -/

/-- A line end and the indentation of a level. -/
def newLine (level : Nat) : List Char := '\n' :: List.replicate (2 * level) ' '

mutual

/-- The text of a document whose parts stand on lines of their own, one level further in. -/
def prettyChars (level : Nat) : Document → List Char
  | array [] => ['[', ']']
  | object [] => ['\x7b', '\x7d']
  | array items => '[' :: prettyItems (level + 1) items ++ newLine level ++ [']']
  | object members => '\x7b' :: prettyMembers (level + 1) members ++ newLine level ++ ['\x7d']
  | leaf => leafText leaf

/-- The items of an array, each on its own line. -/
def prettyItems (level : Nat) : List Document → List Char
  | [] => []
  | [d] => newLine level ++ d.prettyChars level
  | d :: ds => newLine level ++ d.prettyChars level ++ ',' :: prettyItems level ds

/-- The members of an object, each on its own line. -/
def prettyMembers (level : Nat) : List (Option String × Document) → List Char
  | [] => []
  | [(name, d)] => newLine level ++ quoted name ++ ':' :: ' ' :: d.prettyChars level
  | (name, d) :: ms =>
    newLine level ++ quoted name ++ ':' :: ' ' :: d.prettyChars level ++
      ',' :: prettyMembers level ms

end

/-- The text of a document with a line for each item and member. -/
def pretty (d : Document) : String := String.ofList (d.prettyChars 0)

end Document

end StrategyTree
