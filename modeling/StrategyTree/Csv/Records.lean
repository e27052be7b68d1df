/-!
# Records of comma-separated text

A text is split into records of fields. Commas separate fields; a line feed, a carriage return or
both end a record; empty lines are passed over. A field may begin with a quote: up to the closing
quote everything belongs to it, and two quotes stand for one. What follows a closing quote is part
of the field too.

Every record knows where its reading began: the line, counted from 1 by the line feeds before, and
the byte. A byte order mark at the start of the text is passed over.

* `Splitter.run_append`: a text may be taken in piece by piece.
-/

namespace StrategyTree.Csv

/-- A record, with the line and the byte at which its reading began. -/
structure Record where
  fields : List String
  line : Nat
  byte : Nat
  deriving DecidableEq, Repr

/-- Where in a record the splitter stands; `quote` is after a quote within quotes. -/
inductive Place where
  | recordStart
  | fieldStart
  | field
  | quoted
  | quote
  deriving DecidableEq, Repr

/-- The state of the splitter: the complete records, the complete fields of the record at hand and
the characters of the field at hand, each with the last one first; where reading of that record
began; and where the next character stands. -/
structure Splitter where
  records : List Record := []
  fields : List String := []
  chars : List Char := []
  place : Place := .recordStart
  startLine : Nat := 1
  startByte : Nat := 0
  line : Nat := 1
  byte : Nat := 0

namespace Splitter

/-- Ends the field at hand. -/
def endField (s : Splitter) : Splitter :=
  { s with fields := String.ofList s.chars.reverse :: s.fields, chars := [], place := .fieldStart }

/-- Ends the record at hand. -/
def endRecord (s : Splitter) : Splitter :=
  let s := s.endField
  { s with
    records := ⟨s.fields.reverse, s.startLine, s.startByte⟩ :: s.records
    fields := []
    place := .recordStart
    startLine := s.line
    startByte := s.byte }

/-- Adds a character to the field at hand. -/
def push (s : Splitter) (c : Char) (place : Place) : Splitter :=
  { s with chars := c :: s.chars, place := place }

/-- Takes a character that is not within quotes and does not open any. -/
def plain (s : Splitter) (c : Char) : Splitter :=
  if c = ',' then s.endField
  else if c = '\n' ∨ c = '\r' then s.endRecord
  else s.push c .field

/-- Takes the first character of a field. -/
def first (s : Splitter) (c : Char) : Splitter :=
  if c = '"' then { s with place := .quoted } else s.plain c

/-- Counts a character. -/
def count (s : Splitter) (c : Char) : Splitter :=
  { s with byte := s.byte + c.utf8Size, line := if c = '\n' then s.line + 1 else s.line }

/-- Takes one character. -/
def step (s : Splitter) (c : Char) : Splitter :=
  let s := s.count c
  match s.place with
  | .recordStart => if c = '\n' ∨ c = '\r' then s else s.first c
  | .fieldStart => s.first c
  | .field => s.plain c
  | .quoted => if c = '"' then { s with place := .quote } else s.push c .quoted
  | .quote => if c = '"' then s.push c .quoted else s.plain c

/-- Takes a text. -/
def run (s : Splitter) (text : List Char) : Splitter := text.foldl step s

theorem run_append (s : Splitter) (t u : List Char) : s.run (t ++ u) = (s.run t).run u := by
  simp [run, List.foldl_append]

end Splitter

/-- The records of a text. -/
def records (text : List Char) : List Record :=
  let start : Splitter := {}
  let s := match text with
    | '\ufeff' :: rest => (start.count '\ufeff').run rest
    | rest => start.run rest
  (if s.place = .recordStart then s.records else s.endRecord.records).reverse

end StrategyTree.Csv
