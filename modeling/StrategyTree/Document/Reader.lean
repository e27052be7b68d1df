import StrategyTree.Document.Token

/-!
# Reading documents

The reader takes tokens one by one and keeps the arrays and objects that are still open on a stack,
so that it reads documents of any depth. `Reader.run_append` says that it may be run piece by piece,
and `Document.read` is the document of a whole text.
-/

namespace StrategyTree.Document

/-- An array or object that is being read and waits for a document inside it to end, with what has
been read of it, the last one first. -/
inductive Slot where
  | item (done : List Document)
  | member (done : List (Option String × Document)) (name : Option String)

/-- What the reader expects next. `value` is a document, which then goes to the innermost slot;
`firstItem`, `firstName`, `afterItem` and `afterMember` may also be an end. -/
inductive Reader where
  | value (slots : List Slot)
  | firstItem (slots : List Slot)
  | firstName (slots : List Slot)
  | nextName (done : List (Option String × Document)) (slots : List Slot)
  | colon (done : List (Option String × Document)) (name : Option String) (slots : List Slot)
  | afterItem (done : List Document) (slots : List Slot)
  | afterMember (done : List (Option String × Document)) (slots : List Slot)
  | finished (document : Document)

namespace Reader

/-- Puts a document into the innermost slot. -/
def fill (d : Document) : List Slot → Reader
  | [] => .finished d
  | .item done :: slots => .afterItem (d :: done) slots
  | .member done name :: slots => .afterMember ((name, d) :: done) slots

/-- Takes the first token of a document. -/
def begin (slots : List Slot) : Token → Option Reader
  | .openArray => some (.firstItem slots)
  | .openObject => some (.firstName slots)
  | .leaf d => some (fill d slots)
  | _ => none

/-- Takes one token. -/
def step (r : Reader) (t : Token) : Option Reader :=
  match r, t with
  | .value slots, t => begin slots t
  | .firstItem slots, .closeArray => some (fill (.array []) slots)
  | .firstItem slots, t => begin (.item [] :: slots) t
  | .firstName slots, .closeObject => some (fill (.object []) slots)
  | .firstName slots, .leaf (.string s) => some (.colon [] s slots)
  | .nextName done slots, .leaf (.string s) => some (.colon done s slots)
  | .colon done name slots, .colon => some (.value (.member done name :: slots))
  | .afterItem done slots, .comma => some (.value (.item done :: slots))
  | .afterItem done slots, .closeArray => some (fill (.array done.reverse) slots)
  | .afterMember done slots, .comma => some (.nextName done slots)
  | .afterMember done slots, .closeObject => some (fill (.object done.reverse) slots)
  | _, _ => none

/-- Takes a list of tokens. -/
def run (r : Reader) (ts : List Token) : Option Reader := ts.foldlM step r

theorem run_append (r : Reader) (s t : List Token) :
    r.run (s ++ t) = r.run s >>= fun r => r.run t := by
  simp [run, List.foldlM_append]

end Reader

/-- The document of a list of tokens. -/
def ofTokens (ts : List Token) : Option Document :=
  match Reader.run (.value []) ts with
  | some (.finished d) => some d
  | _ => none

/-- The document of a text. -/
def read (s : List Char) : Option Document := tokens s >>= ofTokens

end StrategyTree.Document
