import StrategyTree.Calendar.DateText
import StrategyTree.Document.Reader
import StrategyTree.Tree.OfDocument
import StrategyTree.Tree.ToDocument

/-!
# Backtest requests

A `Request` asks for a strategy to be run over a range of dates. In a document it is an object, or
an array of its parts in order, of which the last may be missing.

* `Request.read`: a request read from the text of a document.
* `Request.validate`: refuses a balance that is too small and dates in the wrong order.
-/

namespace StrategyTree

open Document

/-- A request for a backtest: the capital in whole units, the first and the last day wanted, the
strategy, and whether the result lists every day. -/
structure Request (α : Type) where
  startingBalance : Nat
  startDate : Date
  endDate : Date
  tree : Node α
  history : Bool

namespace Request

/-- The smallest capital a request may start with. -/
def leastBalance : Nat := 1000

/-- Refuses a request that makes no sense. -/
def validate {α : Type} (r : Request α) : Except Error Unit :=
  if r.startingBalance < leastBalance then
    .error (.configInvalid "request" "starting_balance"
      ("starting_balance must be at least " ++ toString leastBalance))
  else if r.endDate ≤ r.startDate then
    .error (.configInvalid "request" "start_date" "start_date must be before end_date")
  else .ok ()

/-! ## Reading -/

/-- Reads a date. -/
def dateOf (d : Document) : Option Date := do
  (DateText.read true (← d.toText?).toList).toOption

/-- Reads what the result should include. -/
def historyOf : Document → Option Bool
  | object members => do
    match ← optional "history" (← namedMembers members) with
    | none => return false
    | some d => d.toBool?
  | array [] => some false
  | array [d] => d.toBool?
  | _ => none

/-- The request made of its parts. -/
def ofParts (balance first last tree : Document) (include_ : Option Document) :
    Option (Request Float) := do
  return {
    startingBalance := ← balance.toNat? countLimit
    startDate := ← dateOf first
    endDate := ← dateOf last
    tree := ← Node.readWithin 1 tree
    history := ← (include_.map historyOf).getD (some false) }

/-- Reads a request. -/
def ofDocument : Document → Option (Request Float)
  | object members => do
    let ms ← namedMembers members
    ofParts (← required "starting_balance" ms) (← required "start_date" ms)
      (← required "end_date" ms) (← required "trading_bot" ms) (← optional "include" ms)
  | array [balance, first, last, tree] => ofParts balance first last tree none
  | array [balance, first, last, tree, include_] => ofParts balance first last tree (some include_)
  | _ => none

/-- Reads a request from a text. -/
def read (s : String) : Except Error (Request Float) :=
  match Document.read s.toList >>= ofDocument with
  | some r => .ok r
  | none => .error .malformedDocument

/-- Reads a request from a text and refuses one that makes no sense. -/
def readValid (s : String) : Except Error (Request Float) := do
  let r ← read s
  r.validate
  return r

/-! ## Writing -/

/-- A request as a document. -/
def toDocument (r : Request Float) : Document :=
  record [("starting_balance", nat r.startingBalance),
    ("start_date", text (DateText.render r.startDate)),
    ("end_date", text (DateText.render r.endDate)),
    ("trading_bot", r.tree.toDocument),
    ("include", record [("history", bool r.history)])]

end Request

end StrategyTree
