import StrategyTree.Calendar.DateText
import StrategyTree.Calendar.Search
import StrategyTree.PriceTable
import StrategyTree.Requirements

/-!
# Price sources, and what is loaded from them

A `PriceSource` answers questions about the closes of tickers. `Bounds.resolve` finds the days over
which a strategy can run: within the dates asked for and the data of all its tickers, and late
enough for its look-back. `PriceTable.load` puts the closes within such bounds on the trading days
of one ticker, the anchor.

* `PriceSource.ofCloses`: a source that holds all closes in memory.
-/

namespace StrategyTree

variable {α : Type}

/-- The first day, the last day and the number of days of a ticker's data. -/
structure Span where
  first : Date
  last : Date
  count : Nat
  deriving DecidableEq, Repr

/-- Where closes come from. Between two days means both included; of an unknown ticker there are no
closes. -/
structure PriceSource (α : Type) where
  closes : String → Date → Date → Except Error (List (Close α))
  calendar : String → Date → Date → Except Error (List Date)
  span : String → Except Error (Option Span)
  symbols : Except Error (List String)

namespace PriceSource

/-- The closes between two days, both included. -/
def within (first last : Date) (closes : List (Close α)) : List (Close α) :=
  closes.filter fun c => decide (first ≤ c.date) && decide (c.date ≤ last)

/-- The extent of a list of closes. -/
def spanOf (closes : List (Close α)) : Option Span :=
  match closes with
  | [] => none
  | c :: cs => some
      { first := cs.foldl (fun d c => min d c.date) c.date
        last := cs.foldl (fun d c => max d c.date) c.date
        count := closes.length }

/-- A source of closes held in memory, in any order, in which some tickers may be out of reach for a
given reason. -/
def ofCloses (closes : SortedMap String (List (Close α))) (failures : SortedMap String String) :
    PriceSource α :=
  let reachable (ticker : String) : Except Error Unit :=
    match failures.get? ticker with
    | some reason => .error (.priceData reason)
    | none => .ok ()
  { closes := fun ticker first last => do
      reachable ticker
      return within first last ((closes.get? ticker).getD [])
    calendar := fun ticker first last => do
      reachable ticker
      match closes.get? ticker with
      | some cs => return (within first last cs).map Close.date
      | none => throw (.priceData ("no data for " ++ ticker))
    span := fun ticker => do
      reachable ticker
      return closes.get? ticker >>= spanOf
    symbols := .ok closes.keys }

/-- The extent of a ticker's data, which it must have. -/
def knownSpan (source : PriceSource α) (ticker : String) : Except Error Span := do
  match ← source.span ticker with
  | some s => return s
  | none => throw (.insufficientData ("no data for " ++ ticker))

end PriceSource

/-! ## Bounds -/

/-- The days over which a strategy runs: the first that is looked back on, the first of trading, and
the last. -/
structure Bounds where
  lookbackStart : Date
  tradeableStart : Date
  tradeableEnd : Date
  deriving DecidableEq, Repr

namespace Bounds

/-- How far the data of the tickers seen so far let trading and looking back begin, and trading
end. -/
structure Reach where
  start : Date
  stop : Date
  lookback : Option Date := none

/-- Takes in the data of a ticker. -/
def Reach.add (source : PriceSource α) (r : Requirements) (reach : Reach) (ticker : String) :
    Except Error Reach := do
  let s ← source.knownSpan ticker
  return {
    start := if r.tradeable.contains ticker then max reach.start s.first else reach.start
    stop := min reach.stop s.last
    lookback :=
      if r.lookback.contains ticker then
        some (match reach.lookback with
          | some d => max d s.first
          | none => s.first)
      else reach.lookback }

/-- The ticker whose trading days are the axis, which a strategy must have. -/
def anchorOf (r : Requirements) : Except Error String :=
  match r.anchor with
  | some ticker => .ok ticker
  | none => .error (.insufficientData "strategy references no tickers")

/-- The position in a calendar of the first day on which all tickers looked back on have data. -/
def Reach.earliest (reach : Reach) (calendar : List Date) : Nat :=
  match reach.lookback with
  | some first => searchFirst (fun d => decide (d < first)) calendar
  | none => 0

/-- The positions in a calendar of the first day of looking back and of the first day of trading:
as early as the look-back and the data of the tickers looked back on allow. They are reckoned in
words: where the look-back does not fit behind the earliest day, they say nothing. -/
def positions (calendar : List Date) (lookback : Nat) (reach : Reach) : Nat × Nat :=
  let requested := searchFirst (fun d => decide (d < reach.start)) calendar
  let position := max requested (Word.add (reach.earliest calendar) lookback)
  (Word.sub position lookback, position)

/-- Finds the bounds of a strategy for the days from `first` to `last`, of which none may lie after
`today`. -/
def resolve (source : PriceSource α) (r : Requirements) (first last today : Date) :
    Except Error Bounds := do
  let start := first.rollForward
  let stop := (min last today).rollBack
  if stop < start then
    throw (.insufficientData
      ("no trading days between " ++ DateText.render start ++ " and " ++ DateText.render stop))
  let reach ← r.tickers.toList.foldlM (Reach.add source r) { start := start, stop := stop }
  if reach.stop < reach.start then
    throw (.insufficientData
      ("assets share no history in range (start " ++ DateText.render reach.start ++ ", end " ++
        DateText.render reach.stop ++ ")"))
  let anchor ← anchorOf r
  let calendar ← source.calendar anchor (← source.knownSpan anchor).first reach.stop
  let (lookbackAt, tradeableAt) := positions calendar r.requiredLookback reach
  match calendar[tradeableAt]?, calendar[lookbackAt]? with
  | some tradeableStart, some lookbackStart => return ⟨lookbackStart, tradeableStart, reach.stop⟩
  | some _, none => throw (.outOfRange lookbackAt calendar.length)
  | none, _ =>
    throw (.insufficientData
      (toString r.requiredLookback ++ " lookback days leave no trading days before " ++
        DateText.render reach.stop ++ " on " ++ anchor))

end Bounds

/-! ## Loading -/

/-- Loads the closes that a strategy needs within bounds: those of the tickers it looks back on from
the first day looked back on, those of the others from the first day of trading. -/
def PriceTable.load (source : PriceSource α) (r : Requirements) (b : Bounds) :
    Except Error (PriceTable α) := do
  let anchor ← Bounds.anchorOf r
  let dates ← source.calendar anchor b.lookbackStart b.tradeableEnd
  let looked ← r.lookback.toList.mapM fun t =>
    return (t, ← source.closes t b.lookbackStart b.tradeableEnd)
  let traded ← r.tradeableOnly.toList.mapM fun t =>
    return (t, ← source.closes t b.tradeableStart b.tradeableEnd)
  let raw := SortedMap.ofList (looked ++ traded)
  return {
    dates := dates
    series := r.tickers.mapValues fun t _ => align dates ((raw.get? t).getD [])
    tradeableStart := searchFirst (fun d => decide (d < b.tradeableStart)) dates
    aligned := by
      intro e he
      obtain ⟨_, _, rfl⟩ := List.mem_map.1 he
      exact length_align .. }

end StrategyTree
