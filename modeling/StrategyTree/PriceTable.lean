import StrategyTree.Calendar.Date
import StrategyTree.Error
import StrategyTree.Keyed

/-!
# Prices on one day axis

A `PriceTable` holds the closes of all tickers of a strategy on one axis of trading days, so that an
index means the same day for every ticker. Where a ticker has no close the entry is `none`.

`align` puts a list of closes on an axis: before the first close and after the last one there is
nothing, and in between the latest close is carried forward.

* `length_align`: an aligned series is as long as the axis.
-/

namespace StrategyTree

/-- The close of a day. -/
structure Close (α : Type) where
  date : Date
  price : α
  deriving Repr

variable {α : Type}

/-! ## Alignment -/

/-- The price of a day in a list of closes; of several, the last one. -/
def priceOn (closes : List (Close α)) (date : Date) : Option α :=
  (closes.reverse.find? fun c => c.date == date).map Close.price

/-- Puts closes on an axis, between the dates `first` and `last`, starting with a price carried
over from the days before. -/
def carryForward (first last : Date) (closes : List (Close α)) (carried : Option α) :
    List Date → List (Option α)
  | [] => []
  | date :: dates =>
    if date < first ∨ last < date then none :: carryForward first last closes carried dates
    else
      let carried := (priceOn closes date).or carried
      carried :: carryForward first last closes carried dates

/-- Puts closes on an axis. -/
def align (dates : List Date) (closes : List (Close α)) : List (Option α) :=
  match closes.head?, closes.getLast? with
  | some first, some last => carryForward first.date last.date closes none dates
  | _, _ => dates.map fun _ => none

theorem length_carryForward (first last : Date) (closes : List (Close α)) (carried : Option α)
    (dates : List Date) : (carryForward first last closes carried dates).length = dates.length := by
  induction dates generalizing carried with
  | nil => rfl
  | cons date dates ih =>
    rw [carryForward]
    split <;> simp [ih]

theorem length_align (dates : List Date) (closes : List (Close α)) :
    (align dates closes).length = dates.length := by
  unfold align
  split
  · exact length_carryForward ..
  · exact List.length_map ..

/-! ## Tables -/

/-- The closes of a strategy's tickers along an axis of trading days, and the index of the first day
on which trading is wanted. -/
structure PriceTable (α : Type) where
  dates : List Date
  series : SortedMap String (List (Option α))
  tradeableStart : Nat
  aligned : ∀ e ∈ series.entries, e.2.length = dates.length

namespace PriceTable

/-- A table of series, all of which must be as long as the axis. -/
def ofSeries (dates : List Date) (series : SortedMap String (List (Option α)))
    (tradeableStart : Nat) : Except Error (PriceTable α) :=
  match h : series.entries.find? fun e => e.2.length != dates.length with
  | some (ticker, closes) =>
    .error (.priceData
      s!"series {ticker} has {closes.length} entries, expected {dates.length}")
  | none => .ok ⟨dates, series, tradeableStart, by simpa using h⟩

/-- The number of days. -/
def length (t : PriceTable α) : Nat := t.dates.length

/-- Whether a series was loaded for a ticker. -/
def isLoaded (t : PriceTable α) (ticker : String) : Bool := t.series.contains ticker

/-- All closes of a ticker. -/
def closes (t : PriceTable α) (ticker : String) : Except Error (List (Option α)) :=
  match t.series.get? ticker with
  | some closes => .ok closes
  | none => .error (.tickerNotLoaded ticker)

/-- The close of a ticker on a day, if it has one; past the axis there is none. -/
def closeAt? (t : PriceTable α) (ticker : String) (index : Nat) : Option α :=
  match t.series.get? ticker with
  | some closes => closes[index]?.join
  | none => none

/-- The close of a ticker on a day, if it has one; the ticker must be loaded. -/
def close (t : PriceTable α) (ticker : String) (index : Nat) : Except Error (Option α) := do
  return (← t.closes ticker)[index]?.join

/-- Whether any ticker has a close on a day. -/
def hasCloses (t : PriceTable α) (index : Nat) : Bool :=
  t.series.values.any fun closes => closes[index]?.join.isSome

/-- The date of a day. -/
def dateAt? (t : PriceTable α) (index : Nat) : Option Date := t.dates[index]?

/-- The last index of a date. -/
def indexOf? (t : PriceTable α) (date : Date) : Option Nat :=
  (t.dates.reverse.findIdx? fun d => d == date).map fun i => t.dates.length - 1 - i

/-- The first day on which a ticker has a close. -/
def firstIndex? (t : PriceTable α) (ticker : String) : Option Nat :=
  t.series.get? ticker >>= fun closes => closes.findIdx? Option.isSome

/-- The days from an index on, up to the end of the axis or the first day without any close. -/
def daysFrom (t : PriceTable α) (start : Nat) : List Nat :=
  (List.range' start (t.length - start)).takeWhile t.hasCloses

end PriceTable

end StrategyTree
