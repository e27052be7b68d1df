import StrategyTree.Evaluation
import StrategyTree.PriceTable

/-!
# Portfolios

A `Portfolio` holds shares of tickers and cash. `Portfolio.rebalance` brings it to an allocation at
the closes of a day: it marks the holdings to those closes, sets every allocated ticker that has a
positive close to its percentage of the marked balance, and keeps the rest as cash. Tickers without
a positive close, and tickers that the allocation does not name, keep their shares.

The new portfolio is returned also when rebalancing fails: the balance is marked and the tickers
before the one that failed are traded, while cash and trade log are those of before.

* `Portfolio.rebalance_log`: the trades of a success are appended to the log.
-/

namespace StrategyTree

open Scalar

/-- What is held of a ticker: its percentage of the balance, the shares, and their value at the last
known close. -/
structure Holding (α : Type) where
  percentage : α
  shares : α
  value : α
  deriving Repr

/-- The two sides of a trade. -/
inductive TradeSide where
  | buy
  | sell
  deriving DecidableEq, Repr

/-- A trade. -/
structure Trade (α : Type) where
  index : Nat
  ticker : String
  side : TradeSide
  shares : α
  price : α
  deriving Repr

/-- Holdings, cash and trades, the oldest first, and the value of everything when the holdings were
last marked. -/
structure Portfolio (α : Type) where
  holdings : SortedMap String (Holding α) := SortedMap.empty
  cash : α
  balance : α
  log : List (Trade α) := []

/-- The result of a successful rebalancing: the value of everything before any trade, and the
trades, sales before purchases. -/
structure Rebalanced (α : Type) where
  balance : α
  trades : List (Trade α)

/-- A rebalancing that is under way. -/
structure Trading (α : Type) where
  holdings : SortedMap String (Holding α)
  sales : List (Trade α) := []
  purchases : List (Trade α) := []

namespace Portfolio

variable {α : Type} [Scalar α]

/-- A portfolio of cash only. -/
def ofCash (cash : α) : Portfolio α := { cash := cash, balance := cash }

/-- The value of all holdings. -/
def invested (holdings : SortedMap String (Holding α)) : α :=
  sum (holdings.values.map Holding.value)

/-- The number of shares held of a ticker. -/
def sharesOf (holdings : SortedMap String (Holding α)) (ticker : String) : α :=
  match holdings.get? ticker with
  | some h => h.shares
  | none => zero

/-! ## Marking -/

/-- A holding at the close of a day, or as it was where there is no close. -/
def markHolding (table : PriceTable α) (index : Nat) (ticker : String) (h : Holding α) :
    Holding α :=
  match table.closeAt? ticker index with
  | some price => { h with value := h.shares * price }
  | none => h

/-- The holdings at the closes of a day. -/
def marked (p : Portfolio α) (table : PriceTable α) (index : Nat) : SortedMap String (Holding α) :=
  p.holdings.mapValues (markHolding table index)

/-- The balance at the closes of a day. -/
def markedBalance (p : Portfolio α) (table : PriceTable α) (index : Nat) : α :=
  invested (p.marked table index) + p.cash

/-! ## Trading -/

/-- A change of this many shares or more is a trade. -/
def leastTrade : α := tenToMinus 12

/-- The trade that changes a number of shares to another, if there is need for one. -/
def tradeFor (index : Nat) (ticker : String) (price held target : α) : Option (Trade α) :=
  let change := target - held
  if atLeast (abs change) leastTrade then
    some ⟨index, ticker, if zero < change then .buy else .sell, abs change, price⟩
  else none

/-- The holdings with a ticker at a number of shares; none are held unless it is positive. -/
def setShares (holdings : SortedMap String (Holding α)) (ticker : String)
    (percentage price target : α) : SortedMap String (Holding α) :=
  if zero < target then holdings.insert ticker ⟨percentage, target, target * price⟩
  else holdings.erase ticker

/-- Files a trade among the sales or the purchases. -/
def Trading.file (s : Trading α) (trade : Option (Trade α)) : Trading α :=
  match trade with
  | none => s
  | some t =>
    match t.side with
    | .sell => { s with sales := s.sales ++ [t] }
    | .buy => { s with purchases := s.purchases ++ [t] }

/-- Brings one ticker to its percentage of a balance, if it has a positive close. -/
def tradeTicker (table : PriceTable α) (index : Nat) (balance : α) (s : Trading α)
    (ticker : String) (percentage : Option α) : Except Error (Trading α) := do
  match ← table.close ticker index with
  | none => return s
  | some price =>
    if zero < price then
      let percentage := percentage.getD zero
      let target := percentage / hundred * balance / price
      let s := Trading.file s
        (tradeFor index ticker price (sharesOf s.holdings ticker) target)
      return { s with holdings := setShares s.holdings ticker percentage price target }
    else return s

/-- Brings the tickers of an allocation to their percentages one after the other, up to the first
that fails. -/
def tradeAll (table : PriceTable α) (index : Nat) (balance : α) (s : Trading α) :
    List (String × Option α) → Trading α × Except Error Unit
  | [] => (s, .ok ())
  | (ticker, percentage) :: rest =>
    match tradeTicker table index balance s ticker percentage with
    | .error e => (s, .error e)
    | .ok s => tradeAll table index balance s rest

/-- Sets the percentages of all holdings by their values. -/
def withPercentages (balance : α) (holdings : SortedMap String (Holding α)) :
    SortedMap String (Holding α) :=
  holdings.mapValues fun _ h => { h with percentage := h.value / balance * hundred }

/-- Brings a portfolio to an allocation at the closes of a day. Every ticker held must be loaded;
every ticker named must be. -/
def rebalance (p : Portfolio α) (table : PriceTable α) (index : Nat) (allocation : Allocation α) :
    Portfolio α × Except Error (Rebalanced α) :=
  match p.holdings.keys.find? fun ticker => !table.isLoaded ticker with
  | some ticker => (p, .error (.tickerNotLoaded ticker))
  | none =>
    let balance := p.markedBalance table index
    match tradeAll table index balance { holdings := p.marked table index } allocation.entries with
    | (s, .error e) => ({ p with holdings := s.holdings, balance := balance }, .error e)
    | (s, .ok ()) =>
      let trades := s.sales ++ s.purchases
      ({ holdings := withPercentages balance s.holdings
         cash := balance - invested s.holdings
         balance := balance
         log := p.log ++ trades },
        .ok ⟨balance, trades⟩)

theorem rebalance_log {p q : Portfolio α} {table : PriceTable α} {index : Nat}
    {allocation : Allocation α} {r : Rebalanced α}
    (h : p.rebalance table index allocation = (q, .ok r)) : q.log = p.log ++ r.trades := by
  unfold rebalance at h
  split at h
  · cases h
  · simp only at h
    split at h
    · cases h
    · cases h
      rfl

end Portfolio

end StrategyTree
