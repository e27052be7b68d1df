import StrategyTree.Proofs.Prices.Loading
import StrategyTree.Proofs.Simulation.Run

/-!
# Days without a price

Bounds are resolved from the first and the last day of a ticker's whole data, but loaded are only
its closes within the bounds, and for a ticker that is only traded those from the first day of
trading on. So a ticker can be without a price at either end of the axis though it has traded before
and goes on to trade after: a series carries closes forward from the first loaded one to the last
loaded one, and no others.

* `Requirements.loadedDays`: the days of the closes that are loaded for a ticker.
* `PriceTable.priced_between_loaded_days`: the days on which a ticker that is traded has a price.
-/

namespace StrategyTree

variable {α : Type}

/-- The days of the closes that are loaded for a ticker: up to the last day, from the first day
looked back on for a ticker that is looked back on, and from the first day of trading for others. -/
def Requirements.loadedDays (r : Requirements) (b : Bounds) (data : String → List (Close α))
    (x : String) : List Date :=
  Date.between (if r.lookback.contains x then b.lookbackStart else b.tradeableStart) b.tradeableEnd
    (tradingDays (data x))

namespace PriceTable

variable {table : PriceTable α} {r : Requirements} {b : Bounds} {data : String → List (Close α)}

/-- The series of a ticker that is traded is made of the closes loaded for it. -/
theorem Loaded.exists_closes (h : table.Loaded r b data) {x : String}
    (ht : r.tickers.contains x = true) (hx : r.tradeable.contains x = true) :
    ∃ closes, table.series.get? x = some (align table.dates closes) ∧
      tradingDays closes = r.loadedDays b data x := by
  unfold Requirements.loadedDays
  by_cases hl : r.lookback.contains x = true
  · rw [if_pos hl, ← tradingDays_within]
    exact ⟨_, h.lookback x ht hl, rfl⟩
  · have only : r.tradeableOnly.contains x = true := by
      rw [Requirements.tradeableOnly, SortedSet.contains_diff]
      exact ⟨hx, Bool.eq_false_iff.2 hl⟩
    rw [if_neg hl, ← tradingDays_within]
    exact ⟨_, h.tradeableOnly x ht only, rfl⟩

theorem Loaded.ascending_dates (h : table.Loaded r b data)
    (hasc : ∀ x, (tradingDays (data x)).Pairwise fun d e => d < e) :
    table.dates.Pairwise fun d e => d < e := by
  rw [h.dates]
  exact (r.ascending_anchorDays hasc).filter _

/-- Prices of a ticker that is traded. It has a price on a day of the axis exactly if closes are
loaded for a day of the axis up to then, and for that day or a later one. -/
theorem Loaded.isSome_closeAt?_iff (h : table.Loaded r b data)
    (hasc : ∀ x, (tradingDays (data x)).Pairwise fun d e => d < e)
    (hdates : table.dates.Pairwise fun d e => d < e) {x : String}
    (ht : r.tickers.contains x = true) (hx : r.tradeable.contains x = true) {i : Nat} {d : Date}
    (hi : table.dates[i]? = some d) : (table.closeAt? x i).isSome = true ↔
      (∃ e ∈ r.loadedDays b data x, e ∈ table.dates ∧ e ≤ d) ∧
        ∃ e ∈ r.loadedDays b data x, d ≤ e := by
  obtain ⟨closes, hget, hdays⟩ := h.exists_closes ht hx
  have ascending : (tradingDays closes).Pairwise fun d e => d < e := by
    rw [hdays]
    exact (hasc x).filter _
  rw [closeAt?_of_get? hget, isSome_align_iff hdates ascending hi, hdays]

/-- **Main theorem: prices between the loaded days.** Let bounds have been resolved and a table been
loaded within them. A ticker that is traded has a price on a day of the axis only if closes of it
are loaded for a day up to then and for a day from then on, and it has one if two such days are on
the axis. So it has a price on every day from the first day of trading on if closes are loaded for a
day of the axis up to that one and for the last day of the axis. -/
theorem priced_between_loaded_days {source : PriceSource α} (hs : source.Serves data)
    {tree : Node α} (hr : Requirements.ofTree tree = .ok r) {first last today : Date}
    (hb : Bounds.resolve source r first last today = .ok b) (hl : load source r b = .ok table)
    {x : String} (hx : r.tradeable.contains x = true) :
    (∀ i d, table.dates[i]? = some d → (table.closeAt? x i).isSome = true →
      (∃ e ∈ r.loadedDays b data x, e ≤ d) ∧ ∃ e ∈ r.loadedDays b data x, d ≤ e) ∧
    (∀ i d, table.dates[i]? = some d → (∃ e ∈ r.loadedDays b data x, e ∈ table.dates ∧ e ≤ d) →
      (∃ e ∈ r.loadedDays b data x, e ∈ table.dates ∧ d ≤ e) →
      (table.closeAt? x i).isSome = true) ∧
    ∀ f l, table.dates[table.tradeableStart]? = some f → table.dates.getLast? = some l →
      (∃ e ∈ r.loadedDays b data x, e ∈ table.dates ∧ e ≤ f) → l ∈ r.loadedDays b data x →
      ∀ i, table.tradeableStart ≤ i → i < table.length → (table.closeAt? x i).isSome = true := by
  have loaded := loaded_of_load hs hb hl
  have ascending := loaded.ascending_dates hs.ascending
  have priced : ∀ {i d}, table.dates[i]? = some d → ((table.closeAt? x i).isSome = true ↔ _) :=
    loaded.isSome_closeAt?_iff hs.ascending ascending (Requirements.tickers_of_tradeable hr hx) hx
  refine ⟨fun i d hd hsome => ?_, fun i d hd before ⟨e, he, _, hle⟩ => ?_, ?_⟩
  · obtain ⟨⟨e, he, -, hle⟩, after⟩ := (priced hd).1 hsome
    exact ⟨⟨e, he, hle⟩, after⟩
  · exact (priced hd).2 ⟨before, e, he, hle⟩
  · rintro f l hf hlast ⟨e, he, hmem, hle⟩ hl i hi hlt
    have hday := List.getElem?_eq_getElem hlt
    have later : f ≤ table.dates[i] := Date.le_of_getElem? ascending hf hday hi
    have earlier : table.dates[i] ≤ l :=
      Date.le_of_getLast? ascending hlast (List.mem_of_getElem? hday)
    exact (priced hday).2 ⟨⟨e, he, hmem, Date.le_trans hle later⟩, l, hl, earlier⟩

/-- Stocks while they are dear, otherwise bonds. -/
def eitherTree : Node Nat :=
  .choice "either" none ⟨.all, [⟨⟨"SPY", .movingAveragePrice, 2⟩, .greater, .fixed 500⟩]⟩
    (.asset "stocks" none "SPY") (.asset "bonds" none "TLT")

/-- Closes on the working days of a week; the bonds do not trade on all of them. -/
def weekCloses : SortedMap String (List (Close Nat)) where
  entries :=
    [("SPY", [⟨20003, 500⟩, ⟨20004, 505⟩, ⟨20005, 490⟩, ⟨20006, 510⟩, ⟨20007, 515⟩]),
      ("TLT", [⟨20003, 90⟩, ⟨20005, 91⟩, ⟨20007, 93⟩])]
  ascending := by decide

theorem priced_between_loaded_days_eitherTree :
    ∃ r b table, Requirements.ofTree eitherTree = .ok r ∧
      Bounds.resolve (.ofCloses weekCloses .empty) r 20003 20007 20014 = .ok b ∧
      load (.ofCloses weekCloses .empty) r b = .ok table ∧
      table.tradeableStart = 2 ∧ table.length = 5 ∧ r.tradeable.contains "TLT" = true ∧
      ∀ i, table.tradeableStart ≤ i → i < table.length →
        (table.closeAt? "TLT" i).isSome = true := by
  have checked : (do
      let r ← Requirements.ofTree eitherTree
      let b ← Bounds.resolve (.ofCloses weekCloses .empty) r 20003 20007 20014
      let table ← load (.ofCloses weekCloses .empty) r b
      let days := r.loadedDays b (fun x => (weekCloses.get? x).getD []) "TLT"
      return decide (r.tradeable.contains "TLT" = true ∧ table.tradeableStart = 2 ∧
        table.length = 5 ∧ table.dates[table.tradeableStart]? = some 20005 ∧
        table.dates.getLast? = some 20007 ∧ (∃ e ∈ days, e ∈ table.dates ∧ e ≤ 20005) ∧
        20007 ∈ days)) = .ok true := by
    decide +kernel
  obtain ⟨r, hr, checked⟩ := Except.bind_eq_ok.1 checked
  obtain ⟨b, hb, checked⟩ := Except.bind_eq_ok.1 checked
  obtain ⟨table, hl, checked⟩ := Except.bind_eq_ok.1 checked
  obtain ⟨traded, start, length, firstDay, lastDay, before, after⟩ :=
    of_decide_eq_true (Except.ok.inj checked)
  have ascending : ∀ cs ∈ weekCloses.values, (tradingDays cs).Pairwise fun a b => a < b := by
    decide
  have served := PriceSource.serves_ofCloses ascending
  exact ⟨r, b, table, hr, hb, hl, start, length, traded,
    (priced_between_loaded_days served hr hb hl traded).2.2 _ _ firstDay lastDay before after⟩

/-- Stocks and bonds. -/
def bothTree : Node Nat :=
  .split "both" none .equal [.asset "stocks" none "SPY", .asset "bonds" none "TLT"]

/-- Closes of bonds that trade before the first day of trading and after the last one, but on
neither of them. -/
def sparseCloses : SortedMap String (List (Close Nat)) where
  entries :=
    [("SPY", [⟨20003, 500⟩, ⟨20004, 505⟩, ⟨20005, 490⟩, ⟨20006, 510⟩, ⟨20007, 515⟩]),
      ("TLT", [⟨20003, 90⟩, ⟨20005, 91⟩, ⟨20010, 93⟩])]
  ascending := by decide

/-- A ticker that is traded can be without a price on the first day of trading and on the last. -/
theorem unpriced_at_both_ends :
    ∃ r b table, Requirements.ofTree bothTree = .ok r ∧
      (PriceSource.ofCloses sparseCloses .empty).Serves (fun x => (sparseCloses.get? x).getD []) ∧
      Bounds.resolve (.ofCloses sparseCloses .empty) r 20004 20014 20014 = .ok b ∧
      load (.ofCloses sparseCloses .empty) r b = .ok table ∧
      r.tradeable.contains "TLT" = true ∧ table.tradeableStart < table.length ∧
      table.closeAt? "TLT" table.tradeableStart = none ∧
      table.closeAt? "TLT" (table.length - 1) = none := by
  have checked : (do
      let r ← Requirements.ofTree bothTree
      let b ← Bounds.resolve (.ofCloses sparseCloses .empty) r 20004 20014 20014
      let table ← load (.ofCloses sparseCloses .empty) r b
      return decide (r.tradeable.contains "TLT" = true ∧ table.tradeableStart < table.length ∧
        table.closeAt? "TLT" table.tradeableStart = none ∧
        table.closeAt? "TLT" (table.length - 1) = none)) = .ok true := by
    decide +kernel
  obtain ⟨r, hr, checked⟩ := Except.bind_eq_ok.1 checked
  obtain ⟨b, hb, checked⟩ := Except.bind_eq_ok.1 checked
  obtain ⟨table, hl, checked⟩ := Except.bind_eq_ok.1 checked
  have ascending : ∀ cs ∈ sparseCloses.values, (tradingDays cs).Pairwise fun a b => a < b := by
    decide
  exact ⟨r, b, table, hr, PriceSource.serves_ofCloses ascending, hb, hl,
    of_decide_eq_true (Except.ok.inj checked)⟩

end PriceTable

end StrategyTree
