import StrategyTree.Proofs.Lookback.Statistics

/-!
# The look-back suffices

The number of days that a strategy looks back is worked out from its windows and its nesting alone.
The bounds keep that many days before the first day of trading, and loading puts them on the axis.
This module concludes that they suffice: on the first day of trading every indicator and every
statistic has started, so that the backtest starts on that very day, and it goes on to the last. A
look-back that fits into no word is the exception: its days are not kept.

* `Backtest.prepare_of_sufficient`: where a backtest over a sufficient table starts.
* `Backtest.run_of_sufficient`: the days of such a backtest.
* `Backtest.lookback_suffices`: the whole way from a source of prices to the report.
* `Backtest.overlong_lookback_breaks_off`: a look-back that does not fit into a word.
-/

namespace StrategyTree

variable {α : Type} [Scalar α]

namespace Backtest

section Sufficient

variable {request : Request α} {r : Requirements} {table : PriceTable α} {settings : Settings α}
  (hr : Requirements.ofTree request.tree = .ok r) (hd : request.tree.DistinctIds)
  (hn : ∀ s ∈ r.statistics, s.depth ≤ settings.nestingLimit) (hsuff : table.Sufficient r)
  (hstart : table.tradeableStart = r.exactLookback)

include hr hd hn hsuff hstart

/-- The start. Over a sufficient table everything a backtest consults has started when the
look-back ends, and so the backtest starts there. -/
theorem prepare_of_sufficient :
    ∃ indicators statistics,
      IndicatorTable.load table r.indicators.toList = .ok indicators ∧
      StatisticTable.load request.tree r table indicators settings (capital request) =
        .ok statistics ∧
      startIndex table indicators statistics = table.tradeableStart ∧
      ∀ i, table.tradeableStart ≤ i → i < table.length → ∃ allocation,
        (⟨r.tradeable, indicators, statistics, settings⟩ : Evaluator α).evaluate i request.tree =
          .ok allocation := by
  obtain ⟨indicators, hindicators, present, covers⟩ := IndicatorTable.load_of_sufficient hr hsuff
  have ready : StatisticTable.Ready request.tree r table.length indicators := ⟨present, covers⟩
  obtain ⟨statistics, hstatistics, built⟩ :=
    StatisticTable.load_of_sufficient hr hsuff ready hd hn
  have lookback := r.startedBy_zero
  have indicators_started : ∀ key s, indicators.series.get? key = some s →
      s.start ≤ table.tradeableStart := by
    intro key s hs
    have started := (covers key s hs).1
    rw [hstart]
    unfold Requirements.exactLookback
    omega
  have statistics_started : ∀ id s, statistics.series.get? id = some s →
      s.start ≤ table.tradeableStart := by
    intro id s hs
    have started := (built.covers id s hs).1
    omega
  refine ⟨indicators, statistics, hindicators, hstatistics, ?_, fun i hi hlt => ?_⟩
  · have latest : startIndex table indicators statistics ≤ table.tradeableStart := by
      rw [startIndex_le_iff, IndicatorTable.firstComplete_le_iff,
        StatisticTable.firstComplete_le_iff]
      exact ⟨⟨Nat.le_refl _, indicators_started⟩, statistics_started⟩
    have earliest := (startIndex_le_iff.1 (Nat.le_refl
      (startIndex table indicators statistics))).1.1
    omega
  · apply StatisticTable.evaluate_of_built hr hd (Node.self_mem_walk 0 request.tree) ready built hlt
    · intro key s hs
      exact Nat.le_trans (indicators_started key s hs) hi
    · intro id _ s hs
      exact Nat.le_trans (statistics_started id s hs) hi

/-- The days. A backtest over a sufficient table succeeds, and its history goes from the end of
the look-back to the last day. -/
theorem run_of_sufficient :
    ∃ report points, run request r table settings (fun _ => false) = .ok report ∧
      (request.history = true → report.history = some points) ∧
      points.map HistoryPoint.date = table.dates.drop r.exactLookback ∧
      table.dates[r.exactLookback]? = some report.dateFrom ∧
      table.dates.getLast? = some report.dateTo := by
  obtain ⟨indicators, statistics, hindicators, hstatistics, start, evaluations⟩ :=
    prepare_of_sufficient hr hd hn hsuff hstart
  have long := hsuff.long
  have loaded : ∀ x, r.tradeable.contains x = true ∨ x ∈ request.tree.held →
      table.isLoaded x = true := by
    intro x hx
    rw [← Requirements.tradeable_iff_of_ofTree hr, or_self] at hx
    exact hsuff.isLoaded x (Requirements.tickers_of_tradeable hr hx)
  obtain ⟨days, portfolio, hdays, indices⟩ :=
    simulate_daysFrom_succeeds (capital request) hsuff.hasCloses evaluations loaded
  have within : ∀ d ∈ days, d.index < table.length := by
    intro d hd
    have hindex : d.index ∈ days.map Day.index := List.mem_map_of_mem hd
    rw [indices, List.mem_range'_1] at hindex
    omega
  obtain ⟨points, hpoints⟩ := exists_points within
  have count := congrArg List.length indices
  rw [List.length_map, List.length_range'] at count
  have dates : points.map HistoryPoint.date = table.dates.drop r.exactLookback := by
    rw [map_date_points hdays hpoints count, hstart]
  have first_date : (points.map HistoryPoint.date).head? = table.dates[r.exactLookback]? := by
    rw [dates, List.head?_drop]
  have last_date : (points.map HistoryPoint.date).getLast? = table.dates.getLast? := by
    rw [dates, List.getLast?_drop]
    exact if_neg (Nat.not_le.2 long)
  have nonempty : points ≠ [] := by
    intro hempty
    rw [hempty, List.map_nil, List.head?_nil, eq_comm, List.getElem?_eq_none_iff] at first_date
    exact absurd long (Nat.not_lt.2 first_date)
  have hfirst := List.head?_eq_some_head nonempty
  have hlast := List.getLast?_eq_some_getLast nonempty
  rw [List.head?_map, hfirst, Option.map_some] at first_date
  rw [List.getLast?_map, hlast, Option.map_some] at last_date
  have prepared := prepare_eq_ok.2 ⟨indicators, statistics, hindicators, hstatistics, rfl, rfl⟩
  rw [start] at prepared
  refine ⟨_, points, run_eq_ok.2 ⟨_, _, days, portfolio, points, _, _, prepared, hdays, hpoints,
    hfirst, hlast, rfl⟩, fun history => ?_, dates, first_date.symm, last_date.symm⟩
  exact if_pos history

end Sufficient

/-! ## From a source to the report -/

/-- **Main theorem: the look-back suffices.** For an accepted tree with distinct ids and no deeper
nesting than the settings allow, let bounds be resolved over a source that serves some data, let the
days of the anchor and those to look back on together be fewer than there are words, let every
ticker looked back on trade on the first day looked back on and on the anchor's last trading day
within the bounds, and let the strategy look back on some ticker if it looks back at all. Then
exactly as many days as the strategy looks back are loaded before the first day of trading, the
backtest starts on that day, not later, and it ends with the anchor's last trading day. Its history
has one entry for each trading day of the anchor in between. -/
theorem lookback_suffices {source : PriceSource α} {request : Request α} {r : Requirements}
    (hr : Requirements.ofTree request.tree = .ok r) (hd : request.tree.DistinctIds)
    {settings : Settings α} (hn : ∀ s ∈ r.statistics, s.depth ≤ settings.nestingLimit)
    {data : String → List (Close α)} (hs : source.Serves data) {today : Date} {b : Bounds}
    (hb : Bounds.resolve source r request.startDate request.endDate today = .ok b)
    (hfits : (r.anchorDays data).length + r.exactLookback < Word.size)
    (hends : ∀ x, r.lookback.contains x = true → b.lookbackStart ∈ tradingDays (data x) ∧
      ∀ last, Date.IsLastBy (r.anchorDays data) b.tradeableEnd last → last ∈ tradingDays (data x))
    (hne : r.lookback.toList ≠ [] ∨ r.requiredLookback = 0) :
    ∃ table indicators statistics report last,
      PriceTable.load source r b = .ok table ∧
      table.tradeableStart = r.requiredLookback ∧
      table.dateAt? table.tradeableStart = some b.tradeableStart ∧
      IndicatorTable.load table r.indicators.toList = .ok indicators ∧
      StatisticTable.load request.tree r table indicators settings (capital request) =
        .ok statistics ∧
      max (max table.tradeableStart indicators.firstComplete) statistics.firstComplete =
        table.tradeableStart ∧
      runOn source request settings today (fun _ => false) = .ok report ∧
      report.dateFrom = b.tradeableStart ∧ report.dateTo = last ∧
      Date.IsLastBy (r.anchorDays data) b.tradeableEnd last ∧
      (request.history = true → ∃ points, report.history = some points ∧
        points.map HistoryPoint.date = Date.between b.tradeableStart last (r.anchorDays data)) := by
  have exact : r.requiredLookback = r.exactLookback :=
    Requirements.requiredLookback_eq (by omega)
  rw [← exact] at hfits
  obtain ⟨anchor, hanchor, hdata⟩ := PriceTable.exists_anchor hs hb
  obtain ⟨table, hload, loaded⟩ := PriceTable.load_eq_ok hs hanchor hdata b
  obtain ⟨last, axis⟩ := loaded.axis hs hb hfits
  have sufficient : table.Sufficient r := by
    apply loaded.sufficient hr hs.ascending axis _ exact hne
    intro x hx
    exact ⟨(hends x hx).1, (hends x hx).2 last axis.isLast⟩
  have tradeableStart := axis.tradeableStart.trans exact
  obtain ⟨indicators, statistics, hindicators, hstatistics, start, -⟩ :=
    prepare_of_sufficient hr hd hn sufficient tradeableStart
  obtain ⟨report, points, hrun, history, dates, dateFrom, dateTo⟩ :=
    run_of_sufficient hr hd hn sufficient tradeableStart
  have report_of_source : runOn source request settings today (fun _ => false) = .ok report := by
    unfold runOn
    rw [hr, Except.ok_bind, hb, Except.ok_bind, hload, Except.ok_bind]
    exact hrun
  rw [← exact] at dates dateFrom
  rw [axis.trading, Option.some.injEq] at dateFrom
  rw [axis.getLast, Option.some.injEq] at dateTo
  refine ⟨table, indicators, statistics, report, last, hload, axis.tradeableStart, ?_, hindicators,
    hstatistics, start, report_of_source, dateFrom.symm, dateTo.symm, axis.isLast, fun h => ?_⟩
  · rw [axis.tradeableStart]
    exact axis.trading
  · exact ⟨points, history h, dates.trans axis.rest⟩

/-- A tree that ranks its two children, the second of which asks for a mean price and ranks two
children of its own. -/
def calmTree : Node Float :=
  .split "all" none (.inverseVolatility 2)
    [.asset "bonds" none "TLT",
      .choice "trend" none
        ⟨.any, [⟨⟨"SPY", .movingAveragePrice, 2⟩, .greater, .fixed 495⟩]⟩
        (.split "risky" none (.inverseVolatility 2)
          [.asset "stocks" none "SPY", .asset "gold" none "GLD"])
        (.asset "safety" none "GLD")]

/-- Ten working days of two weeks. -/
def twoWeeks : List Date :=
  [20003, 20004, 20005, 20006, 20007, 20010, 20011, 20012, 20013, 20014]

/-- The closes of three tickers over the two weeks. -/
def twoWeekCloses : SortedMap String (List (Close Float)) where
  entries :=
    [("GLD", List.zipWith Close.mk twoWeeks [200, 199, 201, 205, 203, 204, 203, 202, 204, 205]),
      ("SPY", List.zipWith Close.mk twoWeeks [500, 505, 490, 510, 515, 500, 520, 540, 530, 535]),
      ("TLT", List.zipWith Close.mk twoWeeks [90, 91, 90, 92, 91, 93, 92, 91, 92, 93])]
  ascending := by decide

/-- A request for the two weeks with a history. -/
def twoWeekRequest : Request Float where
  startingBalance := 10000
  startDate := 20003
  endDate := 20014
  tree := calmTree
  history := true

theorem lookback_suffices_calmTree :
    ∃ r b table report points, Requirements.ofTree calmTree = .ok r ∧
      PriceTable.load (.ofCloses twoWeekCloses .empty) r b = .ok table ∧
      table.tradeableStart = 6 ∧ table.dateAt? 6 = some b.tradeableStart ∧
      runOn (.ofCloses twoWeekCloses .empty) twoWeekRequest .default ⟨20014, by decide⟩
        (fun _ => false) = .ok report ∧
      report.history = some points ∧
      points.map HistoryPoint.date = Date.between b.tradeableStart report.dateTo twoWeeks := by
  have checked : (do
      let r ← Requirements.ofTree calmTree
      let b ← Bounds.resolve (.ofCloses twoWeekCloses .empty) r twoWeekRequest.startDate
        twoWeekRequest.endDate ⟨20014, by decide⟩
      return decide ((∀ s ∈ r.statistics, s.depth ≤ 3) ∧ r.requiredLookback = 6 ∧
        twoWeeks.length + r.exactLookback < Word.size ∧ r.lookback.toList ≠ [] ∧
        b.lookbackStart ∈ twoWeeks ∧
        r.anchorDays (fun x => (twoWeekCloses.get? x).getD []) = twoWeeks ∧
        ∀ x ∈ r.lookback.toList, tradingDays ((twoWeekCloses.get? x).getD []) = twoWeeks)) =
      .ok true := by
    decide +kernel
  obtain ⟨r, hr, checked⟩ := Except.bind_eq_ok.1 checked
  obtain ⟨b, hb, checked⟩ := Except.bind_eq_ok.1 checked
  obtain ⟨depth, lookback, fits, looked, start, anchor, days⟩ :=
    of_decide_eq_true (Except.ok.inj checked)
  have accepted : Requirements.ofTree twoWeekRequest.tree = .ok r := hr
  have distinct : twoWeekRequest.tree.DistinctIds := by decide
  have nesting : ∀ s ∈ r.statistics, s.depth ≤ (Settings.default : Settings Float).nestingLimit :=
    depth
  have ascending : ∀ cs ∈ twoWeekCloses.values,
      (tradingDays cs).Pairwise fun a b => a < b := by decide
  have served := PriceSource.serves_ofCloses ascending
  have ends : ∀ x, r.lookback.contains x = true →
      b.lookbackStart ∈ tradingDays ((twoWeekCloses.get? x).getD []) ∧
      ∀ last, Date.IsLastBy (r.anchorDays fun x => (twoWeekCloses.get? x).getD []) b.tradeableEnd
        last → last ∈ tradingDays ((twoWeekCloses.get? x).getD []) := by
    intro x hx
    rw [days x (SortedSet.mem_toList.2 hx)]
    exact ⟨start, fun last hlast => anchor ▸ hlast.mem⟩
  obtain ⟨table, indicators, statistics, report, last, hload, hstart, hdate, -, -, -, hrun, -,
    rfl, -, history⟩ := lookback_suffices accepted distinct nesting served hb (anchor ▸ fits) ends
    (.inl looked)
  obtain ⟨points, hpoints, dates⟩ := history rfl
  rw [lookback] at hstart
  rw [hstart] at hdate
  rw [anchor] at dates
  exact ⟨r, b, table, report, points, hr, hload, hstart, hdate, hrun, hpoints, dates⟩

/-- A tree that looks back on as many days as there are words: one for its ranking, all others for
its condition. -/
def overlongTree : Node Float :=
  .split "all" none (.inverseVolatility 1)
    [.choice "trend" none
      ⟨.all, [⟨⟨"SPY", .relativeStrengthIndex, 18446744073709551615⟩, .greater, .fixed 50⟩]⟩
      (.asset "strong" none "SPY") (.asset "weak" none "SPY")]

/-- A request for `overlongTree` over the two weeks. -/
def overlongRequest : Request Float :=
  { twoWeekRequest with tree := overlongTree }

/-- Reckoned in words, that many days are none. Bounds are resolved without any, and the run breaks
off at the first indicator. -/
theorem overlong_lookback_breaks_off :
    ∃ r b, Requirements.ofTree overlongTree = .ok r ∧ overlongTree.DistinctIds ∧
      (∀ s ∈ r.statistics, s.depth ≤ (Settings.default : Settings Float).nestingLimit) ∧
      (PriceSource.ofCloses twoWeekCloses .empty).Serves
        (fun x => (twoWeekCloses.get? x).getD []) ∧
      Bounds.resolve (.ofCloses twoWeekCloses .empty) r overlongRequest.startDate
        overlongRequest.endDate ⟨20014, by decide⟩ = .ok b ∧
      (∀ x, r.lookback.contains x = true →
        b.lookbackStart ∈ tradingDays ((twoWeekCloses.get? x).getD []) ∧
        ∀ last, Date.IsLastBy (r.anchorDays fun x => (twoWeekCloses.get? x).getD []) b.tradeableEnd
          last → last ∈ tradingDays ((twoWeekCloses.get? x).getD [])) ∧
      r.lookback.toList ≠ [] ∧
      runOn (.ofCloses twoWeekCloses .empty) overlongRequest .default ⟨20014, by decide⟩
        (fun _ => false) = .error (.outOfRange 18446744073709551615 9) := by
  have checked : (do
      let r ← Requirements.ofTree overlongTree
      let b ← Bounds.resolve (.ofCloses twoWeekCloses .empty) r overlongRequest.startDate
        overlongRequest.endDate ⟨20014, by decide⟩
      let ended := (runOn (.ofCloses twoWeekCloses .empty) overlongRequest .default
        ⟨20014, by decide⟩ fun _ => false).map fun _ => ()
      return decide ((∀ s ∈ r.statistics, s.depth ≤ 3) ∧ r.lookback.toList ≠ [] ∧
        b.lookbackStart ∈ twoWeeks ∧
        r.anchorDays (fun x => (twoWeekCloses.get? x).getD []) = twoWeeks ∧
        (∀ x ∈ r.lookback.toList, tradingDays ((twoWeekCloses.get? x).getD []) = twoWeeks) ∧
        ended = Except.error (.outOfRange 18446744073709551615 9))) = Except.ok true := by
    decide +kernel
  obtain ⟨r, hr, checked⟩ := Except.bind_eq_ok.1 checked
  obtain ⟨b, hb, checked⟩ := Except.bind_eq_ok.1 checked
  obtain ⟨depth, looked, start, anchor, days, ended⟩ := of_decide_eq_true (Except.ok.inj checked)
  have ascending : ∀ cs ∈ twoWeekCloses.values,
      (tradingDays cs).Pairwise fun a b => a < b := by decide
  refine ⟨r, b, hr, by decide, depth, PriceSource.serves_ofCloses ascending, hb, fun x hx => ?_,
    looked, ?_⟩
  · rw [days x (SortedSet.mem_toList.2 hx)]
    exact ⟨start, fun last hlast => anchor ▸ hlast.mem⟩
  · exact Outcome.eq_error_of_map ended

end Backtest

end StrategyTree
