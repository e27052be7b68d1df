import Mathlib.Algebra.Order.Field.Basic
import StrategyTree.Proofs.Lookback.Comparison

/-!
# A ranked node on its own

The statistic by which a node is ranked comes from a run within the preparation of a backtest. That
run starts when all indicators of the strategy have started, and reads the statistics prepared
before. In exact arithmetic it might as well be a backtest of the node alone, which starts and
prepares by the requirements of that node only: the returns are the same.

* `Backtest.statistic_eq_stand_alone`: the statistic of a ranked node, from the history of a
  backtest of that node alone.
-/

namespace StrategyTree

/-- The request for a backtest of a single node of a strategy, with its history. -/
def Request.alone {α : Type} (request : Request α) (node : Node α) : Request α :=
  { request with tree := node, history := true }

namespace Backtest

variable {K : Type} [Field K] [LinearOrder K] [Roots K] [IsStrictOrderedRing K]

/-- **Main theorem: a statistic is that of a backtest of the node alone.** Let a prudent strategy
with distinct ids be prepared from positive capital, with a positive volatility floor, over tickers
that are priced on every day. Where the statistic of a ranked node has a value, and the history of a
backtest of that node alone covers the window up to there, the value is the one computed from the
returns of that history. -/
theorem statistic_eq_stand_alone {request : Request K} {r : Requirements}
    (hr : Requirements.ofTree request.tree = .ok r) (hd : request.tree.DistinctIds)
    (hp : request.tree.Prudent) (hbalance : 0 < request.startingBalance) {settings : Settings K}
    (hf : 0 < settings.volatilityFloor) {table : PriceTable K}
    (hprices : ∀ i < table.length, ∀ x, r.tickers.contains x = true → table.Priced i x)
    {indicators : IndicatorTable K} {C : StatisticTable K}
    (hi : IndicatorTable.load table r.indicators.toList = .ok indicators)
    (hC : StatisticTable.load request.tree r table indicators settings (capital request) = .ok C)
    {s : NodeStatistic} (hs : s ∈ r.statistics) {node : Node K}
    (hnode : request.tree.find s.node = some node) {r' : Requirements}
    (hr' : Requirements.ofTree node = .ok r') {stop : ℕ → Bool} {report : Backtest K}
    {points : List (HistoryPoint K)}
    (hrun : run (request.alone node) r' table settings stop = .ok report)
    (hpoints : report.history = some points) {e : Evaluator K} {start : ℕ}
    (hprepare : prepare (request.alone node) r' table settings = .ok (e, start)) {i : ℕ} {x : K}
    (hx : C.value s.node i = .ok x) (hfirst : start + s.ranking.window ≤ i)
    (hlast : i < start + points.length) :
    x = s.ranking.statistic.ofWindow (((dailyReturns (points.map HistoryPoint.value)).drop
      (i - s.ranking.window - start)).take s.ranking.window) := by
  have within := Node.mem_nodes_of_find hnode
  have positive : 0 < (capital request : K) := Nat.cast_pos.2 hbalance
  have priced : ∀ i < table.length, ∀ x, r.tradeable.contains x = true → table.Priced i x :=
    fun i hi x hx => hprices i hi x (Requirements.tickers_of_tradeable hr hx)
  have whole := StatisticTable.Regular.of_load hr hd hp priced hf positive hC
  -- the backtest of the node alone prepares a regular table of its own
  obtain ⟨e', start', days, portfolio, -, -, hprepare', hdays, hzip, -⟩ :=
    run_with_history hrun hpoints
  rw [hprepare] at hprepare'
  cases hprepare'
  obtain ⟨indicators', C', hi', hC', rfl, -⟩ := prepare_eq_ok.1 hprepare
  have priced' : ∀ i < table.length, ∀ x, r'.tradeable.contains x = true → table.Priced i x := by
    intro i hi x hx
    rw [Requirements.tradeable_iff_of_ofTree hr'] at hx
    exact whole.prices i hi x (Node.collect_subset within hx)
  have alone := StatisticTable.Regular.of_load hr' (hd.of_mem within) (hp.of_mem within) priced' hf
    positive hC'
  rw [Requirements.tradeable_eq_tickers hr'] at hdays
  change simulate _ table node stop _ (Portfolio.ofCash (capital request)) = _ at hdays
  have returns := dailyReturns_of_simulate hf alone.prudent (fun x => Node.mem_held_iff_tickers)
    alone.prices positive hdays
  rw [Requirements.statistics_of_ofTree hr hd] at hs
  obtain ⟨hw, -, evaluated, rfl⟩ := whole.value hs within (Node.find_eq_some hnode) hx
  have count := hzip.length_eq
  have place : start + (i - s.ranking.window - start) = i - s.ranking.window := by omega
  rw [map_value_points hzip, returns, stretch_range' _ _ (by omega), place]
  congr 1
  apply List.map_congr_left
  intro k hk
  rw [List.mem_range'_1] at hk
  obtain ⟨a, ha⟩ := evaluated k hk.1 (by omega)
  have ha' := evaluate_of_mem_simulate hdays _
    (List.getElem_mem (show k - start < days.length by omega))
  rw [(index_of_simulate hdays _).1, Nat.add_sub_cancel' (by omega)] at ha'
  have readings : ∀ key ∈ request.tree.readings, ∀ j ≤ i, 0 ≤ j - r.indicatorWindow →
      BothEnd Eq (indicators.value key j) (indicators'.value key j) := fun key _ j _ _ =>
    IndicatorTable.value_agrees_of_load hi hi' key j
  obtain ⟨d, hwalk⟩ := Node.exists_mem_walk within 0
  have same := whole.evaluate_agrees hr alone readings (fun _ _ _ _ _ => rfl) node hwalk
    (Node.self_mem_nodes node) (j := k) (by omega) (Nat.zero_le _) _ _ ha ha'
  rw [Evaluator.returnFrom_of_evaluate ha, Evaluator.returnFrom_of_evaluate ha', same]

/-- Stocks, with gold and oil in inverse proportion to their volatilities. -/
def mixedNode : Node ℚ :=
  .split "mixed" none .specified
    [.asset "stocks" (some ⟨60, 100⟩) "SPY",
      .split "goods" (some ⟨40, 100⟩) (.inverseVolatility 2)
        [.asset "gold" none "GLD", .asset "oil" none "USO"]]

/-- While stocks are dear, bonds and `mixedNode` in inverse proportion to their volatilities,
otherwise bonds. -/
def layeredTree : Node ℚ :=
  .choice "trend" none
    ⟨.all, [⟨⟨"SPY", .movingAveragePrice, 4⟩, .greater, .fixed 95⟩]⟩
    (.split "calm" none (.inverseVolatility 2) [.asset "bonds" none "TLT", mixedNode])
    (.asset "safety" none "TLT")

/-- A request for `layeredTree`. -/
def layeredRequest : Request ℚ where
  startingBalance := 10000
  startDate := 20000
  endDate := 20007
  tree := layeredTree
  history := false

/-- Eight days of prices for the tickers of `layeredTree`. -/
def layeredTable : PriceTable ℚ where
  dates := [20000, 20001, 20002, 20003, 20004, 20005, 20006, 20007]
  series := .ofList
    [("GLD", [some 50, some 51, some 49, some 50, some 52, some 51, some 53, some 54]),
      ("SPY", [some 100, some 110, some 99, some 108, some 112, some 105, some 109, some 120]),
      ("TLT", [some 80, some 84, some 82, some 86, some 85, some 83, some 84, some 82]),
      ("USO", [some 20, some 19, some 21, some 20, some 22, some 23, some 21, some 20])]
  tradeableStart := 0
  aligned := by decide

theorem statistic_eq_stand_alone_mixedNode :
    ∃ r indicators C r' report points e start x,
      Requirements.ofTree layeredTree = .ok r ∧
      IndicatorTable.load layeredTable r.indicators.toList = .ok indicators ∧
      StatisticTable.load layeredTree r layeredTable indicators .default (capital layeredRequest) =
        .ok C ∧
      Requirements.ofTree mixedNode = .ok r' ∧
      run (layeredRequest.alone mixedNode) r' layeredTable .default (fun _ => false) =
        .ok report ∧
      report.history = some points ∧
      prepare (layeredRequest.alone mixedNode) r' layeredTable .default = .ok (e, start) ∧
      C.value "mixed" 7 = .ok x ∧ start + 2 ≤ 7 ∧
      x = ReturnStatistic.standardDeviationReturn.ofWindow
        (((dailyReturns (points.map HistoryPoint.value)).drop (7 - 2 - start)).take 2) := by
  have checked : (do
      let r ← Requirements.ofTree layeredTree
      let indicators ← IndicatorTable.load layeredTable r.indicators.toList
      let C ← StatisticTable.load layeredTree r layeredTable indicators .default
        (capital layeredRequest)
      let r' ← Requirements.ofTree mixedNode
      let (_, start) ← prepare (layeredRequest.alone mixedNode) r' layeredTable .default
      let report ← run (layeredRequest.alone mixedNode) r' layeredTable .default fun _ => false
      let _ ← C.value "mixed" 7
      return decide ((⟨"mixed", ⟨.standardDeviationReturn, 2⟩, 1⟩ : NodeStatistic) ∈ r.statistics ∧
        report.history.isSome = true ∧ start + 2 ≤ 7 ∧
        7 < start + (report.history.getD []).length ∧
        ∀ t ∈ List.range 8, ∀ x ∈ r.tickers.keys, layeredTable.Priced t x)) = .ok true := by
    decide +kernel
  obtain ⟨r, hr, checked⟩ := Except.bind_eq_ok.1 checked
  obtain ⟨indicators, hi, checked⟩ := Except.bind_eq_ok.1 checked
  obtain ⟨C, hC, checked⟩ := Except.bind_eq_ok.1 checked
  obtain ⟨r', hr', checked⟩ := Except.bind_eq_ok.1 checked
  obtain ⟨⟨e, start⟩, hprepare, checked⟩ := Except.bind_eq_ok.1 checked
  obtain ⟨report, hrun, checked⟩ := Except.bind_eq_ok.1 checked
  obtain ⟨x, hx, checked⟩ := Except.bind_eq_ok.1 checked
  obtain ⟨hs, hsome, hfirst, hlast, hprices⟩ := of_decide_eq_true (Except.ok.inj checked)
  obtain ⟨points, hpoints⟩ := Option.isSome_iff_exists.1 hsome
  rw [hpoints, Option.getD_some] at hlast
  have priced : ∀ i < layeredTable.length, ∀ x, r.tickers.contains x = true →
      layeredTable.Priced i x := fun i hi x hx =>
    hprices i (List.mem_range.2 hi) x (SortedMap.contains_iff_mem_keys.1 hx)
  have distinct : layeredRequest.tree.DistinctIds := by decide
  have prudent : layeredRequest.tree.Prudent := by decide +kernel
  have floor : (0 : ℚ) < (Settings.default : Settings ℚ).volatilityFloor := by decide +kernel
  have value := statistic_eq_stand_alone hr distinct prudent (by decide) floor priced hi hC hs rfl
    hr' hrun hpoints hprepare hx hfirst hlast
  exact ⟨r, indicators, C, r', report, points, e, start, x, hr, hi, hC, hr', hrun, hpoints,
    hprepare, hx, hfirst, value⟩

end Backtest

end StrategyTree
