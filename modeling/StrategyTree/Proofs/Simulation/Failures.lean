import StrategyTree.Proofs.Prices.Closes
import StrategyTree.Proofs.Simulation.Levels
import StrategyTree.Proofs.Simulation.Tables

/-!
# How a backtest can fail

The requirements of a strategy are gathered in one walk through its tree, and its evaluation is
another one. Whatever the second asks for, the first has asked for before: in an accepted strategy
with distinct ids no ticker, indicator, statistic or node is missing when it is looked up, and no
run reads a series before its first value. A backtest fails only because nodes are nested too deeply
or because the prices do not reach far enough, unless an indicator has a window so large that the
number of closes it takes is not a word.

* `simulate_failsOnly`: a run whose evaluations fail for want of data only.
* `StatisticTable.ofTree_failsOnly`: the statistic of a ranked node.
* `Backtest.lookups_never_fail`: a whole backtest and every run within it.
* `Backtest.largest_window_breaks_off`: an indicator over the largest window.
-/

namespace StrategyTree

/-- Errors that say that the data do not suffice. -/
def Error.IsShortage (e : Error) : Prop := ∃ reason, e = .insufficientData reason

/-- Errors that say that the data do not suffice or that the nesting exceeds its limit. -/
def Error.IsLimit (e : Error) : Prop :=
  e.IsShortage ∨ ∃ node depth limit, e = .nestingTooDeep node depth limit

theorem Error.isShortage_insufficientData (reason : String) :
    (Error.insufficientData reason).IsShortage := ⟨reason, rfl⟩

theorem FailsOnly.isLimit {β : Type} {x : Except Error β} (h : FailsOnly Error.IsShortage x) :
    FailsOnly Error.IsLimit x := fun e he => .inl (h e he)

variable {α : Type}

theorem checkWindow_failsOnly {function : String} {available window needed : Nat}
    (hw : 0 < window) :
    FailsOnly (fun e => ∃ a n, e = .tooFewValues function a n)
      (checkWindow function available window needed) := by
  unfold checkWindow
  rw [if_neg (by omega)]
  split
  · exact FailsOnly.error ⟨_, _, rfl⟩
  · exact FailsOnly.ok ()

/-! ## Indicators -/

namespace IndicatorTable

/-- An indicator of a loaded ticker over a window that is not empty. Once the closes suffice, they
reach beyond the window too. -/
theorem compute_failsOnly [Scalar α] {table : PriceTable α} {key : Indicator.Key}
    (hl : table.isLoaded key.ticker = true) (hw : 0 < key.window) (hfits : key.Fits) :
    FailsOnly Error.IsShortage (compute table key) := by
  obtain ⟨closes, hget⟩ := Option.isSome_iff_exists.1 hl
  unfold compute PriceTable.closes
  rw [hget, Except.ok_bind]
  dsimp only
  have values : FailsOnly (fun e => ∃ a n, e = .tooFewValues key.function.name a n)
      (key.function.compute (firstStretch closes).values key.window) := by
    refine (checkWindow_failsOnly hw).bind fun u hu => ?_
    have enough := (checkWindow_eq_ok.1 hu).2
    rw [Word.add_of_lt hfits] at enough
    rw [Indicator.Function.checkCut_of_lt enough]
    exact FailsOnly.ok _
  cases hc : key.function.compute (firstStretch closes).values key.window with
  | ok values => exact FailsOnly.ok _
  | error e =>
    obtain ⟨a, n, rfl⟩ := values e hc
    exact FailsOnly.error (Error.isShortage_insufficientData _)

theorem load_failsOnly [Scalar α] {table : PriceTable α} {keys : List Indicator.Key}
    (h : ∀ key ∈ keys, table.isLoaded key.ticker = true ∧ 0 < key.window ∧ key.Fits) :
    FailsOnly Error.IsShortage (load table keys) := by
  refine FailsOnly.bind (FailsOnly.mapM fun key hkey => ?_) fun _ _ => FailsOnly.ok _
  obtain ⟨hl, hw, hfits⟩ := h key hkey
  exact (compute_failsOnly hl hw hfits).bind fun _ _ => FailsOnly.ok _

/-- A read of an indicator that is there and has started. -/
theorem value_failsOnly {t : IndicatorTable α} {key : Indicator.Key} {s : Series α} {index : Nat}
    (hs : t.series.get? key = some s) (hstart : s.start ≤ index) :
    FailsOnly Error.IsShortage (t.value key index) := by
  unfold value
  rw [hs]
  dsimp only
  rw [if_neg (by omega)]
  cases s.valueAt index with
  | none => exact FailsOnly.error (Error.isShortage_insufficientData _)
  | some x => exact FailsOnly.ok x

end IndicatorTable

/-! ## Evaluations and runs -/

variable [Scalar α]

section Runs

variable {e : Evaluator α} {table : PriceTable α} {tree : Node α}

/-- An evaluation whose reads are there and have started fails for want of data only. -/
theorem Evaluator.evaluate_failsOnly {index : Nat}
    (hi : ∀ key ∈ tree.readings, ∃ s, e.indicators.series.get? key = some s ∧ s.start ≤ index)
    (hs : ∀ id ∈ tree.ranked, ∃ s, e.statistics.series.get? id = some s ∧ s.start ≤ index) :
    FailsOnly Error.IsShortage (e.evaluate index tree) := by
  have both : (Agreement.failing Error.IsShortage).holds (e.evaluate index tree)
      (e.evaluate index tree) := by
    apply Evaluator.evaluate_agrees _ rfl rfl
    · intro key hkey
      obtain ⟨s, hget, hstart⟩ := hi key hkey
      exact ⟨rfl, IndicatorTable.value_failsOnly hget hstart⟩
    · intro id hid
      obtain ⟨s, hget, hstart⟩ := hs id hid
      refine ⟨rfl, ?_⟩
      unfold StatisticTable.value
      rw [hget]
      dsimp only
      rw [if_neg (by omega)]
      cases s.valueAt index with
      | none => exact FailsOnly.error (Error.isShortage_insufficientData _)
      | some x => exact FailsOnly.ok x
  exact both.2

/-- A run fails as its evaluations do, if the tickers held at first and those the strategy may
name are loaded. -/
theorem simulate_failsOnly {P : Error → Prop} {indices : List Nat}
    (he : ∀ i ∈ indices, FailsOnly P (e.evaluate i tree))
    (ht : ∀ x, e.tradeable.contains x = true ∨ x ∈ tree.held → table.isLoaded x = true) :
    ∀ p : Portfolio α, (∀ x ∈ p.holdings.keys, table.isLoaded x = true) →
      FailsOnly P (simulate e table tree (fun _ => false) indices p) := by
  induction indices with
  | nil =>
    intro p _
    exact FailsOnly.ok _
  | cons index rest ih =>
    intro p hp
    rw [List.forall_mem_cons] at he
    rw [simulate, if_neg Bool.false_ne_true]
    refine he.1.bind fun allocation hallocation => ?_
    have named : ∀ x ∈ allocation.keys, table.isLoaded x = true :=
      fun x hx => ht x ((Evaluator.mem_keys_evaluate hallocation).2 hx)
    have rebalanced : ∃ q r, p.rebalance table index allocation = (q, .ok r) :=
      Portfolio.rebalance_succeeds hp named
    obtain ⟨q, r, hq⟩ := rebalanced
    have held : ∀ x ∈ q.holdings.keys, table.isLoaded x = true := by
      intro x hx
      rcases Portfolio.mem_keys_rebalance hq hx with hx | hx
      · exact hp x hx
      · exact named x hx
    rw [hq]
    exact (ih he.2 q held).bind fun _ _ => FailsOnly.ok _

/-- A run that starts with cash only. -/
theorem simulate_daysFrom_failsOnly {P : Error → Prop} {start : Nat} (cash : α)
    (he : ∀ i, start ≤ i → FailsOnly P (e.evaluate i tree))
    (ht : ∀ x, e.tradeable.contains x = true ∨ x ∈ tree.held → table.isLoaded x = true) :
    FailsOnly P
      (simulate e table tree (fun _ => false) (table.daysFrom start) (Portfolio.ofCash cash)) := by
  have evaluations : ∀ i ∈ table.daysFrom start, FailsOnly P (e.evaluate i tree) := by
    intro i hi
    obtain ⟨t, hlt, rfl⟩ := List.getElem_of_mem hi
    apply he
    rw [PriceTable.getElem_daysFrom hlt]
    omega
  have nothing_held : ∀ x ∈ (Portfolio.ofCash cash).holdings.keys, table.isLoaded x = true := by
    intro x hx
    cases hx
  exact simulate_failsOnly evaluations ht _ nothing_held

end Runs

/-! ## Statistics of ranked nodes -/

namespace StatisticTable

variable {tree : Node α} {r : Requirements} {table : PriceTable α}
  {indicators : IndicatorTable α} {settings : Settings α} {capital : α}

section Tree

variable (hr : Requirements.ofTree tree = .ok r) (hd : tree.DistinctIds)
  (hl : ∀ x, r.tickers.contains x = true → table.isLoaded x = true)
  (hi : ∀ key ∈ tree.readings, ∃ s, indicators.series.get? key = some s)

include hr hd hl hi

/-- The run of a node, once all statistics nested more deeply are there. -/
theorem simulate_failsOnly_of_complete {t : StatisticTable α} {depth : Nat} {m : Node α}
    (ht : t.Complete r depth) (hm : (depth, m) ∈ tree.walk 0) :
    FailsOnly Error.IsShortage
      (simulate ⟨m.tickers, indicators, t, settings⟩ table m (fun _ => false)
        (table.daysFrom (t.simulationStart table indicators m)) (Portfolio.ofCash capital)) := by
  have within := Node.mem_nodes_of_mem_walk hm
  apply simulate_daysFrom_failsOnly
  · intro i hstart
    obtain ⟨⟨-, nested⟩, started⟩ := simulationStart_le_iff.1 hstart
    apply Evaluator.evaluate_failsOnly
    · intro key hkey
      obtain ⟨series, hseries⟩ := hi key (Node.collect_subset within hkey)
      exact ⟨series, hseries, IndicatorTable.firstComplete_le_iff.1 started key series hseries⟩
    · intro id hid
      obtain ⟨series, hseries⟩ := ht.exists_of_ranked hr hd hm hid
      exact ⟨series, hseries, start_le_of_ranked hd within nested hid hseries⟩
  · intro x hx
    rw [Node.mem_held_iff_tickers, or_self] at hx
    apply hl
    apply Requirements.tickers_of_tradeable hr
    rw [Requirements.tradeable_iff_of_ofTree hr]
    exact Node.collect_subset within hx

/-- The statistic of a ranked node fails for want of data only, once all statistics nested more
deeply are there. -/
theorem ofTree_failsOnly {t : StatisticTable α} {s : NodeStatistic} (hs : s ∈ r.statistics)
    (ht : t.Complete r s.depth) :
    FailsOnly Error.IsShortage (t.ofTree tree table indicators settings capital s) := by
  rw [Requirements.statistics_of_ofTree hr hd] at hs
  obtain ⟨m, hm, hid⟩ := Node.exists_mem_walk_of_statistics hs
  obtain ⟨d, owner, -, howner, hranking, -⟩ := Node.mem_statistics.1 hs
  have hw := (Requirements.ranking_bounds hr howner hranking).1
  have hfind := hd.find_of_mem (Node.mem_nodes_of_mem_walk hm)
  rw [hid] at hfind
  unfold ofTree ofNode balancesFrom
  rw [hfind]
  refine FailsOnly.bind ?_ fun balances _ => ?_
  · exact (simulate_failsOnly_of_complete hr hd hl hi ht hm).bind fun _ _ => FailsOnly.ok _
  dsimp only
  have values : FailsOnly (fun e => ∃ a n, e = .tooFewValues s.ranking.statistic.name a n)
      (s.ranking.statistic.compute (dailyReturns balances) s.ranking.window) :=
    (checkWindow_failsOnly hw).bind fun _ _ => FailsOnly.ok _
  cases hc : s.ranking.statistic.compute (dailyReturns balances) s.ranking.window with
  | ok values => exact FailsOnly.ok _
  | error e =>
    obtain ⟨a, n, rfl⟩ := values e hc
    exact FailsOnly.error (Error.isShortage_insufficientData _)

/-- All statistics. They fail for want of data, or because they are nested too deeply. -/
theorem load_failsOnly :
    FailsOnly Error.IsLimit (load tree r table indicators settings capital) := by
  unfold load
  split
  · exact FailsOnly.error (.inr ⟨_, _, _, rfl⟩)
  · apply FailsOnly.isLimit
    apply FailsOnly.foldlM
    intro before batch after t hsplit ht
    -- the batch is a level, and the batches before it are the deeper levels
    obtain ⟨deeper, rest, hdepths, rfl, hrest⟩ := List.map_eq_append_iff.1 hsplit
    obtain ⟨depth, rest, rfl, rfl, -⟩ := List.map_eq_cons_iff.1 hrest
    have complete := complete_of_levels hr hdepths ht
    refine FailsOnly.bind (FailsOnly.mapM fun s hs => ?_) fun _ _ => FailsOnly.ok _
    obtain ⟨hmem, rfl⟩ := mem_level.1 hs
    exact (ofTree_failsOnly hr hd hl hi hmem complete).bind fun _ _ => FailsOnly.ok _

end Tree

end StatisticTable

/-! ## Backtests -/

namespace Backtest

section Loaded

variable {request : Request α} {r : Requirements} {table : PriceTable α}
  (hr : Requirements.ofTree request.tree = .ok r) (hd : request.tree.DistinctIds)
  (hl : ∀ x, r.tickers.contains x = true → table.isLoaded x = true)
  (hfits : ∀ key ∈ r.indicators.toList, key.Fits) (settings : Settings α)

include hr hl

include hfits in
/-- The indicators of a strategy. -/
theorem indicators_failsOnly :
    FailsOnly Error.IsShortage (IndicatorTable.load table r.indicators.toList) := by
  apply IndicatorTable.load_failsOnly
  intro key hkey
  have read := (Requirements.indicators_iff_of_ofTree hr).1 hkey
  have looked := Requirements.lookback_of_readings hr read
  exact ⟨hl _ (Requirements.tickers_of_lookback hr looked),
    Requirements.window_pos_of_readings hr read, hfits key hkey⟩

omit hl in
/-- The indicators of a strategy are all there once they are loaded. -/
theorem exists_indicator {indicators : IndicatorTable α}
    (h : IndicatorTable.load table r.indicators.toList = .ok indicators) :
    ∀ key ∈ request.tree.readings, ∃ s, indicators.series.get? key = some s := by
  intro key hkey
  obtain ⟨s, hs, -⟩ := (IndicatorTable.load_eq_ok h).1 key
    ((Requirements.indicators_iff_of_ofTree hr).2 hkey)
  exact ⟨s, hs⟩

include hd

/-- The main loop. -/
theorem simulate_failsOnly_of_load {indicators : IndicatorTable α} {statistics : StatisticTable α}
    (hi : IndicatorTable.load table r.indicators.toList = .ok indicators)
    (hs : StatisticTable.load request.tree r table indicators settings (capital request) =
      .ok statistics) :
    FailsOnly Error.IsShortage
      (simulate ⟨r.tradeable, indicators, statistics, settings⟩ table request.tree (fun _ => false)
        (table.daysFrom (startIndex table indicators statistics))
        (Portfolio.ofCash (capital request))) := by
  have complete := StatisticTable.complete_of_load hr hs
  apply simulate_daysFrom_failsOnly
  · intro i hstart
    obtain ⟨⟨-, indicators_started⟩, statistics_started⟩ := startIndex_le_iff.1 hstart
    apply Evaluator.evaluate_failsOnly
    · intro key hkey
      obtain ⟨s, hget⟩ := exists_indicator hr hi key hkey
      exact ⟨s, hget, IndicatorTable.firstComplete_le_iff.1 indicators_started key s hget⟩
    · intro id hid
      obtain ⟨s, hget⟩ := complete.exists_of_ranked hr hd (Node.self_mem_walk 0 _) hid
      exact ⟨s, hget, StatisticTable.firstComplete_le_iff.1 statistics_started id s hget⟩
  · intro x hx
    rw [← Requirements.tradeable_iff_of_ofTree hr, or_self] at hx
    exact hl x (Requirements.tickers_of_tradeable hr hx)

include hfits in
/-- A whole backtest. -/
theorem run_failsOnly :
    FailsOnly Error.IsLimit (run request r table settings fun _ => false) := by
  have prepared : FailsOnly Error.IsLimit (prepare request r table settings) := by
    refine (indicators_failsOnly hr hl hfits).isLimit.bind fun indicators hi => ?_
    refine (StatisticTable.load_failsOnly hr hd hl (exists_indicator hr hi)).bind fun _ _ => ?_
    exact FailsOnly.ok _
  refine prepared.bind fun p hp => ?_
  obtain ⟨e, start⟩ := p
  obtain ⟨indicators, statistics, hi, hs, rfl, rfl⟩ := prepare_eq_ok.1 hp
  refine (simulate_failsOnly_of_load hr hd hl settings hi hs).isLimit.bind fun p _ => ?_
  obtain ⟨days, portfolio⟩ := p
  have history : FailsOnly Error.IsShortage (days.mapM (pointOf table)) := by
    refine FailsOnly.mapM fun d _ => FailsOnly.bind ?_ fun _ _ => FailsOnly.ok _
    unfold dateAt
    split
    · exact FailsOnly.ok _
    · exact FailsOnly.error (Error.isShortage_insufficientData _)
  refine history.isLimit.bind fun points _ => ?_
  split
  · exact FailsOnly.ok _
  · exact FailsOnly.error (.inl (Error.isShortage_insufficientData _))

end Loaded

/-- **Main theorem: lookups never fail.** Let a strategy with distinct ids be accepted, and let the
table hold a series for each ticker it mentions, of whatever shape. If the numbers of closes that
its indicators take are words, a backtest that is not stopped succeeds, or fails because nodes are
nested too deeply or because the data do not suffice. Within it, the statistic of every ranked node
that is computed once the deeper levels are there, and the run over the days of the backtest itself,
fail for want of data only. -/
theorem lookups_never_fail {request : Request α} {r : Requirements}
    (hr : Requirements.ofTree request.tree = .ok r) (hd : request.tree.DistinctIds)
    {table : PriceTable α} (hl : ∀ x, r.tickers.contains x = true → table.isLoaded x = true)
    (hfits : ∀ key ∈ r.indicators.toList, key.Fits) (settings : Settings α) :
    ((∃ report, run request r table settings (fun _ => false) = .ok report) ∨
      (∃ node depth limit,
        run request r table settings (fun _ => false) = .error (.nestingTooDeep node depth limit)) ∨
      ∃ reason, run request r table settings (fun _ => false) = .error (.insufficientData reason)) ∧
    ∀ indicators, IndicatorTable.load table r.indicators.toList = .ok indicators →
      (∀ deeper depth rest t, StatisticTable.depths r.nesting = deeper ++ depth :: rest →
        (deeper.map (StatisticTable.level r)).foldlM
          (StatisticTable.addBatch request.tree table indicators settings (capital request))
          StatisticTable.empty = .ok t →
        ∀ s ∈ StatisticTable.level r depth, ∀ e,
          t.ofTree request.tree table indicators settings (capital request) s = .error e →
            ∃ reason, e = .insufficientData reason) ∧
      ∀ statistics,
        StatisticTable.load request.tree r table indicators settings (capital request) =
          .ok statistics →
        ∀ e, simulate ⟨r.tradeable, indicators, statistics, settings⟩ table request.tree
            (fun _ => false) (table.daysFrom (startIndex table indicators statistics))
            (Portfolio.ofCash (capital request)) = .error e →
          ∃ reason, e = .insufficientData reason := by
  refine ⟨?_, fun indicators hi => ⟨fun deeper depth rest t hsplit ht s hs => ?_,
    fun statistics hs => simulate_failsOnly_of_load hr hd hl settings hi hs⟩⟩
  · have failure := run_failsOnly hr hd hl hfits settings
    cases hrun : run request r table settings (fun _ => false) with
    | ok report => exact .inl ⟨report, rfl⟩
    | error e =>
      rcases failure e hrun with ⟨reason, rfl⟩ | ⟨node, depth, limit, rfl⟩
      · exact .inr (.inr ⟨reason, rfl⟩)
      · exact .inr (.inl ⟨node, depth, limit, rfl⟩)
  · have complete := StatisticTable.complete_of_levels hr hsplit ht
    obtain ⟨hmem, rfl⟩ := StatisticTable.mem_level.1 hs
    exact StatisticTable.ofTree_failsOnly hr hd hl (exists_indicator hr hi) hmem complete

/-- A request for `nestedTree`. -/
def nestedRequest : Request Float where
  startingBalance := 1000
  startDate := 20000
  endDate := 20005
  tree := StatisticTable.nestedTree
  history := false

/-- Six days on which stocks pause, and gold never has a close. -/
def pausedTable : PriceTable Float where
  dates := StatisticTable.nestedTable.dates
  series := .ofList [("TLT", [some 90, some 91, some 90, some 92, some 91, some 93]),
    ("SPY", [none, some 505, none, none, some 515, some 500]),
    ("GLD", [none, none, none, none, none, none])]
  tradeableStart := 0
  aligned := by decide

theorem lookups_never_fail_pausedTable :
    ∃ r, Requirements.ofTree nestedRequest.tree = .ok r ∧ nestedRequest.tree.DistinctIds ∧
      (∀ x, r.tickers.contains x = true → pausedTable.isLoaded x = true) ∧
      (∀ key ∈ r.indicators.toList, key.Fits) ∧
      ((∃ report, run nestedRequest r pausedTable .default (fun _ => false) = .ok report) ∨
        (∃ node depth limit, run nestedRequest r pausedTable .default (fun _ => false) =
          .error (.nestingTooDeep node depth limit)) ∨
        ∃ reason, run nestedRequest r pausedTable .default (fun _ => false) =
          .error (.insufficientData reason)) := by
  have checked : (Requirements.ofTree nestedRequest.tree >>= fun r =>
      .ok (r.tickers.toList.all pausedTable.isLoaded &&
        decide (∀ key ∈ r.indicators.toList, key.Fits))) = .ok true := by
    decide +kernel
  obtain ⟨r, hr, checked⟩ := Except.bind_eq_ok.1 checked
  have checked := Bool.and_eq_true_iff.1 (Except.ok.inj checked)
  have loaded : ∀ x, r.tickers.contains x = true → pausedTable.isLoaded x = true :=
    fun x hx => List.all_eq_true.1 checked.1 x (SortedMap.contains_iff_mem_keys.1 hx)
  have fits := of_decide_eq_true checked.2
  have distinct : nestedRequest.tree.DistinctIds := by decide
  exact ⟨r, hr, distinct, loaded, fits, (lookups_never_fail hr distinct loaded fits .default).1⟩

/-- Stocks, whatever their relative strength over the largest window. -/
def boundlessTree : Node Float :=
  .choice "boundless" none
    ⟨.all, [⟨⟨"SPY", .relativeStrengthIndex, 18446744073709551615⟩, .greater, .fixed 50⟩]⟩
    (.asset "strong" none "SPY") (.asset "weak" none "SPY")

/-- A request for `boundlessTree`. -/
def boundlessRequest : Request Float :=
  { nestedRequest with tree := boundlessTree }

/-- Over the largest window an indicator asks for no closes at all, and then reads past the last
one. -/
theorem largest_window_breaks_off :
    ∃ r, Requirements.ofTree boundlessTree = .ok r ∧ boundlessTree.DistinctIds ∧
      (∀ x, r.tickers.contains x = true → pausedTable.isLoaded x = true) ∧
      run boundlessRequest r pausedTable .default (fun _ => false) =
        .error (.outOfRange 18446744073709551615 0) := by
  have checked : (do
      let r ← Requirements.ofTree boundlessTree
      let ended := (run boundlessRequest r pausedTable .default fun _ => false).map fun _ => ()
      return decide (r.tickers.toList.all pausedTable.isLoaded = true ∧
        ended = .error (.outOfRange 18446744073709551615 0))) = Except.ok true := by
    decide +kernel
  obtain ⟨r, hr, checked⟩ := Except.bind_eq_ok.1 checked
  obtain ⟨loaded, ended⟩ := of_decide_eq_true (Except.ok.inj checked)
  refine ⟨r, hr, by decide, fun x hx => ?_, ?_⟩
  · exact List.all_eq_true.1 loaded x (SortedMap.contains_iff_mem_keys.1 hx)
  · exact Outcome.eq_error_of_map ended

end Backtest

end StrategyTree
