import StrategyTree.Proofs.BalanceCurve
import StrategyTree.Proofs.Causality.Sliding
import StrategyTree.Proofs.Lookback.Indicators
import StrategyTree.Proofs.Scaling.Statistics
import StrategyTree.Proofs.Simulation.Levels
import StrategyTree.Proofs.Simulation.Returns

/-!
# Assets are ranked by their prices

An asset that a node ranks is ranked by a statistic of a simulated run, as every child is. The run
puts everything into one ticker and keeps it there, so that in exact arithmetic its balances are the
closes of the ticker in another unit, and its returns are those of the closes. The statistic is
therefore the price indicator of the same name, over the same window; only the largest fall takes
one close more, since a window of returns has one close more at its ends.

* `ReturnStatistic.onPrices`, `ReturnStatistic.closesIn`: the price indicator of a statistic.
* `ReturnStatistic.values_onPrices`: both agree over one window of positive closes.
* `buy_and_hold`: the balances of the run of an asset.
* `StatisticTable.asset_ranked_by_prices`: the statistic of a ranked asset on a day.
-/

namespace StrategyTree

open Scalar Statistics

/-! ## Specification -/

namespace ReturnStatistic

/-- The price indicator of the same name. -/
def onPrices : ReturnStatistic → Indicator.Function
  | standardDeviationReturn => .standardDeviationReturn
  | movingAverageReturn => .movingAverageReturn
  | cumulativeReturn => .cumulativeReturn
  | maxDrawdown => .maxDrawdown

theorem name_onPrices (f : ReturnStatistic) : f.onPrices.name = f.name := by
  cases f <;> rfl

/-- The window of the price indicator that looks back on as many returns. -/
def closesIn (f : ReturnStatistic) (window : ℕ) : ℕ :=
  match f with
  | standardDeviationReturn | movingAverageReturn | cumulativeReturn => window
  | maxDrawdown => window + 1

/-- Either way it takes as many days until there is a value. -/
theorem firstOffset_onPrices (f : ReturnStatistic) (window : ℕ) :
    f.onPrices.firstOffset (f.closesIn window) = window := by
  cases f <;> rfl

theorem closesIn_pos (f : ReturnStatistic) {window : ℕ} (hw : 0 < window) :
    0 < f.closesIn window := by
  cases f <;> simp [closesIn, hw]

theorem slides_onPrices {α : Type} [Scalar α] (f : ReturnStatistic) {window : ℕ}
    (hw : 0 < window) : Slides (f.onPrices.values (f.closesIn window) : List α → List α) :=
  Indicator.slides_values (f.closesIn_pos hw) (by cases f <;> decide) (by cases f <;> decide)

end ReturnStatistic

/-! ## One window of closes -/

theorem windows_length {β : Type} {xs : List β} (hx : 0 < xs.length) :
    windows xs.length xs = [xs] := by
  cases xs with
  | nil => simp at hx
  | cons x xs =>
    have rest : windows (xs.length + 1) xs = [] := by
      rw [← List.length_eq_zero_iff, length_windows (Nat.succ_pos _)]
      omega
    rw [List.length_cons, windows, if_pos le_rfl, rest, List.take_of_length_le (by simp)]

theorem getLast?_trace {β σ : Type} (step : σ → β → σ) (bs : List β) :
    ∀ s, (s :: trace step s bs).getLast? = some (bs.foldl step s) := by
  induction bs with
  | nil => intro s; rfl
  | cons b bs ih =>
    intro s
    rw [trace, List.getLast?_cons_cons, ih, List.foldl_cons]

variable {K : Type} [Field K] [LinearOrder K] [Roots K] [IsStrictOrderedRing K]

section Window

omit [IsStrictOrderedRing K] in
theorem percentChange_eq_percentReturn {a : K} (ha : 0 < a) (b : K) :
    percentChange a b = percentReturn a b := by
  have nonzero : (a == zero) = false := by
    rw [beq_eq_false_iff_ne, Exact.zero_eq]
    exact ha.ne'
  unfold percentChange percentReturn
  rw [nonzero, Exact.one_eq, sub_div, div_self ha.ne']
  rfl

variable {ps : List K} (hps : ∀ p ∈ ps, 0 < p)

include hps

omit [IsStrictOrderedRing K] in
theorem percentReturns_eq_dailyReturns : percentReturns ps = dailyReturns ps := by
  apply List.ext_getElem
  · simp [percentReturns, dailyReturns]
  · intro i hi _
    simp only [percentReturns, dailyReturns, List.getElem_zipWith]
    exact percentChange_eq_percentReturn (hps _ (List.getElem_mem _)) _

/-- Telescoping. Compounding the returns of closes leads from each close to the next. -/
theorem trace_compound {p : K} (hp : 0 < p) :
    ∀ capital : K, trace compound capital (dailyReturns (p :: ps)) =
      ps.map fun q => capital / p * q := by
  have step : ∀ {p q : K} (capital : K), compound capital (percentReturn p q) = capital / p * q := by
    intro p q capital
    unfold compound percentReturn
    rw [Exact.one_eq, Exact.hundred_eq]
    ring
  induction ps generalizing p with
  | nil => intro capital; rfl
  | cons q ps ih =>
    intro capital
    rw [List.forall_mem_cons] at hps
    have first : dailyReturns (p :: q :: ps) = percentReturn p q :: dailyReturns (q :: ps) := rfl
    rw [first, trace, step, ih hps.2 hps.1, List.map_cons, mul_div_cancel_right₀ _ hps.1.ne']

/-- The capital that grows by the returns of closes follows the closes. -/
theorem equityCurve_dailyReturns {p : K} (hp : 0 < p) :
    equityCurve (dailyReturns (p :: ps)) = (p :: ps).map (p⁻¹ * ·) := by
  rw [equityCurve, trace_compound hps hp, List.map_cons, Exact.one_eq, inv_mul_cancel₀ hp.ne',
    one_div]

/-- The return over a window of closes is the one from the first to the last. -/
theorem compoundReturn_dailyReturns {p last : K} (hp : 0 < p)
    (hlast : (p :: ps).getLast? = some last) :
    compoundReturn (dailyReturns (p :: ps)) = percentChange p last := by
  have curve := getLast?_trace compound (dailyReturns (p :: ps)) one
  change (equityCurve (dailyReturns (p :: ps))).getLast? = _ at curve
  rw [equityCurve_dailyReturns hps hp, List.getLast?_map, hlast, Option.map_some,
    Option.some.injEq] at curve
  rw [compoundReturn, ← curve, percentChange_eq_percentReturn hp, percentReturn, div_eq_inv_mul]

end Window

namespace ReturnStatistic

/-- One window. Over as many positive closes as look back on a window of returns, the price
indicator has one value, and that is the statistic of the returns. -/
theorem values_onPrices (f : ReturnStatistic) {window : ℕ} (hw : 0 < window) {ps : List K}
    (hlength : ps.length = window + 1) (hps : ∀ p ∈ ps, 0 < p) :
    f.onPrices.values (f.closesIn window) ps = [f.ofWindow (dailyReturns ps)] := by
  have returns : (dailyReturns ps).length = window := by
    simp [dailyReturns, hlength]
  have overReturns : ∀ g : List K → K,
      (windows window (percentReturns ps)).map g = [g (dailyReturns ps)] := by
    intro g
    rw [percentReturns_eq_dailyReturns hps, ← returns, windows_length (by omega), List.map_singleton]
  cases f with
  | standardDeviationReturn => exact overReturns deviation
  | movingAverageReturn => exact overReturns mean
  | cumulativeReturn =>
    obtain ⟨p, qs, rfl⟩ := List.exists_cons_of_length_eq_add_one hlength
    rw [List.forall_mem_cons] at hps
    obtain ⟨last, hlast⟩ : ∃ last, (p :: qs).getLast? = some last :=
      ⟨_, List.getLast?_eq_some_getLast (List.cons_ne_nil p qs)⟩
    obtain ⟨init, split⟩ := List.getLast?_eq_some_iff.1 hlast
    have before : init.length = window := by
      rw [split, List.length_append, List.length_singleton] at hlength
      omega
    have alone : (p :: qs).drop window = [last] := by
      rw [split, ← before, List.drop_left]
    show List.zipWith percentChange (p :: qs) ((p :: qs).drop window) = [compoundReturn _]
    rw [alone, compoundReturn_dailyReturns hps.2 hps.1 hlast, List.zipWith_cons_cons,
      List.zipWith_nil_right]
  | maxDrawdown =>
    obtain ⟨p, qs, rfl⟩ := List.exists_cons_of_length_eq_add_one hlength
    rw [List.forall_mem_cons] at hps
    show (windows (window + 1) (p :: qs)).map drawdown = [drawdown (equityCurve _)]
    rw [← hlength, windows_length (by simp), equityCurve_dailyReturns hps.2 hps.1,
      drawdown_scaled (inv_pos.2 hps.1), List.map_singleton]

end ReturnStatistic

/-! ## The run of an asset -/

section Run

variable {table : PriceTable K} {id ticker : String} {own : Option Fraction}

omit [Field K] [LinearOrder K] [Roots K] [IsStrictOrderedRing K] in
theorem Evaluator.evaluate_asset [Scalar K] (e : Evaluator K) (i : ℕ) :
    e.evaluate i (.asset id own ticker) =
      .ok ((e.tradeable.mapValues fun _ _ => none).insert ticker (some (zero + hundred))) := rfl

/-- An asset on its own allocates everything to its ticker, and grows with its price. -/
theorem allocation_of_asset {e : Evaluator K} {i : ℕ} {a : Allocation K}
    (he : e.tradeable = (Node.asset id own ticker : Node K).tickers)
    (ha : e.evaluate i (.asset id own ticker) = .ok a) :
    a.keys = [ticker] ∧ a.Fair ∧ ∀ p q, a.growth p q = q ticker / p ticker := by
  have keys : a.keys = [ticker] := by
    rw [Evaluator.keys_evaluate ha, he]
    · rfl
    · intro x hx
      rwa [he, Node.mem_held_iff_tickers]
  have percentage : a.percentageOf ticker = 100 := by
    rw [Evaluator.evaluate_asset, Except.ok.injEq] at ha
    rw [Allocation.percentageOf, ← ha, SortedMap.get?_insert_self, Exact.zero_eq,
      Exact.hundred_eq, zero_add]
    rfl
  refine ⟨keys, ⟨?_, ?_⟩, fun p q => ?_⟩
  · rw [keys, List.forall_mem_singleton, percentage]
    norm_num
  · rw [keys, List.map_singleton, percentage, List.sum_singleton]
  · rw [Allocation.growth, keys, List.map_singleton, percentage, List.sum_singleton]
    ring

omit [IsStrictOrderedRing K] in
/-- Where every day's balance grows with one price, balance and price keep their ratio. -/
theorem balance_eq_of_chain {c : K} {days : List (Day K)}
    (hdays : ∀ d ∈ days, 0 < table.priceAt d.index ticker ∧
      ∀ p q, d.allocation.growth p q = q ticker / p ticker)
    (hchain : days.IsChain (Day.Follows table))
    (hfirst : ∀ d ∈ days.head?, d.balance = c * table.priceAt d.index ticker) :
    ∀ d ∈ days, d.balance = c * table.priceAt d.index ticker := by
  induction days with
  | nil => simp
  | cons d days ih =>
    rw [List.forall_mem_cons] at hdays ⊢
    rw [List.isChain_cons] at hchain
    have first := hfirst d rfl
    refine ⟨first, ih hdays.2 hchain.2 fun d' hd' => ?_⟩
    have price := hdays.1.1.ne'
    rw [hchain.1 d' hd', first, hdays.1.2]
    field_simp

/-- Buy and hold. From positive capital, the balances of the run of an asset whose ticker is
priced on every day of it are the prices in another unit. -/
theorem buy_and_hold {e : Evaluator K}
    (he : e.tradeable = (Node.asset id own ticker : Node K).tickers) {stop : ℕ → Bool} {start : ℕ}
    {cash : K} (hcash : 0 < cash) (hprices : ∀ i ∈ table.daysFrom start, table.Priced i ticker)
    {days : List (Day K)} {q : Portfolio K}
    (h : simulate e table (.asset id own ticker) stop (table.daysFrom start)
      (Portfolio.ofCash cash) = .ok (days, q)) :
    ∃ c, 0 < c ∧ days.map Day.balance =
      ((List.range' start days.length).map fun i => table.priceAt i ticker).map (c * ·) := by
  have allocations := fun d hd => allocation_of_asset he (evaluate_of_mem_simulate h d hd)
  have indices : days.map Day.index = List.range' start days.length := by
    apply List.ext_getElem
    · rw [List.length_map, List.length_range']
    · intro t ht _
      rw [List.length_map] at ht
      rw [List.getElem_map, (index_of_simulate h ht).1, List.getElem_range', Nat.one_mul]
  have priced : ∀ d ∈ days, 0 < table.priceAt d.index ticker := by
    intro d hd
    have hday : d.index ∈ table.daysFrom start := by
      rw [← map_index_simulate h]
      exact List.mem_map_of_mem hd
    exact (hprices d.index hday).priceAt_pos
  have listed : ∀ i ∈ table.daysFrom start, ∀ x ∈ [ticker], table.Priced i x := by
    intro i hi x hx
    rw [List.mem_singleton.1 hx]
    exact hprices i hi
  obtain ⟨hhead, hchain⟩ := follows_of_simulate listed h
    (fun d hd => ⟨(allocations d hd).1, (allocations d hd).2.1⟩)
    (fun x hx => absurd hx List.not_mem_nil) fun i _ => by
      rw [Portfolio.markedBalance_ofCash]
      exact hcash.le
  have proportional := fun c => balance_eq_of_chain (c := c)
    (fun d hd => ⟨priced d hd, (allocations d hd).2.2⟩) hchain
  rw [← indices, List.map_map]
  cases days with
  | nil => exact ⟨1, one_pos, rfl⟩
  | cons d ds =>
    have price := priced d List.mem_cons_self
    refine ⟨cash / table.priceAt d.index ticker, div_pos hcash price, ?_⟩
    rw [List.map_map]
    apply List.map_congr_left
    apply proportional
    intro d' hd'
    obtain rfl := Option.some.inj hd'
    rw [hhead d rfl, Portfolio.markedBalance_ofCash, div_mul_cancel₀ _ price.ne']

end Run

/-! ## Closes from the first one on -/

/-- A ticker is priced from its first close on. -/
def PriceTable.PricedOn (table : PriceTable K) (ticker : String) : Prop :=
  ∀ first, table.firstIndex? ticker = some first →
    ∀ i, first ≤ i → i < table.length → table.Priced i ticker

omit [Roots K] [LinearOrder K] [IsStrictOrderedRing K] [Field K] in
/-- The first stretch of closes after a gap and without another one is all of them. -/
theorem IndicatorTable.firstStretch_append (gap : ℕ) (prices : List K) :
    firstStretch (List.replicate gap none ++ prices.map some) = ⟨gap, prices⟩ := by
  induction gap with
  | zero => exact firstStretch_map_some prices
  | succ gap ih =>
    rw [Series.mk.injEq] at ih ⊢
    exact ⟨congrArg (· + 1) ih.1, ih.2⟩

section Closes

variable {table : PriceTable K} {ticker : String} {first : ℕ}

omit [IsStrictOrderedRing K] in
/-- The closes of a ticker that is priced from its first close on. -/
theorem PriceTable.PricedOn.closes (h : table.PricedOn ticker)
    (hfirst : table.firstIndex? ticker = some first) :
    first < table.length ∧ table.series.get? ticker = some (List.replicate first none ++
      ((List.range' first (table.length - first)).map fun i => table.priceAt i ticker).map
        some) := by
  obtain ⟨closes, hget, hfind⟩ := Option.bind_eq_some_iff.1 hfirst
  have length := PriceTable.length_of_get? hget
  obtain ⟨hlt, -, hbefore⟩ := List.findIdx?_eq_some_iff_getElem.1 hfind
  refine ⟨length ▸ hlt, ?_⟩
  rw [hget, Option.some.injEq]
  apply List.ext_getElem
  · simp only [List.length_append, List.length_replicate, List.length_map, List.length_range']
    omega
  · intro i hi _
    by_cases hgap : i < first
    · rw [List.getElem_append_left (by simpa using hgap), List.getElem_replicate]
      simpa using hbefore i hgap
    · obtain ⟨price, hclose, -⟩ := h first hfirst i (by omega) (length ▸ hi)
      rw [List.getElem_append_right (by simpa using hgap)]
      simp only [List.length_replicate, List.getElem_map, List.getElem_range', Nat.one_mul]
      rw [Nat.add_sub_cancel' (by omega), PriceTable.priceAt, hclose]
      rw [PriceTable.closeAt?_of_get? hget, List.getElem?_eq_getElem hi, Option.join_some] at hclose
      exact hclose

/-- A price indicator on a day. Where a ticker is priced from its first close on, the price
indicator of a statistic has a value once it can look back on a window of returns, and the value is
the statistic of the returns of the closes of that window. -/
theorem IndicatorTable.compute_onPrices (h : table.PricedOn ticker)
    (hfirst : table.firstIndex? ticker = some first) (f : ReturnStatistic) {window : ℕ}
    (hw : 0 < window) {i : ℕ} (hfrom : first + window ≤ i) (hi : i < table.length) :
    ∃ s, compute table ⟨ticker, f.onPrices, f.closesIn window⟩ = .ok s ∧
      s.valueAt i = some (f.ofWindow (dailyReturns
        ((List.range' (i - window) (window + 1)).map fun j => table.priceAt j ticker))) := by
  obtain ⟨-, hget⟩ := h.closes hfirst
  have offset := f.firstOffset_onPrices window
  refine ⟨_, compute_of_lt hget (f.closesIn_pos hw) ?_, ?_⟩
  · rw [firstStretch_append]
    simp only [offset, List.length_map, List.length_range']
    omega
  · rw [firstStretch_append, Series.valueAt_eq_some_iff]
    dsimp only
    have place : first + (i - (first + window)) = i - window := by omega
    rw [offset, (f.slides_onPrices hw).getElem?_eq (Indicator.looksBack_values _ (f.closesIn_pos hw)),
      offset, stretch_range' _ _ (by omega), Nat.add_comm 1 window, place,
      f.values_onPrices hw (by simp) ?_]
    · exact ⟨hfrom, rfl⟩
    · intro p hp
      obtain ⟨j, hj, rfl⟩ := List.mem_map.1 hp
      rw [List.mem_range'_1] at hj
      exact (h first hfirst j (by omega) (by omega)).priceAt_pos

end Closes

/-! ## Ranked assets -/

omit [IsStrictOrderedRing K] in
/-- A stretch of the returns between successive days. -/
theorem stretch_dailyReturns (price : ℕ → K) (start : ℕ) {n k w : ℕ} (h : k + w < n) :
    ((dailyReturns ((List.range' start n).map price)).drop k).take w =
      dailyReturns ((List.range' (start + k) (w + 1)).map price) := by
  have returns : ∀ start n, dailyReturns ((List.range' start (n + 1)).map price) =
      (List.range' start n).map fun j => percentReturn (price j) (price (j + 1)) := by
    intro start n
    apply List.ext_getElem
    · simp [dailyReturns]
    · intro t ht _
      simp [dailyReturns, Nat.add_assoc]
  obtain ⟨m, rfl⟩ : ∃ m, n = m + 1 := ⟨n - 1, by omega⟩
  rw [returns, returns, stretch_range' _ _ (by omega)]

namespace StatisticTable

/-- In a strategy with distinct ids, a loaded table has under the id of a ranked child the statistic
by which its parent ranks it. -/
theorem ranksBy_of_child {α : Type} [Scalar α] {tree : Node α} {r : Requirements}
    (hr : Requirements.ofTree tree = .ok r) (hd : tree.DistinctIds) {table : PriceTable α}
    {indicators : IndicatorTable α} {settings : Settings α} {capital : α} {C : StatisticTable α}
    (hC : load tree r table indicators settings capital = .ok C) {parent child : Node α}
    (hparent : parent ∈ tree.nodes) {ranking : Ranking} (hranking : parent.ranking? = some ranking)
    (hchild : child ∈ parent.children) :
    0 < ranking.window ∧
      RanksBy C C table indicators settings capital child.id child ranking := by
  obtain ⟨d, hwalk⟩ := Node.exists_mem_walk hparent 0
  refine ⟨(Requirements.ranking_bounds hr hwalk hranking).1, ?_⟩
  have hs : (⟨child.id, ranking, d + 1⟩ : NodeStatistic) ∈ tree.statistics 0 :=
    Node.mem_statistics.2 ⟨d, parent, child, hwalk, hranking, hchild, rfl, rfl⟩
  rw [← Requirements.statistics_of_ofTree hr hd] at hs
  have within := Node.nodes_subset hparent (Node.child_mem_nodes hchild)
  exact (settled_of_load hr hd hC _ hs).ranksBy hd within rfl

/-- The run of an asset starts once its ticker has. -/
theorem firstIndex_le_simulationStart {α : Type} (t : StatisticTable α) (table : PriceTable α)
    (indicators : IndicatorTable α) (id : String) (own : Option Fraction) (ticker : String) :
    (table.firstIndex? ticker).getD table.length ≤
      t.simulationStart table indicators (.asset id own ticker) := by
  have started := (simulationStart_le_iff.1 (Nat.le_refl
    (t.simulationStart table indicators (.asset id own ticker)))).1.1
  refine dataStart_le_iff.1 started ticker (Node.mem_held_iff_tickers.2 ?_)
  exact Node.own_subset_collect Node.ownTickers _ List.mem_cons_self

/-- **Main theorem: assets are ranked by their prices.** Let a strategy with distinct ids be
prepared from positive capital, and let a node of it rank an asset whose ticker is priced from its
first close on. Where the statistic of the asset has a value, the price indicator of the same name
has the same value, over the same window or, for the largest fall, over one close more. -/
theorem asset_ranked_by_prices {tree : Node K} {r : Requirements}
    (hr : Requirements.ofTree tree = .ok r) (hd : tree.DistinctIds) {table : PriceTable K}
    {indicators : IndicatorTable K} {settings : Settings K} {capital : K} (hcapital : 0 < capital)
    {C : StatisticTable K} (hC : load tree r table indicators settings capital = .ok C)
    {parent : Node K} (hparent : parent ∈ tree.nodes) {ranking : Ranking}
    (hranking : parent.ranking? = some ranking) {id ticker : String} {own : Option Fraction}
    (hchild : .asset id own ticker ∈ parent.children) (hprices : table.PricedOn ticker) {i : ℕ}
    {x : K} (hx : C.value id i = .ok x) :
    ranking.statistic.onPrices.name = ranking.statistic.name ∧
      ∃ s, IndicatorTable.compute table ⟨ticker, ranking.statistic.onPrices,
        ranking.statistic.closesIn ranking.window⟩ = .ok s ∧ s.valueAt i = some x := by
  refine ⟨ReturnStatistic.name_onPrices _, ?_⟩
  obtain ⟨hw, days, q, hdays, values⟩ := ranksBy_of_child hr hd hC hparent hranking hchild
  obtain ⟨hfrom, hto, rfl⟩ := (values i x).1 hx
  have begun := C.firstIndex_le_simulationStart table indicators id own ticker
  generalize C.simulationStart table indicators (.asset id own ticker) = start at *
  have last := (index_of_simulate hdays (t := i - start) (by omega)).2
  cases hfirst : table.firstIndex? ticker with
  | none =>
    rw [hfirst, Option.getD_none] at begun
    omega
  | some first =>
    rw [hfirst, Option.getD_some] at begun
    have priced : ∀ j ∈ table.daysFrom start, table.Priced j ticker := by
      intro j hj
      obtain ⟨hlow, hhigh⟩ := PriceTable.mem_daysFrom hj
      exact hprices first hfirst j (by omega) hhigh
    obtain ⟨c, hc, balances⟩ := buy_and_hold rfl hcapital priced hdays
    have place : start + (i - ranking.window - start) = i - ranking.window := by omega
    rw [balances, dailyReturns_scaled hc, stretch_dailyReturns _ _ (by omega), place]
    exact IndicatorTable.compute_onPrices hprices hfirst _ hw (by omega) (by omega)

/-- Whichever of gold and bonds has fallen least. -/
def safestTree : Node ℚ :=
  .split "safest" none (.filter ⟨.maxDrawdown, 2⟩ .bottom 1)
    [.asset "gold" none "GLD", .asset "bonds" none "TLT"]

/-- Six days of prices for the tickers of `safestTree`, of which gold lacks the first. -/
def safestTable : PriceTable ℚ where
  dates := [20000, 20001, 20002, 20003, 20004, 20005]
  series := .ofList
    [("GLD", [none, some 50, some 48, some 51, some 49, some 52]),
      ("TLT", [some 80, some 84, some 82, some 86, some 85, some 83])]
  tradeableStart := 0
  aligned := by decide

theorem asset_ranked_by_prices_safestTree :
    ∃ r C x s, Requirements.ofTree safestTree = .ok r ∧
      load safestTree r safestTable ⟨.empty⟩ .default 1000 = .ok C ∧
      C.value "gold" 4 = .ok x ∧ x = 200 / 51 ∧
      IndicatorTable.compute safestTable ⟨"GLD", .maxDrawdown, 3⟩ = .ok s ∧
      s.valueAt 4 = some x := by
  have checked : (do
      let r ← Requirements.ofTree safestTree
      let C ← load safestTree r safestTable ⟨.empty⟩ .default 1000
      let x ← C.value "gold" 4
      return decide (x = 200 / 51)) = .ok true := by
    decide +kernel
  obtain ⟨r, hr, checked⟩ := Except.bind_eq_ok.1 checked
  obtain ⟨C, hC, checked⟩ := Except.bind_eq_ok.1 checked
  obtain ⟨x, hx, checked⟩ := Except.bind_eq_ok.1 checked
  have priced : safestTable.PricedOn "GLD" := by
    have days : ∀ i ∈ List.range' 1 5, safestTable.Priced i "GLD" := by decide +kernel
    have begins : safestTable.firstIndex? "GLD" = some 1 := by decide
    intro first hfirst i hlow hhigh
    obtain rfl := Option.some.inj (begins.symm.trans hfirst)
    change i < 6 at hhigh
    exact days i (List.mem_range'_1.2 (by omega))
  have distinct : safestTree.DistinctIds := by decide
  have ranked : safestTree.ranking? = some ⟨.maxDrawdown, 2⟩ := rfl
  obtain ⟨-, s, hs, hvalue⟩ := asset_ranked_by_prices hr distinct (by norm_num) hC
    (Node.self_mem_nodes safestTree) ranked List.mem_cons_self priced hx
  exact ⟨r, C, x, s, hr, hC, hx, of_decide_eq_true (Except.ok.inj checked), hs, hvalue⟩

end StatisticTable

end StrategyTree
