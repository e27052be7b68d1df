import Mathlib.Algebra.Order.Field.Basic
import StrategyTree.Proofs.Causality.Sliding
import StrategyTree.Proofs.Lookback.Comparison

/-!
# What a decision depends on

The look-back of a strategy bounds the days that a decision depends on. Runs of ranked nodes start
at the beginning of the axis and carry a balance through all days since, but in exact arithmetic
only the returns of the last days count. So for a prudent strategy without indicators that carry a
state along, over tickers that are priced on every day, what is decided on a day depends on the
closes of that day and of as many days before as the look-back has. A look-back that does not fit
into a word bounds nothing.

* `IndicatorTable.value_agrees`: a value of an indicator depends on the closes of its window.
* `StatisticTable.simulationStart_agrees`: where runs start does not depend on the prices.
* `Backtest.lookback_bounds_dependence`: what a decision depends on.
* `Backtest.overlong_lookback_bounds_nothing`: a look-back that does not fit.
-/

namespace StrategyTree

variable {α : Type} [Scalar α]

/-! ## Indicators -/

namespace IndicatorTable

variable {table₁ table₂ : PriceTable α} {keys : List Indicator.Key} {i₁ i₂ : IndicatorTable α}
  {key : Indicator.Key}

/-- An indicator that has a value, over closes without gaps. -/
theorem of_valueAt_of_full {table : PriceTable α} {prices : List α}
    (h : table.series.get? key.ticker = some (prices.map some)) {s : Series α}
    (hs : compute table key = .ok s) {j : Nat} {x : α} (hx : s.valueAt j = some x) :
    0 < key.window ∧
      s = ⟨key.function.firstOffset key.window, key.function.values key.window prices⟩ := by
  obtain ⟨hw, ⟨-, hs⟩ | ⟨-, rfl⟩⟩ := of_compute_of_full h hs
  · exact ⟨hw, hs⟩
  · obtain ⟨-, hx⟩ := Series.valueAt_eq_some_iff.1 hx
    cases hx

/-- A value of an indicator that slides depends on the closes of its window. -/
theorem value_agrees (h₁ : load table₁ keys = .ok i₁)
    (h₂ : load table₂ keys = .ok i₂) (hmean : key.function ≠ .exponentialMovingAveragePrice)
    (hstrength : key.function ≠ .relativeStrengthIndex)
    (hsome₁ : ∀ k < table₁.length, (table₁.closeAt? key.ticker k).isSome = true)
    (hsome₂ : ∀ k < table₂.length, (table₂.closeAt? key.ticker k).isSome = true) {j : Nat}
    (hcloses : ∀ k ≤ j, j - key.window ≤ k →
      table₁.closeAt? key.ticker k = table₂.closeAt? key.ticker k) :
    BothEnd Eq (i₁.value key j) (i₂.value key j) := by
  intro x y hx hy
  obtain ⟨s₁, hs₁, hx⟩ := compute_of_value h₁ hx
  obtain ⟨s₂, hs₂, hy⟩ := compute_of_value h₂ hy
  obtain ⟨_, hloaded₁, -⟩ := of_compute_eq_ok hs₁
  obtain ⟨_, hloaded₂, -⟩ := of_compute_eq_ok hs₂
  obtain ⟨prices₁, hget₁, -⟩ := (PriceTable.full_of_get? hloaded₁ hsome₁).exists_prices
  obtain ⟨prices₂, hget₂, -⟩ := (PriceTable.full_of_get? hloaded₂ hsome₂).exists_prices
  obtain ⟨hw, rfl⟩ := of_valueAt_of_full hget₁ hs₁ hx
  obtain ⟨-, rfl⟩ := of_valueAt_of_full hget₂ hs₂ hy
  obtain ⟨hstart, hx⟩ := Series.valueAt_eq_some_iff.1 hx
  obtain ⟨-, hy⟩ := Series.valueAt_eq_some_iff.1 hy
  dsimp only at hstart hx hy
  -- the stretch of closes that the value is made of lies within the window
  have offset := key.function.firstOffset_le key.window
  have prices : ∀ k ≤ j, j - key.window ≤ k → prices₁[k]? = prices₂[k]? := by
    intro k hk hle
    have close := hcloses k hk hle
    rw [PriceTable.closeAt?_of_get? hget₁, PriceTable.closeAt?_of_get? hget₂, List.getElem?_map,
      List.getElem?_map] at close
    cases h₁ : prices₁[k]? <;> cases h₂ : prices₂[k]? <;> simp_all
  have stretch : (prices₁.drop (j - key.function.firstOffset key.window)).take
        (1 + key.function.firstOffset key.window) =
      (prices₂.drop (j - key.function.firstOffset key.window)).take
        (1 + key.function.firstOffset key.window) := by
    apply List.ext_getElem?
    intro k
    rw [List.getElem?_take, List.getElem?_take]
    split
    · rw [List.getElem?_drop, List.getElem?_drop]
      exact prices _ (by omega) (by omega)
    · rfl
  have same := (Indicator.slides_values hw hmean hstrength).getElem?_congr
    (Indicator.looksBack_values key.function hw) stretch
  rw [hx, hy] at same
  exact Option.some.inj same

/-- A loaded indicator over closes without gaps starts at its first offset. If that is a day of the
axis, the indicator goes on to the last day. -/
theorem series_of_full (h : load table₁ keys = .ok i₁) (hkey : key ∈ keys)
    (full : table₁.Full key.ticker) (hword : key.window < Word.size) :
    ∃ s, i₁.series.get? key = some s ∧ s.start = key.function.firstOffset key.window ∧
      (s.start < table₁.length → s.stop = table₁.length) := by
  obtain ⟨s, hget, hs⟩ := (load_eq_ok h).1 key hkey
  obtain ⟨prices, hprices, length⟩ := full.exists_prices
  obtain ⟨hw, ⟨hlong, rfl⟩ | ⟨hshort, rfl⟩⟩ := of_compute_of_full hprices hs
  · refine ⟨_, hget, rfl, fun _ => ?_⟩
    show key.function.firstOffset key.window + List.length _ = _
    rw [Indicator.length_values _ hw]
    omega
  · have offset := key.function.firstOffset_le key.window
    have start : Word.add 0 (key.function.firstOffset key.window) =
        key.function.firstOffset key.window := by
      rw [Word.add_of_lt (by omega), Nat.zero_add]
    refine ⟨_, hget, start, fun hlt => ?_⟩
    have hlt : key.function.firstOffset key.window < table₁.length := start ▸ hlt
    omega

/-- Where all closes are there, indicators start on the same days whatever the prices. -/
theorem firstComplete_agrees (h₁ : load table₁ keys = .ok i₁)
    (h₂ : load table₂ keys = .ok i₂) (full₁ : ∀ key ∈ keys, table₁.Full key.ticker)
    (full₂ : ∀ key ∈ keys, table₂.Full key.ticker) (hwords : ∀ key ∈ keys, key.window < Word.size) :
    i₁.firstComplete = i₂.firstComplete := by
  have started : ∀ {table : PriceTable α} {i : IndicatorTable α} {m : Nat},
      load table keys = .ok i → (∀ key ∈ keys, table.Full key.ticker) →
      (i.firstComplete ≤ m ↔ ∀ key ∈ keys, key.function.firstOffset key.window ≤ m) := by
    intro table i m h full
    rw [firstComplete_le_iff]
    constructor
    · intro hm key hkey
      obtain ⟨s, hget, hstart, -⟩ := series_of_full h hkey (full key hkey) (hwords key hkey)
      rw [← hstart]
      exact hm key s hget
    · intro hm key s hs
      by_cases hkey : key ∈ keys
      · obtain ⟨s', hget, hstart, -⟩ := series_of_full h hkey (full key hkey) (hwords key hkey)
        rw [hs] at hget
        cases hget
        rw [hstart]
        exact hm key hkey
      · rw [(load_eq_ok h).2 key hkey] at hs
        cases hs
  apply eq_of_le_iff
  intro m
  rw [started h₁ full₁, started h₂ full₂]

end IndicatorTable

/-! ## Statistics of ranked nodes -/

namespace StatisticTable

section Starts

variable {tree : Node α} {r : Requirements} {table : PriceTable α} {indicators : IndicatorTable α}
  {settings : Settings α} {capital : α} {C : StatisticTable α}

/-- Where every day has closes, a settled statistic starts one window after its run and goes on to
the last day. -/
theorem Settled.series {s : NodeStatistic} (h : Settled tree table indicators settings capital C s)
    (hd : tree.DistinctIds) {m : Node α} (hm : m ∈ tree.nodes) (hid : m.id = s.node)
    (hc : ∀ i < table.length, table.hasCloses i = true) :
    ∃ series, C.series.get? s.node = some series ∧
      series.start = C.simulationStart table indicators m + s.ranking.window ∧
      series.stop = table.length := by
  obtain ⟨m', series, hfind, hget, hof⟩ := h
  rw [← hid, hd.find_of_mem hm] at hfind
  cases hfind
  obtain ⟨days, q, hdays, hw, hlong, rfl⟩ := ofNode_eq_ok.1 hof
  have count := congrArg List.length (map_index_simulate hdays)
  rw [PriceTable.daysFrom_eq_range' hc, List.length_map, List.length_range'] at count
  refine ⟨_, hget, ?_, ?_⟩
  · show _ + (1 + (s.ranking.window - 1)) = _
    omega
  · show _ + (1 + (s.ranking.window - 1)) + List.length _ = _
    rw [ReturnStatistic.length_ofBalances _ hw, List.length_map]
    show _ + (1 + (s.ranking.window - 1)) + (_ - (1 + (s.ranking.window - 1))) = _
    omega

variable (hr : Requirements.ofTree tree = .ok r) (hd : tree.DistinctIds)

include hr hd

/-- By which day everything strictly below a node has started. -/
theorem nestedStart_le_iff_of_load
    (hC : load tree r table indicators settings capital = .ok C)
    (hc : ∀ i < table.length, table.hasCloses i = true) {m : Node α} (hm : m ∈ tree.nodes)
    {k : Nat} :
    C.nestedStart m ≤ k ↔ ∀ s ∈ r.statistics, ∀ c ∈ tree.nodes, c.id = s.node →
      c.id ∈ m.idsBelow → C.simulationStart table indicators c + s.ranking.window ≤ k := by
  have settled := settled_of_load hr hd hC
  have distinct := hd.of_mem hm
  rw [nestedStart_le_iff]
  constructor
  · intro h s hs c hcn hid hbelow
    obtain ⟨series, hget, hstart, -⟩ := (settled s hs).series hd hcn hid hc
    rw [← hstart]
    rw [hid] at hbelow
    refine h s.node series hget ?_ (Node.mem_ids_iff.2 (.inr hbelow))
    intro e
    rw [e] at hbelow
    exact distinct.id_not_mem_idsBelow (Node.self_mem_nodes m) hbelow
  · intro h id series hget hne hid
    -- whatever has an entry is a ranked node
    by_cases hmem : id ∈ r.statistics.map NodeStatistic.node
    · obtain ⟨s, hs, rfl⟩ := List.mem_map.1 hmem
      have hstat := hs
      rw [Requirements.statistics_of_ofTree hr hd] at hstat
      obtain ⟨c, hwalk, hcid⟩ := Node.exists_mem_walk_of_statistics hstat
      have hcn := Node.mem_nodes_of_mem_walk hwalk
      obtain ⟨series', hget', hstart, -⟩ := (settled s hs).series hd hcn hcid hc
      rw [hget] at hget'
      cases hget'
      rw [hstart]
      exact h s hs c hcn hcid (hcid ▸ (Node.mem_ids_iff.1 hid).resolve_left hne)
    · rw [absent_of_load hr hC hmem] at hget
      cases hget

end Starts

section Agrees

variable {tree : Node α} {r : Requirements} {table₁ table₂ : PriceTable α}
  {indicators₁ indicators₂ : IndicatorTable α} {settings₁ settings₂ : Settings α}
  {capital₁ capital₂ : α} {C₁ C₂ : StatisticTable α}

omit [Scalar α] in
/-- Tickers without gaps all start with the first day. -/
theorem dataStart_of_full {table : PriceTable α} {tickers : SortedSet String}
    (ht : 0 < table.length) (h : ∀ x, tickers.contains x = true → table.Full x) :
    dataStart table tickers = 0 := by
  rw [← Nat.le_zero, dataStart_le_iff]
  intro x hx
  exact ((h x hx).firstIndex ht).le

/-- Where runs start. Where all closes are there, the runs of the nodes of a strategy start on
the same days whatever the prices. -/
theorem simulationStart_agrees (hr : Requirements.ofTree tree = .ok r) (hd : tree.DistinctIds)
    (hC₁ : load tree r table₁ indicators₁ settings₁ capital₁ = .ok C₁)
    (hC₂ : load tree r table₂ indicators₂ settings₂ capital₂ = .ok C₂)
    (ht₁ : 0 < table₁.length) (ht₂ : 0 < table₂.length)
    (hfull₁ : ∀ x, r.tickers.contains x = true → table₁.Full x)
    (hfull₂ : ∀ x, r.tickers.contains x = true → table₂.Full x)
    (hc₁ : ∀ i < table₁.length, table₁.hasCloses i = true)
    (hc₂ : ∀ i < table₂.length, table₂.hasCloses i = true)
    (hindicators : indicators₁.firstComplete = indicators₂.firstComplete) (m : Node α) :
    m ∈ tree.nodes → C₁.simulationStart table₁ indicators₁ m =
      C₂.simulationStart table₂ indicators₂ m := by
  induction m using Node.induction_below with
  | h m ih =>
    intro hm
    have mentioned : ∀ x, m.tickers.contains x = true → r.tickers.contains x = true := by
      intro x hx
      apply Requirements.tickers_of_tradeable hr
      rw [Requirements.tradeable_iff_of_ofTree hr]
      exact Node.collect_subset hm (Node.mem_held_iff_tickers.1 hx)
    have data : dataStart table₁ m.tickers = dataStart table₂ m.tickers := by
      rw [dataStart_of_full ht₁ fun x hx => hfull₁ x (mentioned x hx),
        dataStart_of_full ht₂ fun x hx => hfull₂ x (mentioned x hx)]
    have nested : C₁.nestedStart m = C₂.nestedStart m := by
      apply eq_of_le_iff
      intro k
      rw [nestedStart_le_iff_of_load hr hd hC₁ hc₁ hm, nestedStart_le_iff_of_load hr hd hC₂ hc₂ hm]
      refine forall₂_congr fun s _ => forall₂_congr fun c hc => forall₂_congr fun _ hbelow => ?_
      obtain ⟨b, hb, below⟩ := hd.exists_child_of_id hm hc hbelow
      rw [ih b hb c below hc]
    unfold simulationStart
    rw [nested, data, hindicators]

end Agrees

end StatisticTable

/-! ## Evaluations that find what they read -/

/-- Where all closes are there, an evaluation succeeds on every day on which the indicators and the
statistics of ranked nodes have started. -/
theorem Evaluator.evaluate_of_started {tree : Node α} {r : Requirements}
    (hr : Requirements.ofTree tree = .ok r) (hd : tree.DistinctIds) {table : PriceTable α}
    {settings : Settings α} {capital : α} {indicators : IndicatorTable α} {C : StatisticTable α}
    (hi : IndicatorTable.load table r.indicators.toList = .ok indicators)
    (hC : StatisticTable.load tree r table indicators settings capital = .ok C)
    (hwords : ∀ key ∈ tree.readings, key.window < Word.size)
    (hfull : ∀ x, r.tickers.contains x = true → table.Full x)
    (hc : ∀ i < table.length, table.hasCloses i = true) {i : Nat} (hlt : i < table.length)
    (hindicators : indicators.firstComplete ≤ i)
    (hstatistics : ∀ s ∈ r.statistics, ∀ c ∈ tree.nodes, c.id = s.node →
      C.simulationStart table indicators c + s.ranking.window ≤ i) :
    ∃ a, (⟨r.tradeable, indicators, C, settings⟩ : Evaluator α).evaluate i tree = .ok a := by
  apply Evaluator.evaluate_succeeds
  · intro key hkey
    have full := hfull _ (Requirements.tickers_of_lookback hr
      (Requirements.lookback_of_readings hr hkey))
    obtain ⟨s, hget, -, hstop⟩ := IndicatorTable.series_of_full hi
      ((Requirements.indicators_iff_of_ofTree hr).2 hkey) full (hwords key hkey)
    have started := IndicatorTable.firstComplete_le_iff.1 hindicators key s hget
    obtain ⟨x, hx⟩ := Series.exists_valueAt ⟨started, hstop (Nat.lt_of_le_of_lt started hlt)⟩ hlt
    exact ⟨x, IndicatorTable.value_eq_ok.2 ⟨s, hget, hx⟩⟩
  · intro id hid
    rw [← Node.map_node_statistics 0] at hid
    obtain ⟨s, hs, rfl⟩ := List.mem_map.1 hid
    obtain ⟨c, hwalk, hcid⟩ := Node.exists_mem_walk_of_statistics hs
    rw [← Requirements.statistics_of_ofTree hr hd] at hs
    have within := Node.mem_nodes_of_mem_walk hwalk
    obtain ⟨series, hget, hstart, hstop⟩ :=
      (StatisticTable.settled_of_load hr hd hC s hs).series hd within hcid hc
    have started := hstatistics s hs c within hcid
    obtain ⟨x, hx⟩ := Series.exists_valueAt ⟨hstart ▸ started, hstop⟩ hlt
    exact ⟨x, StatisticTable.value_eq_ok.2 ⟨series, hget, hx⟩⟩

/-! ## Decisions -/

section Decisions

variable {tree : Node α} {r : Requirements} (hr : Requirements.ofTree tree = .ok r)
  (hd : tree.DistinctIds) {settings : Settings α} {capital : α} {table₁ table₂ : PriceTable α}
  {indicators₁ indicators₂ : IndicatorTable α} {C₁ C₂ : StatisticTable α}
  (hi₁ : IndicatorTable.load table₁ r.indicators.toList = .ok indicators₁)
  (hi₂ : IndicatorTable.load table₂ r.indicators.toList = .ok indicators₂)
  (hC₁ : StatisticTable.load tree r table₁ indicators₁ settings capital = .ok C₁)
  (hC₂ : StatisticTable.load tree r table₂ indicators₂ settings capital = .ok C₂) {i : Nat}

include hr hd hi₁ hi₂ hC₁ hC₂

/-- Where all closes are there, a decision can be made over either of two tables of one length from
the day on from which it can be made over the first. -/
theorem Backtest.both_evaluate (hwords : ∀ key ∈ tree.readings, key.window < Word.size)
    (hlength : table₁.length = table₂.length)
    (hfull₁ : ∀ x, r.tickers.contains x = true → table₁.Full x)
    (hfull₂ : ∀ x, r.tickers.contains x = true → table₂.Full x)
    (hticker : ∃ x, r.tickers.contains x = true) (hlt : i < table₁.length)
    (hstart : startIndex table₁ indicators₁ C₁ ≤ i) :
    (∃ a, (⟨r.tradeable, indicators₁, C₁, settings⟩ : Evaluator α).evaluate i tree = .ok a) ∧
      ∃ a, (⟨r.tradeable, indicators₂, C₂, settings⟩ : Evaluator α).evaluate i tree = .ok a := by
  obtain ⟨x, hx⟩ := hticker
  have hc₁ : ∀ j < table₁.length, table₁.hasCloses j = true := fun j => (hfull₁ x hx).hasCloses
  have hc₂ : ∀ j < table₂.length, table₂.hasCloses j = true := fun j => (hfull₂ x hx).hasCloses
  have read : ∀ key ∈ r.indicators.toList, r.tickers.contains key.ticker = true := fun key hkey =>
    Requirements.tickers_of_lookback hr
      (Requirements.lookback_of_readings hr ((Requirements.indicators_iff_of_ofTree hr).1 hkey))
  have complete : indicators₁.firstComplete = indicators₂.firstComplete :=
    IndicatorTable.firstComplete_agrees hi₁ hi₂
      (fun key hkey => hfull₁ _ (read key hkey)) (fun key hkey => hfull₂ _ (read key hkey))
      fun key hkey => hwords key ((Requirements.indicators_iff_of_ofTree hr).1 hkey)
  have starts := StatisticTable.simulationStart_agrees hr hd hC₁ hC₂ (by omega) (by omega) hfull₁
    hfull₂ hc₁ hc₂ complete
  obtain ⟨⟨-, hindicators⟩, hstatistics⟩ := startIndex_le_iff.1 hstart
  have started : ∀ s ∈ r.statistics, ∀ c ∈ tree.nodes, c.id = s.node →
      C₁.simulationStart table₁ indicators₁ c + s.ranking.window ≤ i := by
    intro s hs c hcn hid
    obtain ⟨series, hget, hseries, -⟩ :=
      (StatisticTable.settled_of_load hr hd hC₁ s hs).series hd hcn hid hc₁
    rw [← hseries]
    exact StatisticTable.firstComplete_le_iff.1 hstatistics s.node series hget
  constructor
  · exact Evaluator.evaluate_of_started hr hd hi₁ hC₁ hwords hfull₁ hc₁ hlt hindicators started
  · -- the runs of ranked nodes start on the same days over both tables
    refine Evaluator.evaluate_of_started hr hd hi₂ hC₂ hwords hfull₂ hc₂ (hlength ▸ hlt)
      (complete ▸ hindicators) fun s hs c hcn hid => ?_
    rw [← starts c hcn]
    exact started s hs c hcn hid

end Decisions

variable {K : Type} [Field K] [LinearOrder K] [Roots K] [IsStrictOrderedRing K]

/-- **Main theorem: the look-back bounds what a decision depends on.** Let a prudent strategy with
distinct ids, none of whose conditions reads an exponential mean or a relative strength and whose
look-back fits into a word, be prepared from positive capital, with a positive volatility floor,
over two price tables of one length in which its tickers are priced on every day. If the closes are
the same on a day and on as many days before as the look-back has, the strategy decides the same on
that day over both. And from the start of the run to the last day it does decide, if it mentions a
ticker. -/
theorem Backtest.lookback_bounds_dependence {tree : Node K} {r : Requirements}
    (hr : Requirements.ofTree tree = .ok r) (hd : tree.DistinctIds) (hp : tree.Prudent)
    (hfits : r.exactLookback < Word.size)
    (hplain : ∀ key ∈ tree.readings, key.function ≠ .exponentialMovingAveragePrice ∧
      key.function ≠ .relativeStrengthIndex)
    {settings : Settings K} (hf : 0 < settings.volatilityFloor) {capital : K}
    (hcapital : 0 < capital) {table₁ table₂ : PriceTable K}
    (hlength : table₁.length = table₂.length)
    (hprices₁ : ∀ j < table₁.length, ∀ x, r.tickers.contains x = true → table₁.Priced j x)
    (hprices₂ : ∀ j < table₂.length, ∀ x, r.tickers.contains x = true → table₂.Priced j x)
    {indicators₁ indicators₂ : IndicatorTable K} {C₁ C₂ : StatisticTable K}
    (hi₁ : IndicatorTable.load table₁ r.indicators.toList = .ok indicators₁)
    (hi₂ : IndicatorTable.load table₂ r.indicators.toList = .ok indicators₂)
    (hC₁ : StatisticTable.load tree r table₁ indicators₁ settings capital = .ok C₁)
    (hC₂ : StatisticTable.load tree r table₂ indicators₂ settings capital = .ok C₂) {i : ℕ}
    (hagree : ∀ j ≤ i, i - r.requiredLookback ≤ j → ∀ x, r.tickers.contains x = true →
      table₁.closeAt? x j = table₂.closeAt? x j) :
    (∀ a₁ a₂,
      (⟨r.tradeable, indicators₁, C₁, settings⟩ : Evaluator K).evaluate i tree = .ok a₁ →
      (⟨r.tradeable, indicators₂, C₂, settings⟩ : Evaluator K).evaluate i tree = .ok a₂ →
        a₁ = a₂) ∧
      (startIndex table₁ indicators₁ C₁ ≤ i → i < table₁.length →
        (∃ x, r.tickers.contains x = true) → ∃ a,
        (⟨r.tradeable, indicators₁, C₁, settings⟩ : Evaluator K).evaluate i tree = .ok a ∧
        (⟨r.tradeable, indicators₂, C₂, settings⟩ : Evaluator K).evaluate i tree = .ok a) := by
  rw [Requirements.requiredLookback_eq hfits] at hagree
  have held : ∀ x ∈ tree.held, r.tickers.contains x = true := fun x hx =>
    Requirements.tickers_of_tradeable hr ((Requirements.tradeable_iff_of_ofTree hr).2 hx)
  have words : ∀ key ∈ tree.readings, key.window < Word.size := by
    intro key hkey
    have window := Requirements.window_le_of_readings hr hkey
    unfold Requirements.exactLookback at hfits
    omega
  have read : ∀ key ∈ tree.readings, r.tickers.contains key.ticker = true := fun key hkey =>
    Requirements.tickers_of_lookback hr (Requirements.lookback_of_readings hr hkey)
  have regular₁ := StatisticTable.Regular.of_load hr hd hp
    (fun j hj x hx => hprices₁ j hj x (Requirements.tickers_of_tradeable hr hx)) hf hcapital hC₁
  have regular₂ := StatisticTable.Regular.of_load hr hd hp
    (fun j hj x hx => hprices₂ j hj x (Requirements.tickers_of_tradeable hr hx)) hf hcapital hC₂
  have readings : ∀ key ∈ tree.readings, ∀ j ≤ i,
      i - r.exactLookback ≤ j - r.indicatorWindow →
        BothEnd Eq (indicators₁.value key j) (indicators₂.value key j) := by
    intro key hkey j hj hfirst
    have window := Requirements.window_le_of_readings hr hkey
    exact IndicatorTable.value_agrees hi₁ hi₂ (hplain key hkey).1
      (hplain key hkey).2 (fun k hk => (hprices₁ k hk _ (read key hkey)).isSome)
      (fun k hk => (hprices₂ k hk _ (read key hkey)).isSome)
      fun k hk hle => hagree k (hk.trans hj) (by omega) _ (read key hkey)
  have closes : ∀ x ∈ tree.held, ∀ j ≤ i, i - r.exactLookback ≤ j →
      table₁.priceAt j x = table₂.priceAt j x := by
    intro x hx j hj hfirst
    rw [PriceTable.priceAt, PriceTable.priceAt, hagree j hj hfirst x (held x hx)]
  have same : BothEnd Eq
      ((⟨r.tradeable, indicators₁, C₁, settings⟩ : Evaluator K).evaluate i tree)
      ((⟨r.tradeable, indicators₂, C₂, settings⟩ : Evaluator K).evaluate i tree) := by
    rw [Requirements.tradeable_eq_tickers hr]
    exact regular₁.evaluate_agrees hr regular₂ readings closes tree (Node.self_mem_walk 0 tree)
      (Node.self_mem_nodes tree) le_rfl le_rfl
  refine ⟨same, fun hstart hlt hticker => ?_⟩
  obtain ⟨⟨a₁, h₁⟩, a₂, h₂⟩ := both_evaluate hr hd hi₁ hi₂ hC₁ hC₂ words hlength
    (fun x hx => PriceTable.full_of_closeAt? (by omega) fun k hk => (hprices₁ k hk x hx).isSome)
    (fun x hx => PriceTable.full_of_closeAt? (by omega) fun k hk => (hprices₂ k hk x hx).isSome)
    hticker hlt hstart
  obtain rfl := same a₁ a₂ h₁ h₂
  exact ⟨a₁, h₁, h₂⟩

/-- Bonds, gold and oil by their volatilities while stocks rise, otherwise bonds. -/
def steadyTree : Node ℚ :=
  .choice "trend" none
    ⟨.any, [⟨⟨"SPY", .cumulativeReturn, 2⟩, .greater, .fixed 1⟩]⟩
    (.split "steady" none (.inverseVolatility 2)
      [.asset "bonds" none "TLT",
        .split "goods" none (.inverseVolatility 2)
          [.asset "gold" none "GLD", .asset "oil" none "USO"]])
    (.asset "safety" none "TLT")

/-- The days of the tables below. -/
def nineDays : List Date :=
  [20000, 20001, 20002, 20003, 20004, 20005, 20006, 20007, 20008]

/-- Nine days of prices for the tickers of `steadyTree`. -/
def steadyTable : PriceTable ℚ where
  dates := nineDays
  series := .ofList
    [("GLD", [some 50, some 51, some 49, some 50, some 52, some 51, some 53, some 54, some 52]),
      ("SPY", [some 98, some 96, some 99, some 95, some 97, some 99, some 98, some 99, some 101]),
      ("TLT", [some 80, some 84, some 82, some 86, some 85, some 83, some 84, some 82, some 83]),
      ("USO", [some 20, some 19, some 21, some 20, some 22, some 23, some 21, some 20, some 22])]
  tradeableStart := 0
  aligned := by decide

/-- The same nine days, but that all prices of the first two are other ones. -/
def crashTable : PriceTable ℚ where
  dates := nineDays
  series := .ofList
    [("GLD", [some 90, some 11, some 49, some 50, some 52, some 51, some 53, some 54, some 52]),
      ("SPY", [some 10, some 99, some 99, some 95, some 97, some 99, some 98, some 99, some 101]),
      ("TLT", [some 30, some 10, some 82, some 86, some 85, some 83, some 84, some 82, some 83]),
      ("USO", [some 70, some 90, some 21, some 20, some 22, some 23, some 21, some 20, some 22])]
  tradeableStart := 0
  aligned := by decide

theorem Backtest.lookback_bounds_dependence_steadyTree :
    ∃ r indicators₁ indicators₂ C₁ C₂ a, Requirements.ofTree steadyTree = .ok r ∧
      r.requiredLookback = 6 ∧ steadyTable.closeAt? "TLT" 1 ≠ crashTable.closeAt? "TLT" 1 ∧
      IndicatorTable.load steadyTable r.indicators.toList = .ok indicators₁ ∧
      IndicatorTable.load crashTable r.indicators.toList = .ok indicators₂ ∧
      StatisticTable.load steadyTree r steadyTable indicators₁ .default 10000 = .ok C₁ ∧
      StatisticTable.load steadyTree r crashTable indicators₂ .default 10000 = .ok C₂ ∧
      (⟨r.tradeable, indicators₁, C₁, .default⟩ : Evaluator ℚ).evaluate 8 steadyTree = .ok a ∧
      (⟨r.tradeable, indicators₂, C₂, .default⟩ : Evaluator ℚ).evaluate 8 steadyTree = .ok a := by
  have checked : (do
      let r ← Requirements.ofTree steadyTree
      let indicators₁ ← IndicatorTable.load steadyTable r.indicators.toList
      let indicators₂ ← IndicatorTable.load crashTable r.indicators.toList
      let C₁ ← StatisticTable.load steadyTree r steadyTable indicators₁ .default 10000
      let _ ← StatisticTable.load steadyTree r crashTable indicators₂ .default 10000
      return decide (r.requiredLookback = 6 ∧ r.exactLookback < Word.size ∧
        startIndex steadyTable indicators₁ C₁ ≤ 8 ∧ r.tickers.contains "TLT" = true ∧
        (∀ x ∈ r.tickers.keys, ∀ j ∈ List.range 9,
          steadyTable.Priced j x ∧ crashTable.Priced j x) ∧
        ∀ x ∈ r.tickers.keys, ∀ j ∈ List.range' 2 7,
          steadyTable.closeAt? x j = crashTable.closeAt? x j)) = .ok true := by
    decide +kernel
  obtain ⟨r, hr, checked⟩ := Except.bind_eq_ok.1 checked
  obtain ⟨indicators₁, hi₁, checked⟩ := Except.bind_eq_ok.1 checked
  obtain ⟨indicators₂, hi₂, checked⟩ := Except.bind_eq_ok.1 checked
  obtain ⟨C₁, hC₁, checked⟩ := Except.bind_eq_ok.1 checked
  obtain ⟨C₂, hC₂, checked⟩ := Except.bind_eq_ok.1 checked
  obtain ⟨hlookback, hfits, hstart, hticker, hprices, hagree⟩ :=
    of_decide_eq_true (Except.ok.inj checked)
  have prudent : steadyTree.Prudent := by decide +kernel
  have floor : (0 : ℚ) < (Settings.default : Settings ℚ).volatilityFloor := by decide +kernel
  have plain : ∀ key ∈ steadyTree.readings, key.function ≠ .exponentialMovingAveragePrice ∧
      key.function ≠ .relativeStrengthIndex := by decide
  have capital : (0 : ℚ) < 10000 := by norm_num
  have length : steadyTable.length = crashTable.length := rfl
  have priced := fun x hx => hprices x (SortedMap.contains_iff_mem_keys.1 hx)
  obtain ⟨a, h₁, h₂⟩ := (lookback_bounds_dependence hr (by decide) prudent hfits plain floor
    capital length (fun j hj x hx => (priced x hx j (List.mem_range.2 hj)).1)
    (fun j hj x hx => (priced x hx j (List.mem_range.2 hj)).2) hi₁ hi₂ hC₁ hC₂ (i := 8)
    fun j hj hfirst x hx => hagree x (SortedMap.contains_iff_mem_keys.1 hx) j
      (List.mem_range'_1.2 (by omega))).2 hstart (by decide) ⟨"TLT", hticker⟩
  exact ⟨r, indicators₁, indicators₂, C₁, C₂, a, hr, hlookback, by decide +kernel, hi₁, hi₂, hC₁,
    hC₂, h₁, h₂⟩

/-- Bonds after a day on which stocks rise, otherwise a node over the largest window that ranks no
children. -/
def bulkyTree : Node ℚ :=
  .choice "trend" none ⟨.all, [⟨⟨"SPY", .cumulativeReturn, 1⟩, .greater, .fixed 0⟩]⟩
    (.asset "bonds" none "TLT")
    (.split "nothing" none (.inverseVolatility 18446744073709551615) [])

/-- Two days between which stocks rise. -/
def riseTable : PriceTable ℚ where
  dates := [20000, 20001]
  series := .ofList [("SPY", [some 100, some 110]), ("TLT", [some 90, some 91])]
  tradeableStart := 0
  aligned := by decide

/-- The same two days, but that stocks fall to the same price. -/
def fallTable : PriceTable ℚ where
  dates := [20000, 20001]
  series := .ofList [("SPY", [some 120, some 110]), ("TLT", [some 90, some 91])]
  tradeableStart := 0
  aligned := by decide

/-- A look-back that fits into no word may leave nothing of it, while decisions depend on the day
before. -/
theorem Backtest.overlong_lookback_bounds_nothing :
    ∃ r i₁ i₂ C₁ C₂ a₁ a₂, Requirements.ofTree bulkyTree = .ok r ∧ bulkyTree.DistinctIds ∧
      bulkyTree.Prudent ∧ (∀ key ∈ bulkyTree.readings, key.function = .cumulativeReturn) ∧
      r.requiredLookback = 0 ∧
      (∀ x, r.tickers.contains x = true → riseTable.closeAt? x 1 = fallTable.closeAt? x 1) ∧
      (∀ j < 2, ∀ x, r.tickers.contains x = true →
        riseTable.Priced j x ∧ fallTable.Priced j x) ∧
      IndicatorTable.load riseTable r.indicators.toList = .ok i₁ ∧
      IndicatorTable.load fallTable r.indicators.toList = .ok i₂ ∧
      StatisticTable.load bulkyTree r riseTable i₁ .default 10000 = .ok C₁ ∧
      StatisticTable.load bulkyTree r fallTable i₂ .default 10000 = .ok C₂ ∧
      startIndex riseTable i₁ C₁ ≤ 1 ∧
      (⟨r.tradeable, i₁, C₁, .default⟩ : Evaluator ℚ).evaluate 1 bulkyTree = .ok a₁ ∧
      (⟨r.tradeable, i₂, C₂, .default⟩ : Evaluator ℚ).evaluate 1 bulkyTree = .ok a₂ ∧
      a₁.get? "TLT" = some (some 100) ∧ a₂.get? "TLT" = some none := by
  have checked : (do
      let r ← Requirements.ofTree bulkyTree
      let i₁ ← IndicatorTable.load riseTable r.indicators.toList
      let i₂ ← IndicatorTable.load fallTable r.indicators.toList
      let C₁ ← StatisticTable.load bulkyTree r riseTable i₁ .default 10000
      let C₂ ← StatisticTable.load bulkyTree r fallTable i₂ .default 10000
      let a₁ ← (⟨r.tradeable, i₁, C₁, .default⟩ : Evaluator ℚ).evaluate 1 bulkyTree
      let a₂ ← (⟨r.tradeable, i₂, C₂, .default⟩ : Evaluator ℚ).evaluate 1 bulkyTree
      return decide (r.requiredLookback = 0 ∧
        (∀ x ∈ r.tickers.keys, riseTable.closeAt? x 1 = fallTable.closeAt? x 1) ∧
        (∀ x ∈ r.tickers.keys, ∀ j ∈ List.range 2, riseTable.Priced j x ∧ fallTable.Priced j x) ∧
        startIndex riseTable i₁ C₁ ≤ 1 ∧
        a₁.get? "TLT" = some (some 100) ∧ a₂.get? "TLT" = some none)) = .ok true := by
    decide +kernel
  obtain ⟨r, hr, checked⟩ := Except.bind_eq_ok.1 checked
  obtain ⟨i₁, hi₁, checked⟩ := Except.bind_eq_ok.1 checked
  obtain ⟨i₂, hi₂, checked⟩ := Except.bind_eq_ok.1 checked
  obtain ⟨C₁, hC₁, checked⟩ := Except.bind_eq_ok.1 checked
  obtain ⟨C₂, hC₂, checked⟩ := Except.bind_eq_ok.1 checked
  obtain ⟨a₁, h₁, checked⟩ := Except.bind_eq_ok.1 checked
  obtain ⟨a₂, h₂, checked⟩ := Except.bind_eq_ok.1 checked
  obtain ⟨hlookback, hagree, hprices, hstart, rise, fall⟩ :=
    of_decide_eq_true (Except.ok.inj checked)
  refine ⟨r, i₁, i₂, C₁, C₂, a₁, a₂, hr, by decide, by decide +kernel, by decide, hlookback,
    fun x hx => ?_, fun j hj x hx => ?_, hi₁, hi₂, hC₁, hC₂, hstart, h₁, h₂, rise, fall⟩
  · exact hagree x (SortedMap.contains_iff_mem_keys.1 hx)
  · exact hprices x (SortedMap.contains_iff_mem_keys.1 hx) j (List.mem_range.2 hj)

end StrategyTree
