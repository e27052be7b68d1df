import StrategyTree.Proofs.Lookback.Indicators
import StrategyTree.Proofs.Simulation.Levels

/-!
# Statistics of ranked nodes within the look-back

Every level of ranked nodes costs one window: the run of a ranked node starts once everything nested
within it has, and the first value of its statistic belongs to the last day of a window of returns.
So the statistics that are nested most deeply have started one window after the indicators, and all
statistics have started when the look-back ends.

* `Requirements.startedBy`: by which day everything nested more deeply than a depth has started.
* `StatisticTable.Built`: the invariant of building level by level.
* `StatisticTable.built_of_addBatch`: what one level does to it.
* `StatisticTable.load_of_sufficient`: all statistics of a strategy.
-/

namespace StrategyTree

variable {α : Type}

/-! ## The cost of a level -/

namespace Requirements

/-- By which day all indicators and all statistics nested more deeply than a depth have started. -/
def startedBy (r : Requirements) (depth : Nat) : Nat :=
  r.indicatorWindow + r.statisticWindow * (r.nesting - depth)

/-- At the root, that is when the look-back ends. -/
theorem startedBy_zero (r : Requirements) : r.startedBy 0 = r.exactLookback := rfl

/-- A level costs one window. -/
theorem startedBy_succ (r : Requirements) {depth : Nat} (h : depth < r.nesting) :
    r.startedBy (depth + 1) + r.statisticWindow = r.startedBy depth := by
  have level : r.nesting - depth = r.nesting - (depth + 1) + 1 := by omega
  unfold startedBy
  rw [level, Nat.mul_succ]
  omega

theorem startedBy_le (r : Requirements) (depth : Nat) :
    r.startedBy depth ≤ r.exactLookback := by
  have fewer : r.nesting - depth ≤ r.nesting := Nat.sub_le _ _
  have cost := Nat.mul_le_mul_left r.statisticWindow fewer
  unfold startedBy exactLookback
  omega

end Requirements

namespace StatisticTable

variable [Scalar α] {tree : Node α} {r : Requirements} {table : PriceTable α}
  {indicators : IndicatorTable α} {settings : Settings α} {capital : α}

/-- All statistics nested more deeply than a depth have been built, and whatever has been built
has started by then and goes on to the last day. -/
structure Built (r : Requirements) (stop depth : Nat) (t : StatisticTable α) : Prop where
  present : ∀ s ∈ r.statistics, depth < s.depth → ∃ series, t.series.get? s.node = some series
  covers : ∀ id series, t.series.get? id = some series → series.Covers (r.startedBy depth) stop

/-- Indicators that have all been computed, have started and go on to the last day. -/
structure Ready (tree : Node α) (r : Requirements) (stop : Nat) (indicators : IndicatorTable α) :
    Prop where
  present : ∀ key ∈ tree.readings, ∃ s, indicators.series.get? key = some s
  covers : ∀ key s, indicators.series.get? key = some s → s.Covers r.indicatorWindow stop

/-! ## Evaluations that find what they read -/

section Node

variable (hr : Requirements.ofTree tree = .ok r) (hd : tree.DistinctIds)
  {stop depth : Nat} {m : Node α} (hm : (depth, m) ∈ tree.walk 0)

include hr hd hm

/-- An evaluation finds what it reads on every day on which all it may read has started. -/
theorem evaluate_of_built {e : Evaluator α} (hi : Ready tree r stop e.indicators)
    (ht : Built r stop depth e.statistics) {index : Nat} (hstop : index < stop)
    (hstarted : ∀ key s, e.indicators.series.get? key = some s → s.start ≤ index)
    (hnested : ∀ id ∈ m.ranked, ∀ s, e.statistics.series.get? id = some s → s.start ≤ index) :
    ∃ allocation, e.evaluate index m = .ok allocation := by
  have within := Node.mem_nodes_of_mem_walk hm
  apply Evaluator.evaluate_succeeds
  · intro key hkey
    obtain ⟨s, hs⟩ := hi.present key (Node.collect_subset within hkey)
    have covers : s.Covers index stop := ⟨hstarted key s hs, (hi.covers key s hs).2⟩
    obtain ⟨x, hx⟩ := Series.exists_valueAt covers hstop
    exact ⟨x, IndicatorTable.value_eq_ok.2 ⟨s, hs, hx⟩⟩
  · intro id hid
    have complete : e.statistics.Complete r depth := ht.present
    obtain ⟨s, hs⟩ := complete.exists_of_ranked hr hd hm hid
    have covers : s.Covers index stop := ⟨hnested id hid s hs, (ht.covers id s hs).2⟩
    obtain ⟨x, hx⟩ := Series.exists_valueAt covers hstop
    exact ⟨x, value_eq_ok.2 ⟨s, hs, hx⟩⟩

end Node

/-! ## One statistic -/

section Level

variable (hr : Requirements.ofTree tree = .ok r) (hsuff : table.Sufficient r)
  (hi : Ready tree r table.length indicators)

include hr hsuff hi

omit [Scalar α] in
/-- The run of a ranked node starts once everything nested more deeply has. -/
theorem simulationStart_le {t : StatisticTable α} {depth : Nat} {m : Node α}
    (ht : Built r table.length depth t) (hm : (depth, m) ∈ tree.walk 0) (hpos : 0 < depth) :
    t.simulationStart table indicators m ≤ r.startedBy depth := by
  rw [simulationStart_le_iff, dataStart_le_iff, nestedStart_le_iff,
    IndicatorTable.firstComplete_le_iff]
  refine ⟨⟨fun x hx => ?_, fun id s hs _ _ => (ht.covers id s hs).1⟩, fun key s hs => ?_⟩
  · have full := hsuff.full x (Requirements.lookback_of_held hr hm hpos
      (Node.mem_held_iff_tickers.1 hx))
    have long := hsuff.long
    rw [full.firstIndex (by omega)]
    exact Nat.zero_le _
  · have started := (hi.covers key s hs).1
    unfold Requirements.startedBy
    omega

/-- One statistic. The statistic of a ranked node at a depth can be computed once everything
nested more deeply is there, and it starts at most one window later. -/
theorem ofNode_of_built (hd : tree.DistinctIds) {t : StatisticTable α} {depth : Nat} {m : Node α}
    (ht : Built r table.length (depth + 1) t) (hm : (depth + 1, m) ∈ tree.walk 0)
    (hdepth : depth < r.nesting) {s : NodeStatistic} (hpos : 0 < s.ranking.window)
    (hle : s.ranking.window ≤ r.statisticWindow) :
    ∃ series, t.ofNode table indicators settings capital m s = .ok series ∧
      series.Covers (r.startedBy depth) table.length := by
  have early := simulationStart_le hr hsuff hi ht hm (Nat.succ_pos depth)
  have level := r.startedBy_succ hdepth
  have bound := r.startedBy_le depth
  have long := hsuff.long
  have evaluations : ∀ i, t.simulationStart table indicators m ≤ i → i < table.length →
      ∃ allocation, (⟨m.tickers, indicators, t, settings⟩ : Evaluator α).evaluate i m =
        .ok allocation := by
    intro i hstart hstop
    obtain ⟨⟨-, nested⟩, started⟩ := simulationStart_le_iff.1 hstart
    apply evaluate_of_built hr hd hm hi ht hstop
    · exact IndicatorTable.firstComplete_le_iff.1 started
    · intro id hid series hseries
      exact start_le_of_ranked hd (Node.mem_nodes_of_mem_walk hm) nested hid hseries
  have loaded : ∀ x, m.tickers.contains x = true ∨ x ∈ m.held → table.isLoaded x = true := by
    intro x hx
    rw [Node.mem_held_iff_tickers, or_self] at hx
    have looked := Requirements.lookback_of_held hr hm (Nat.succ_pos depth) hx
    exact hsuff.isLoaded x (Requirements.tickers_of_lookback hr looked)
  obtain ⟨days, q, hdays, hindex⟩ :=
    simulate_daysFrom_succeeds capital hsuff.hasCloses evaluations loaded
  have count : days.length = table.length - t.simulationStart table indicators m := by
    have lengths := congrArg List.length hindex
    rw [List.length_map, List.length_range'] at lengths
    exact lengths
  refine ⟨_, ofNode_eq_ok.2 ⟨days, q, hdays, hpos, by omega, rfl⟩, ?_, ?_⟩
  · show _ + (1 + (s.ranking.window - 1)) ≤ _
    omega
  · show _ + (1 + (s.ranking.window - 1)) + List.length _ = _
    rw [ReturnStatistic.length_ofBalances _ hpos, List.length_map]
    show _ + (1 + (s.ranking.window - 1)) + (_ - (1 + (s.ranking.window - 1))) = _
    omega

/-! ## One level -/

/-- One level. Building the level above one that has been built succeeds and extends what has
been built by that level. -/
theorem built_of_addBatch (hd : tree.DistinctIds) {t : StatisticTable α} {depth : Nat}
    (hdepth : depth < r.nesting) (ht : Built r table.length (depth + 1) t) :
    ∃ t', addBatch tree table indicators settings capital t (level r (depth + 1)) = .ok t' ∧
      Built r table.length depth t' := by
  have each : ∀ s ∈ level r (depth + 1), ∃ series,
      t.ofTree tree table indicators settings capital s = .ok series ∧
        series.Covers (r.startedBy depth) table.length := by
    intro s hs
    obtain ⟨hs, hlevel⟩ := mem_level.1 hs
    rw [Requirements.statistics_of_ofTree hr hd] at hs
    obtain ⟨o, owner, -, hwalk, hranking, -⟩ := Node.mem_statistics.1 hs
    obtain ⟨hpos, hle, -⟩ := Requirements.ranking_bounds hr hwalk hranking
    obtain ⟨m, hm, hid⟩ := Node.exists_mem_walk_of_statistics hs
    rw [hlevel] at hm
    have hfind := hd.find_of_mem (Node.mem_nodes_of_mem_walk hm)
    rw [hid] at hfind
    obtain ⟨series, hseries, covers⟩ := ofNode_of_built hr hsuff hi hd ht hm hdepth hpos hle
    exact ⟨series, ofTree_eq_ok.2 ⟨m, hfind, hseries⟩, covers⟩
  obtain ⟨t', ht'⟩ := addBatch_succeeds fun s hs => (each s hs).imp fun _ h => h.1
  obtain ⟨kept, added⟩ := get?_of_addBatch ht'
  have distinct := nodup_level hr (depth + 1)
  refine ⟨t', ht', fun s hs hlt => ?_, fun id series hseries => ?_⟩
  · apply exists_of_addBatch ht' distinct
    by_cases hlevel : s.depth = depth + 1
    · exact .inl (List.mem_map_of_mem (mem_level.2 ⟨hs, hlevel⟩))
    · exact .inr (ht.present s hs (by omega))
  · by_cases hid : id ∈ (level r (depth + 1)).map NodeStatistic.node
    · obtain ⟨s, hs, rfl⟩ := List.mem_map.1 hid
      obtain ⟨series', hseries', hof⟩ := added distinct s hs
      obtain ⟨series'', hof', covers⟩ := each s hs
      rw [hseries] at hseries'
      cases hseries'
      rw [hof] at hof'
      cases hof'
      exact covers
    · have level_cost := r.startedBy_succ hdepth
      exact (ht.covers id series ((kept id hid).symm.trans hseries)).mono (by omega)

/-! ## All levels -/

omit hr hsuff hi in
theorem depths_succ (n : Nat) : depths (n + 1) = (n + 1) :: depths n := by
  unfold depths
  rw [List.range_succ, List.reverse_append, List.reverse_singleton, List.singleton_append,
    List.map_cons]

/-- Building the levels from one on up to the root. -/
theorem built_of_foldlM (hd : tree.DistinctIds) {depth : Nat} :
    ∀ {t : StatisticTable α}, depth ≤ r.nesting → Built r table.length depth t →
      ∃ C, ((depths depth).map (level r)).foldlM
          (addBatch tree table indicators settings capital) t = .ok C ∧
        Built r table.length 0 C := by
  induction depth with
  | zero =>
    intro t _ ht
    exact ⟨t, rfl, ht⟩
  | succ depth ih =>
    intro t hdepth ht
    obtain ⟨t', ht', built⟩ := built_of_addBatch hr hsuff hi hd hdepth ht
    obtain ⟨C, hC, whole⟩ := ih (Nat.le_of_succ_le hdepth) built
    refine ⟨C, ?_, whole⟩
    rw [depths_succ, List.map_cons, List.foldlM_cons, ht', Except.ok_bind]
    exact hC

/-- All statistics. Over a sufficient table the statistics of a strategy can be computed; they
start within the look-back and go on to the last day. -/
theorem load_of_sufficient (hd : tree.DistinctIds)
    (hn : ∀ s ∈ r.statistics, s.depth ≤ settings.nestingLimit) :
    ∃ C, load tree r table indicators settings capital = .ok C ∧ Built r table.length 0 C := by
  have nothing_deeper : Built r table.length r.nesting (empty : StatisticTable α) := by
    refine ⟨fun s hs hlt => ?_, fun id series hseries => ?_⟩
    · have bound := (mem_depths.1 (depth_mem_depths hr hs)).2
      omega
    · cases hseries
  obtain ⟨C, hC, built⟩ := built_of_foldlM hr hsuff hi hd (Nat.le_refl _) nothing_deeper
  refine ⟨C, ?_, built⟩
  unfold load
  split
  · rename_i s hfind
    have deep := List.find?_some hfind
    have limit := hn s (List.mem_of_find?_eq_some hfind)
    simp only [decide_eq_true_eq] at deep
    omega
  · exact hC

end Level

end StatisticTable

end StrategyTree
