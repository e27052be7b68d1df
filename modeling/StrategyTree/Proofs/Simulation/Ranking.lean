import StrategyTree.Proofs.BalanceCurve
import StrategyTree.Proofs.Simulation.BuildOrder
import StrategyTree.Proofs.Simulation.Tables

/-!
# Which statistic a child is ranked by

Three searches decide by what a child is ranked, and all of them go by its id: the walk registers a
ranking for an id unless there is one, the build looks up the node to simulate, and the evaluation
looks up the statistic. For an id that occurs once they meet in the child itself and in the ranking
of its parent. Where nodes share an id, the child that is ranked first stands for all of them, if it
is also the one that is found.

* `Node.rankedChildren`: the ranked children in the order in which they are registered.
* `StatisticTable.loadDeeper`: the statistics that a run of a ranked node can read.
* `StatisticTable.ranksBy_of_load`: what a loaded table holds for a registered ranking.
* `StatisticTable.ranked_by_own_statistic`: what a loaded table holds for a ranked child.
-/

namespace StrategyTree

/-! ## Ranked children -/

namespace Node

variable {α : Type} {tree : Node α}

/-- The children that the nodes of a tree rank, in the order of the walk, each with the statistic by
which its parent ranks it. -/
def rankedChildren (tree : Node α) : List (Node α × NodeStatistic) :=
  (tree.walk 0).flatMap fun p => p.2.children.zip (p.2.ownStatistics p.1)

theorem map_snd_rankedChildren : tree.rankedChildren.map Prod.snd = tree.statistics 0 := by
  rw [rankedChildren, List.map_flatMap, statistics]
  refine List.flatMap_congr fun p _ => List.map_snd_zip ?_
  unfold ownStatistics
  split
  · exact (List.length_map _).le
  · exact Nat.zero_le _

theorem mem_nodes_of_rankedChildren {c : Node α} {s : NodeStatistic}
    (h : (c, s) ∈ tree.rankedChildren) : c ∈ tree.nodes ∧ c.id = s.node := by
  obtain ⟨⟨depth, o⟩, ho, h⟩ := List.mem_flatMap.1 h
  refine ⟨nodes_subset (mem_nodes_of_mem_walk ho) (child_mem_nodes (List.of_mem_zip h).1), ?_⟩
  dsimp only [ownStatistics] at h
  split at h
  · rw [← List.map_prod_left_eq_zip] at h
    obtain ⟨c', -, e⟩ := List.mem_map.1 h
    cases e
    rfl
  · rw [List.zip_nil_right] at h
    cases h

end Node

namespace StatisticTable

variable {α : Type} [Scalar α]

/-- The depths above one of them are split off by it. -/
theorem depths_eq_append {nesting depth : Nat} (h : depth ∈ depths nesting) :
    ∃ shallower, depths nesting =
      (depths nesting).filter (fun d => decide (depth < d)) ++ depth :: shallower := by
  obtain ⟨deeper, shallower, e⟩ := List.append_of_mem h
  have falling := pairwise_depths nesting
  rw [e, List.pairwise_append, List.pairwise_cons] at falling
  obtain ⟨-, ⟨below, -⟩, above⟩ := falling
  have all : deeper.filter (fun d => decide (depth < d)) = deeper := by
    rw [List.filter_eq_self]
    intro d hd
    exact decide_eq_true (above d hd depth List.mem_cons_self)
  have none : shallower.filter (fun d => decide (depth < d)) = [] := by
    rw [List.filter_eq_nil_iff]
    intro d hd hlt
    have := below d hd
    have := of_decide_eq_true hlt
    omega
  refine ⟨shallower, ?_⟩
  rw [e, List.filter_append, all, List.filter_cons_of_neg (by simp), none, List.append_nil]

section Load

variable {tree : Node α} {r : Requirements} {table : PriceTable α} {indicators : IndicatorTable α}
  {settings : Settings α} {capital : α} {C : StatisticTable α}

variable (tree r table indicators settings capital) in
/-- The table of all statistics nested more deeply than at a depth. -/
def loadDeeper (depth : Nat) : Except Error (StatisticTable α) :=
  (((depths r.nesting).filter fun d => decide (depth < d)).map (level r)).foldlM
    (addBatch tree table indicators settings capital) empty

variable (h : Requirements.ofTree tree = .ok r)
  (hC : load tree r table indicators settings capital = .ok C)

include h hC

/-- A registered ranking. A loaded table has, under its id, the statistic of the simulated
returns of the first node with that id, run against the statistics nested more deeply. -/
theorem ranksBy_of_load {s : NodeStatistic} (hs : s ∈ r.statistics) :
    ∃ node t, tree.find s.node = some node ∧
      loadDeeper tree r table indicators settings capital s.depth = .ok t ∧
      RanksBy C t table indicators settings capital s.node node s.ranking := by
  have levels : Levels r ((depths r.nesting).map (level r)) :=
    List.forall₂_same.2 fun _ _ => List.Perm.refl _
  have distinct := ((flatten_levels h levels).map NodeStatistic.node).nodup_iff.2
    (Requirements.nodup_statistics_of_ofTree h)
  have built := foldlM_of_load hC
  obtain ⟨shallower, split⟩ := depths_eq_append (depth_mem_depths h hs)
  rw [split, List.map_append, List.map_cons] at built distinct
  obtain ⟨t, series, ht, hof, hget⟩ := exists_of_foldlM distinct built (mem_level.2 ⟨hs, rfl⟩)
  obtain ⟨node, hnode, hof⟩ := ofTree_eq_ok.1 hof
  exact ⟨node, t, hnode, ht, ranksBy_of_ofNode hget hof⟩

/-- **Main theorem: what a child is ranked by.** Let a node `o` of an accepted tree rank its child
`c`, an inverse volatility by the deviation of returns and a filter by its own statistic. Among the
ranked children with the id of `c`, a first one `c₁` is registered. If the search by the id finds it
too, a loaded table has under this id the statistic by which its parent ranks `c₁`, over the
simulated returns of `c₁`. If the id of `c` occurs once in the tree, that child is found and is `c`
itself, and the statistic and the window are those of `o`. -/
theorem ranked_by_own_statistic {o c : Node α} (ho : o ∈ tree.nodes) {ranking : Ranking}
    (hr : o.ranking? = some ranking) (hc : c ∈ o.children) :
    ∃ c₁ s, tree.rankedChildren.find? (fun p => p.2.node == c.id) = some (c₁, s) ∧
      (tree.find c.id = some c₁ → ∃ t,
        loadDeeper tree r table indicators settings capital s.depth = .ok t ∧
        RanksBy C t table indicators settings capital c.id c₁ s.ranking) ∧
      (tree.ids.count c.id = 1 → tree.find c.id = some c₁ ∧ c₁ = c ∧ s.ranking = ranking) := by
  obtain ⟨d, hwalk⟩ := Node.exists_mem_walk ho 0
  have own : (⟨c.id, ranking, d + 1⟩ : NodeStatistic) ∈ tree.statistics 0 :=
    Node.mem_statistics.2 ⟨d, o, c, hwalk, hr, hc, rfl, rfl⟩
  -- the ranking of `o` asks for a statistic of this id, so one is registered
  have registered : (tree.rankedChildren.find? fun p => p.2.node == c.id).isSome = true := by
    rw [← Node.map_snd_rankedChildren] at own
    obtain ⟨p, hp, hsnd⟩ := List.mem_map.1 own
    rw [List.find?_isSome]
    exact ⟨p, hp, by rw [hsnd, beq_self_eq_true]⟩
  obtain ⟨⟨c₁, s⟩, hfirst⟩ := Option.isSome_iff_exists.1 registered
  have hid : s.node = c.id := by simpa using List.find?_some hfirst
  have first : (tree.statistics 0).find? (fun s => s.node == c.id) = some s := by
    rw [← Node.map_snd_rankedChildren, List.find?_map]
    exact congrArg (Option.map Prod.snd) hfirst
  have hs : s ∈ r.statistics := by
    rw [← Requirements.statisticOf_of_ofTree h] at first
    exact List.mem_of_find?_eq_some first
  obtain ⟨hnode, hid₁⟩ := Node.mem_nodes_of_rankedChildren (List.mem_of_find?_eq_some hfirst)
  refine ⟨c₁, s, hfirst, fun found => ?_, fun once => ?_⟩
  · obtain ⟨node, t, hfind, ht, ranks⟩ := ranksBy_of_load h hC hs
    rw [hid] at hfind ranks
    rw [found] at hfind
    cases hfind
    exact ⟨t, ht, ranks⟩
  · have within : c ∈ tree.nodes := Node.nodes_subset ho (Node.child_mem_nodes hc)
    have same : c₁ = c := Node.eq_of_count_map_eq_one once hnode within (hid₁.trans hid) rfl
    refine ⟨?_, same, ?_⟩
    · rw [same]
      exact Node.find_of_count_eq_one within once
    · rw [Node.statistics_unique own (List.mem_of_find?_eq_some first) hid once]

end Load

/-- A filter over bonds and over a node that itself ranks; two of its leaves share an id. -/
def tieredTree : Node ℚ :=
  .split "tiers" none (.filter ⟨.cumulativeReturn, 1⟩ .top 1)
    [.asset "bonds" none "TLT",
      .split "risky" none (.inverseVolatility 2)
        [.asset "stocks" none "SPY",
          .split "both" none .equal [.asset "leaf" none "GLD", .asset "leaf" none "TLT"]]]

/-- Six days of prices for the tickers of `tieredTree`. -/
def tieredTable : PriceTable ℚ where
  dates := [20000, 20001, 20002, 20003, 20004, 20005]
  series := .ofList [("GLD", [some 200, some 199, some 201, some 205, some 203, some 204]),
    ("SPY", [some 500, some 505, some 490, some 510, some 515, some 500]),
    ("TLT", [some 90, some 91, some 90, some 92, some 91, some 93])]
  tradeableStart := 0
  aligned := by decide

theorem ranked_by_own_statistic_tieredTree :
    ∃ r C risky t, Requirements.ofTree tieredTree = .ok r ∧
      load tieredTree r tieredTable ⟨.empty⟩ .default 1000 = .ok C ∧
      tieredTree.find "risky" = some risky ∧
      RanksBy C t tieredTable ⟨.empty⟩ .default 1000 "risky" risky ⟨.cumulativeReturn, 1⟩ ∧
      (C.value "risky" 4).isOk = true := by
  have checked : (do
      let r ← Requirements.ofTree tieredTree
      let C ← load tieredTree r tieredTable ⟨.empty⟩ .default 1000
      return (C.value "risky" 4).isOk) = .ok true := by
    decide +kernel
  obtain ⟨r, hr, checked⟩ := Except.bind_eq_ok.1 checked
  obtain ⟨C, hC, checked⟩ := Except.bind_eq_ok.1 checked
  have ranked : tieredTree.ranking? = some ⟨.cumulativeReturn, 1⟩ := rfl
  obtain ⟨c₁, s, -, ranks, once⟩ := ranked_by_own_statistic hr hC (Node.self_mem_nodes tieredTree)
    ranked (List.mem_cons_of_mem _ List.mem_cons_self)
  have unique : tieredTree.ids.count "risky" = 1 := by decide
  obtain ⟨found, -, hranking⟩ := once unique
  obtain ⟨t, -, ranks⟩ := ranks found
  rw [hranking] at ranks
  exact ⟨r, C, c₁, t, hr, hC, found, ranks, Except.ok.inj checked⟩

/-- Two filters over different windows, each of which ranks a leaf of its own; both leaves have the
same id. -/
def twinsTree : Node ℚ :=
  .split "twins" none .equal
    [.split "quick" none (.filter ⟨.movingAverageReturn, 1⟩ .top 1) [.asset "twin" none "SPY"],
      .split "slow" none (.filter ⟨.movingAverageReturn, 2⟩ .top 1) [.asset "twin" none "TLT"]]

/-- Three days of prices for the tickers of `twinsTree`. -/
def twinsTable : PriceTable ℚ where
  dates := [20000, 20001, 20002]
  series := .ofList
    [("SPY", [some 100, some 100, some 100]), ("TLT", [some 100, some 200, some 400])]
  tradeableStart := 0
  aligned := by decide

/-- The second one of two ranked leaves with the same id is ranked as the first one, not by the
statistic of its parent over its own returns. -/
theorem second_twin_ranked_as_first :
    ∃ r C, Requirements.ofTree twinsTree = .ok r ∧
      load twinsTree r twinsTable ⟨.empty⟩ .default 1000 = .ok C ∧
      loadDeeper twinsTree r twinsTable ⟨.empty⟩ .default 1000 1 = .ok empty ∧
      ¬ RanksBy C empty twinsTable ⟨.empty⟩ .default 1000 "twin" (.asset "twin" none "TLT")
        ⟨.movingAverageReturn, 2⟩ := by
  have checked : (do
      let r ← Requirements.ofTree twinsTree
      let C ← load twinsTree r twinsTable ⟨.empty⟩ .default 1000
      let x ← C.value "twin" 2
      let bonds : Node ℚ := .asset "twin" none "TLT"
      let start := empty.simulationStart twinsTable ⟨.empty⟩ bonds
      let (days, _) ← simulate ⟨bonds.tickers, ⟨.empty⟩, empty, .default⟩ twinsTable bonds
        (fun _ => false) (twinsTable.daysFrom start) (Portfolio.ofCash 1000)
      return decide (r.nesting = 1 ∧ x ≠ ReturnStatistic.movingAverageReturn.ofWindow
        (((dailyReturns (days.map Day.balance)).drop (2 - 2 - start)).take 2))) = .ok true := by
    decide +kernel
  obtain ⟨r, hr, checked⟩ := Except.bind_eq_ok.1 checked
  obtain ⟨C, hC, checked⟩ := Except.bind_eq_ok.1 checked
  obtain ⟨x, hx, checked⟩ := Except.bind_eq_ok.1 checked
  obtain ⟨⟨days, portfolio⟩, hdays, checked⟩ := Except.bind_eq_ok.1 checked
  obtain ⟨nesting, differs⟩ := of_decide_eq_true (Except.ok.inj checked)
  refine ⟨r, C, hr, hC, ?_, ?_⟩
  · rw [loadDeeper, nesting]
    rfl
  · rintro ⟨days', portfolio', hdays', values⟩
    rw [hdays] at hdays'
    cases hdays'
    exact differs ((values 2 x).1 hx).2.2

end StatisticTable

end StrategyTree
