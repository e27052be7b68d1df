import Mathlib.Algebra.Order.Field.Basic
import StrategyTree.Proofs.Lookback.Statistics
import StrategyTree.Proofs.Simulation.Returns

/-!
# Two evaluations of one node

A node may stand in two strategies, or be evaluated over two price tables. Where both tables of
statistics are regular, both evaluations come to the same allocation on a day, if the indicators and
the prices are the same on the days that the node may look back on. That goes from the nodes below
to those above: an evaluation reads the statistics of nodes strictly below, and each of them is made
of the returns of a window of days, which cost one window of the look-back.

* `StatisticTable.Regular.of_load`: a loaded table of statistics is regular.
* `StatisticTable.Regular.evaluate_agrees`: two evaluations of one node.
-/

namespace StrategyTree

theorem Requirements.startedBy_anti (r : Requirements) {d d' : ℕ} (h : d ≤ d') :
    r.startedBy d' ≤ r.startedBy d := by
  have cost := Nat.mul_le_mul_left r.statisticWindow (Nat.sub_le_sub_left h r.nesting)
  unfold startedBy
  omega

/-- The tickers that may be traded are those the tree holds. -/
theorem Requirements.tradeable_eq_tickers {α : Type} {tree : Node α} {r : Requirements}
    (hr : ofTree tree = .ok r) : r.tradeable = tree.tickers := by
  apply SortedMap.ext_get?
  intro x
  have same : r.tradeable.contains x = true ↔ tree.tickers.contains x = true := by
    rw [tradeable_iff_of_ofTree hr, Node.mem_held_iff_tickers]
  unfold SortedMap.contains at same
  cases h : r.tradeable.get? x <;> cases h' : tree.tickers.get? x <;> simp_all

variable {K : Type} [Field K] [LinearOrder K] [Roots K]

theorem Allocation.growth_congr {a : Allocation K} {p q p' q' : String → K}
    (hp : ∀ x ∈ a.keys, p x = p' x) (hq : ∀ x ∈ a.keys, q x = q' x) :
    a.growth p q = a.growth p' q' := by
  unfold growth
  congr 2
  apply List.map_congr_left
  intro x hx
  rw [hp x hx, hq x hx]

namespace StatisticTable.Regular

/-- A loaded table of the statistics of a prudent strategy is regular. -/
theorem of_load {tree : Node K} {r : Requirements} (hr : Requirements.ofTree tree = .ok r)
    (hd : tree.DistinctIds) (hp : tree.Prudent) {table : PriceTable K}
    (hprices : ∀ i < table.length, ∀ x, r.tradeable.contains x = true → table.Priced i x)
    {indicators : IndicatorTable K} {settings : Settings K} (hf : 0 < settings.volatilityFloor)
    {capital : K} (hcapital : 0 < capital) {C : StatisticTable K}
    (hC : load tree r table indicators settings capital = .ok C) :
    Regular tree table indicators settings capital C where
  distinct := hd
  settled := by
    rw [← Requirements.statistics_of_ofTree hr hd]
    exact settled_of_load hr hd hC
  prudent := hp
  floor := hf
  capital := hcapital
  prices i hi x hx := hprices i hi x ((Requirements.tradeable_iff_of_ofTree hr).2 hx)

variable [IsStrictOrderedRing K] {tree₁ tree₂ : Node K} {table₁ table₂ : PriceTable K}
  {indicators₁ indicators₂ : IndicatorTable K} {settings : Settings K} {capital₁ capital₂ : K}
  {C₁ C₂ : StatisticTable K}

/-- Two evaluations of one node. Let the indicators be the same on the days from a first one, by
which as many days lie before as the largest window of an indicator, up to a last one, and let the
prices be. Then, in regular tables of statistics, a node at a depth comes to the same allocation on
each day by which as many lie after the first one as the levels below the node look back. -/
theorem evaluate_agrees {r : Requirements} (hr : Requirements.ofTree tree₁ = .ok r)
    (h₁ : Regular tree₁ table₁ indicators₁ settings capital₁ C₁)
    (h₂ : Regular tree₂ table₂ indicators₂ settings capital₂ C₂) {first last : ℕ}
    (hreadings : ∀ key ∈ tree₁.readings, ∀ j ≤ last, first ≤ j - r.indicatorWindow →
      BothEnd Eq (indicators₁.value key j) (indicators₂.value key j))
    (hcloses : ∀ x ∈ tree₁.held, ∀ j ≤ last, first ≤ j →
      table₁.priceAt j x = table₂.priceAt j x) (m : Node K) :
    ∀ {d j : ℕ}, (d, m) ∈ tree₁.walk 0 → m ∈ tree₂.nodes → j ≤ last →
      first ≤ j - r.startedBy d →
      BothEnd Eq ((⟨m.tickers, indicators₁, C₁, settings⟩ : Evaluator K).evaluate j m)
        ((⟨m.tickers, indicators₂, C₂, settings⟩ : Evaluator K).evaluate j m) := by
  induction m using Node.induction_below with
  | h m ih =>
    intro d j hm₁ hm₂ hj hfirst
    have within := Node.mem_nodes_of_mem_walk hm₁
    apply Evaluator.evaluate_agrees Agreement.whenBoth
    case ht => rfl
    case hf => rfl
    case hr =>
      intro key hkey
      refine hreadings key (Node.collect_subset within hkey) j hj (hfirst.trans ?_)
      unfold Requirements.startedBy
      omega
    case hs =>
      intro id hid x y hx hy
      rw [← Node.map_node_statistics d] at hid
      obtain ⟨s, hs, rfl⟩ := List.mem_map.1 hid
      obtain ⟨d', o, c, ho, hranking, hc, hid, hdepth⟩ := Node.mem_statistics.1 hs
      have ho₁ := Node.walk_subset hm₁ ho
      have hc₁ := Node.child_mem_walk ho₁ hc
      have ho₂ := Node.nodes_subset hm₂ (Node.mem_nodes_of_mem_walk ho)
      have hc₂ := Node.nodes_subset ho₂ (Node.child_mem_nodes hc)
      obtain ⟨e, he⟩ := Node.exists_mem_walk ho₂ 0
      obtain ⟨b, hb, below⟩ :=
        Node.exists_child_of_parent (Node.mem_nodes_of_mem_walk ho) hc
      -- the child is ranked in both strategies, by the same statistic over the same window
      obtain ⟨hw, -, evaluated₁, rfl⟩ := h₁.value (Node.statistics_subset hm₁ hs)
        (Node.mem_nodes_of_mem_walk hc₁) hid hx
      obtain ⟨-, -, evaluated₂, rfl⟩ := h₂.value (s := ⟨s.node, s.ranking, e + 1⟩)
        (Node.mem_statistics.2 ⟨e, o, c, he, hranking, hc, hid, rfl⟩) hc₂ hid hy
      obtain ⟨hpos, hle, hnesting⟩ := Requirements.ranking_bounds hr ho₁ hranking
      have depth := Node.depth_le_of_mem_walk ho
      have level := r.startedBy_succ (show d < r.nesting by omega)
      have deeper := r.startedBy_anti (show d + 1 ≤ d' + 1 by omega)
      rw [Node.childDepth_of_ranking hranking] at hc₁
      congr 1
      apply List.map_congr_left
      intro k hk
      rw [List.mem_range'_1] at hk
      obtain ⟨a₁, ha₁⟩ := evaluated₁ k hk.1 (by omega)
      obtain ⟨a₂, ha₂⟩ := evaluated₂ k hk.1 (by omega)
      have same := ih b hb c below hc₁ hc₂ (j := k) (by omega) (by omega) a₁ a₂ ha₁ ha₂
      subst same
      have prices : ∀ i, i = k ∨ i = k + 1 → ∀ x ∈ a₁.keys,
          table₁.priceAt i x = table₂.priceAt i x := by
        intro i hi x hx
        rw [Evaluator.keys_evaluate ha₁ fun x hx => Node.mem_held_iff_tickers.2 hx,
          ← SortedMap.contains_iff_mem_keys, Node.mem_held_iff_tickers] at hx
        exact hcloses x (Node.collect_subset (Node.mem_nodes_of_mem_walk hc₁) hx) i
          (by omega) (by omega)
      rw [Evaluator.returnFrom_of_evaluate ha₁, Evaluator.returnFrom_of_evaluate ha₂,
        Allocation.growth_congr (prices k (.inl rfl)) (prices (k + 1) (.inr rfl))]

end StatisticTable.Regular

end StrategyTree
