import StrategyTree.Proofs.Evaluation.Reads
import StrategyTree.Proofs.Simulation.BuildOrder
import StrategyTree.Proofs.Tree.Grouping

/-!
# Groups do not change what a strategy does

A group around a subtree passes on what reaches it. So a strategy allocates the same with it, on
every day and whatever tables it consults, and the runs of the strategy and of all its subtrees are
the same, as long as nothing else has the id of the group.

* `Evaluator.evaluate_eq_of_grouped`: evaluation.
* `StatisticTable.load_eq_of_grouped`: statistics of ranked nodes.
* `Backtest.grouping_is_transparent`: requirements, evaluations and backtests.
-/

namespace StrategyTree

variable {α : Type} [Scalar α]

/-! ## Evaluation -/

/-- The part of a rule that shares evenly depends on the number of children only. -/
theorem Rule.exists_share {rule : Rule} (h : rule.sharesEvenly = true) (floor weight : α)
    (count : Nat) :
    ∃ share, ∀ {β : Type} (statistic : β → Except Error α) (children : List β),
      children.length = count →
        rule.shares floor statistic children weight = .ok (evenly children .equal share) := by
  cases rule with
  | root | group _ => exact ⟨weight, fun _ _ _ => rfl⟩
  | equal =>
    refine ⟨weight / Scalar.ofNat (max count 1), fun _ children hc => ?_⟩
    rw [← hc]
    rfl
  | specified | inverseVolatility _ | filter _ _ _ => cases h

namespace Evaluator

variable {e : Evaluator α} {index : Nat}

/-- A group passes on what reaches it. -/
theorem visit_inGroup (key : String) (name : Option String) (n : Node α) (weight : α)
    (s : Evaluation α) :
    e.visit index (n.inGroup key name) .equal weight s = e.visit index n .equal weight s := by
  rw [Node.inGroup, visit_split]
  change (e.visit index n .equal weight s >>= fun s => pure s) = _
  rw [bind_pure]

/-- Where a child gets a part that does not depend on it, what the child does with the part is all
that counts. -/
theorem visit_fill_of_passesOn {f : Node.Frame α} (hf : f.passesOn = true) {c c' : Node α}
    (h : ∀ weight s, e.visit index c .equal weight s = e.visit index c' .equal weight s)
    (mode : Weighting) (passed : α) (s : Evaluation α) :
    e.visit index (f.fill c) mode passed s = e.visit index (f.fill c') mode passed s := by
  cases f with
  | among id own rule before after =>
    rw [Node.Frame.fill, Node.Frame.fill, visit_split, visit_split]
    congr 1
    funext weight
    obtain ⟨share, evenly_eq⟩ := Rule.exists_share hf e.settings.volatilityFloor weight
      (before ++ c :: after).length
    rw [evenly_eq _ (before ++ c :: after) rfl,
      evenly_eq _ (before ++ c' :: after) (by simp only [List.length_append, List.length_cons])]
    simp only [Except.ok_bind, evenly, List.map_append, List.map_cons, List.foldlM_append,
      List.foldlM_cons, h]
  | yes id own conditions n => simp only [Node.Frame.fill, visit, h]
  | no id own conditions y => simp only [Node.Frame.fill, visit, h]

/-- A child may be replaced by one of the same id that does the same. -/
theorem visit_fill {f : Node.Frame α} {c c' : Node α} (hid : c.id = c'.id)
    (h : e.visit index c = e.visit index c') :
    e.visit index (f.fill c) = e.visit index (f.fill c') := by
  cases f with
  | among id own rule before after =>
    simp only [Node.Frame.fill, visit, visitors_eq_map, List.map_append, List.map_cons, hid, h]
  | yes id own conditions n => simp only [Node.Frame.fill, visit, h]
  | no id own conditions y => simp only [Node.Frame.fill, visit, h]

theorem visit_eq_of_grouped {key : String} {n m : Node α} (h : Node.Grouped key n m) :
    e.visit index n = e.visit index m := by
  induction h with
  | here f hf name c =>
    funext mode passed s
    exact visit_fill_of_passesOn hf (fun weight s => (visit_inGroup key name c weight s).symm)
      mode passed s
  | within f h ih => exact visit_fill h.id_eq ih

/-- Evaluation of a tree with a group. It ends like that of the tree without the group, on
every day and over all tables. -/
theorem evaluate_eq_of_grouped {key : String} {n m : Node α} (h : Node.Grouped key n m) :
    e.evaluate index n = e.evaluate index m := by
  unfold evaluate evaluateNode
  rw [visit_eq_of_grouped h]

end Evaluator

/-- Runs of a tree without and with a group are the same. -/
theorem simulate_eq_of_grouped {key : String} {n m : Node α} (h : Node.Grouped key n m)
    (e : Evaluator α) (table : PriceTable α) (stop : Nat → Bool) (indices : List Nat)
    (p : Portfolio α) : simulate e table n stop indices p = simulate e table m stop indices p :=
  simulate_agrees Agreement.same (fun _ => rfl)
    (fun _ _ => Evaluator.evaluate_eq_of_grouped h) (fun _ _ _ => rfl) p

/-! ## Statistics of ranked nodes -/

namespace StatisticTable

variable {key : String} {n m : Node α} {t : StatisticTable α}

omit [Scalar α] in
theorem nestedStart_eq_of_grouped (h : Node.Grouped key n m) (ht : t.series.get? key = none) :
    t.nestedStart n = t.nestedStart m := by
  -- nothing in the table has the id of the group, and the other ids are the same
  have same : ∀ id s, t.series.get? id = some s → (id ∈ n.ids ↔ id ∈ m.ids) := by
    intro id s hs
    apply h.mem_ids_iff
    rintro rfl
    rw [ht] at hs
    cases hs
  apply eq_of_le_iff
  intro bound
  rw [nestedStart_le_iff, nestedStart_le_iff, h.id_eq]
  exact forall₃_congr fun id s hs => by rw [same id s hs]

/-- The statistic of a node without and with a group within it is the same. -/
theorem ofNode_eq_of_grouped (h : Node.Grouped key n m) (ht : t.series.get? key = none)
    (table : PriceTable α) (indicators : IndicatorTable α) (settings : Settings α) (capital : α)
    (s : NodeStatistic) :
    t.ofNode table indicators settings capital n s =
      t.ofNode table indicators settings capital m s := by
  have start : t.simulationStart table indicators n = t.simulationStart table indicators m := by
    unfold simulationStart
    rw [h.tickers_eq, nestedStart_eq_of_grouped h ht]
  have balances : ∀ start, t.balancesFrom table indicators settings capital n start =
      t.balancesFrom table indicators settings capital m start := by
    intro start
    unfold balancesFrom
    rw [h.tickers_eq]
    dsimp only
    rw [simulate_eq_of_grouped h]
  simp only [ofNode, start, balances]

theorem ofTree_eq_of_grouped (h : Node.Grouped key n m) (ht : t.series.get? key = none)
    (table : PriceTable α) (indicators : IndicatorTable α) (settings : Settings α) (capital : α)
    {s : NodeStatistic} (hs : s.node ≠ key) :
    t.ofTree n table indicators settings capital s =
      t.ofTree m table indicators settings capital s := by
  unfold ofTree
  rcases h.find hs with same | ⟨a, b, ha, hb, hab⟩
  · rw [same]
  · rw [ha, hb]
    exact ofNode_eq_of_grouped hab ht table indicators settings capital s

/-- Batches without a statistic of the group build the same tables. -/
theorem foldlM_eq_of_grouped (h : Node.Grouped key n m) (table : PriceTable α)
    (indicators : IndicatorTable α) (settings : Settings α) (capital : α)
    {batches : List (List NodeStatistic)}
    (hb : ∀ batch ∈ batches, key ∉ batch.map NodeStatistic.node) :
    ∀ {t : StatisticTable α}, t.series.get? key = none →
      batches.foldlM (addBatch n table indicators settings capital) t =
        batches.foldlM (addBatch m table indicators settings capital) t := by
  induction batches with
  | nil =>
    intro t ht
    rfl
  | cons batch batches ih =>
    intro t ht
    rw [List.forall_mem_cons] at hb
    have step : addBatch n table indicators settings capital t batch =
        addBatch m table indicators settings capital t batch := by
      unfold addBatch
      refine congrArg (· >>= _) (Agreement.same.mapM fun s hs => ?_)
      have hne : s.node ≠ key := fun e => hb.1 (e ▸ List.mem_map_of_mem hs)
      rw [ofTree_eq_of_grouped h ht table indicators settings capital hne]
      exact rfl
    rw [List.foldlM_cons, List.foldlM_cons, step]
    refine Agreement.same.bind rfl fun t' ht' _ => ih hb.2 ?_
    rw [(get?_of_addBatch ht').1 key hb.1]
    exact ht

/-- Statistics of a tree with a group. If nothing else has the id of the group, they are those
of the tree without the group. -/
theorem load_eq_of_grouped (h : Node.Grouped key n m) (fresh : key ∉ n.ids) {r : Requirements}
    (hr : Requirements.ofTree n = .ok r) (table : PriceTable α) (indicators : IndicatorTable α)
    (settings : Settings α) (capital : α) :
    load n r table indicators settings capital = load m r table indicators settings capital := by
  unfold load
  split
  · rfl
  · refine foldlM_eq_of_grouped h table indicators settings capital ?_ rfl
    intro batch hbatch hkey
    obtain ⟨depth, -, rfl⟩ := List.mem_map.1 hbatch
    obtain ⟨s, hs, rfl⟩ := List.mem_map.1 hkey
    have gathered := Requirements.statistics_subset_of_ofTree hr (List.mem_filter.1 hs).1
    apply fresh
    apply Node.ranked_subset_ids
    rw [← Node.map_node_statistics 0]
    exact List.mem_map_of_mem gathered

end StatisticTable

/-! ## Backtests -/

namespace Backtest

/-- A backtest of a tree with a group is that of the tree without the group. -/
theorem run_eq_of_grouped {key : String} {request : Request α} {m : Node α}
    (h : Node.Grouped key request.tree m) (fresh : key ∉ request.tree.ids) {r : Requirements}
    (hr : Requirements.ofTree request.tree = .ok r) (table : PriceTable α) (settings : Settings α)
    (stop : Nat → Bool) :
    run { request with tree := m } r table settings stop = run request r table settings stop := by
  have prepared : prepare { request with tree := m } r table settings =
      prepare request r table settings := by
    unfold prepare
    congr 1
    funext indicators
    rw [StatisticTable.load_eq_of_grouped h fresh hr]
    rfl
  simp only [run, prepared, simulate_eq_of_grouped h]
  rfl

/-- **Grouping is transparent.** Put the subtree at a position into a group whose id is used nowhere
else, below a node that passes on evenly what reaches it. The tree is refused with the same error or
requires the same, it allocates the same on every day and over all tables, and it has the same
backtest over all prices and under all settings. -/
theorem grouping_is_transparent {key : String} {n m : Node α} (h : Node.Grouped key n m)
    (fresh : key ∉ n.ids) :
    Requirements.ofTree m = Requirements.ofTree n ∧
      (∀ (e : Evaluator α) (index : Nat), e.evaluate index m = e.evaluate index n) ∧
      ∀ (request : Request α) (r : Requirements), request.tree = n →
        Requirements.ofTree n = .ok r →
        ∀ (table : PriceTable α) (settings : Settings α) (stop : Nat → Bool),
          run { request with tree := m } r table settings stop =
            run request r table settings stop := by
  refine ⟨h.ofTree_eq.symm, fun e index => (Evaluator.evaluate_eq_of_grouped h).symm, ?_⟩
  rintro request r rfl hr table settings stop
  exact run_eq_of_grouped h fresh hr table settings stop

/-- Bonds against an even mix of stocks and gold, weighted by their volatilities. -/
def mixedRequest : Request Float where
  startingBalance := 1000
  startDate := 20000
  endDate := 20005
  tree := .split "all" none (.inverseVolatility 2)
    [.asset "bonds" none "TLT",
      .split "mix" none .equal [.asset "stocks" none "SPY", .asset "gold" none "GLD"]]
  history := true

/-- The tree of `mixedRequest` with a group around its stocks. -/
def groupedMix : Node Float :=
  .split "all" none (.inverseVolatility 2)
    [.asset "bonds" none "TLT",
      .split "mix" none .equal
        [(Node.asset "stocks" none "SPY").inGroup "spare" (some "Stocks"),
          .asset "gold" none "GLD"]]

theorem grouping_is_transparent_groupedMix :
    Node.Grouped "spare" mixedRequest.tree groupedMix ∧ "spare" ∉ mixedRequest.tree.ids ∧
      ∃ r report, Requirements.ofTree mixedRequest.tree = .ok r ∧
        Requirements.ofTree groupedMix = .ok r ∧
        run mixedRequest r StatisticTable.nestedTable .default (fun _ => false) = .ok report ∧
        run { mixedRequest with tree := groupedMix } r StatisticTable.nestedTable .default
          (fun _ => false) = .ok report := by
  have grouped : Node.Grouped "spare" mixedRequest.tree groupedMix :=
    .within (.among "all" none (.inverseVolatility 2) [.asset "bonds" none "TLT"] [])
      (.here (.among "mix" none .equal [] [.asset "gold" none "GLD"]) rfl (some "Stocks") _)
  have fresh : "spare" ∉ mixedRequest.tree.ids := by decide
  have hok : (Requirements.ofTree mixedRequest.tree >>= fun r =>
      run mixedRequest r StatisticTable.nestedTable .default fun _ => false).isOk = true := by
    decide +kernel
  obtain ⟨report, hrun⟩ := Outcome.exists_of_isOk hok
  obtain ⟨r, hr, hrun⟩ := Except.bind_eq_ok.1 hrun
  obtain ⟨required, -, same⟩ := grouping_is_transparent grouped fresh
  refine ⟨grouped, fresh, r, report, hr, required.trans hr, hrun, ?_⟩
  rw [same mixedRequest r rfl hr]
  exact hrun

end Backtest

end StrategyTree
