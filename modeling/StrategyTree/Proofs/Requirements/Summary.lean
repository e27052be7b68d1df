import StrategyTree.Proofs.Requirements.Faults

/-!
# What a tree requires, in summary

The requirements of a tree are gathered in one walk with a depth and a list of known ids. Each part
of them can be said by itself, as a set, a list or a largest number taken over the nodes of the
tree, and a tree that has no fault requires exactly that.

* `Requirements.summary`: the parts of what a tree requires, each said by itself.
* `Requirements.ofTree_eq_summary`: a tree is refused with its first fault, or requires its summary.
-/

namespace StrategyTree

/-! ## Sets of the members of a list -/

namespace SortedSet

variable {κ : Type} [KeyOrder κ]

theorem contains_ofList {ks : List κ} {k : κ} : (ofList ks).contains k = true ↔ k ∈ ks := by
  have general : ∀ (ks : List κ) (s : SortedSet κ),
      (ks.foldl add s).contains k = true ↔ k ∈ ks ∨ s.contains k = true := by
    intro ks
    induction ks with
    | nil => intro s; simp
    | cons j ks ih =>
      intro s
      rw [List.foldl_cons, ih, contains_add, List.mem_cons, or_left_comm, or_assoc, eq_comm]
  rw [ofList, general]
  exact or_iff_left (by simp [contains_empty])

/-- Sets with the same members are equal. -/
theorem ext_contains {s t : SortedSet κ} (h : ∀ k, s.contains k = true ↔ t.contains k = true) :
    s = t := by
  apply SortedMap.ext_get?
  intro k
  have hk := h k
  rw [SortedMap.contains, SortedMap.contains] at hk
  cases hs : s.get? k <;> cases ht : t.get? k <;> simp_all

/-- A set is that of the members of a list. -/
theorem eq_ofList {s : SortedSet κ} {ks : List κ} (h : ∀ k, s.contains k = true ↔ k ∈ ks) :
    s = ofList ks :=
  ext_contains fun k => (h k).trans contains_ofList.symm

end SortedSet

/-- The largest number of a list is determined by its bounds. -/
theorem eq_foldl_max {a : Nat} {xs : List Nat} (h : ∀ m, a ≤ m ↔ ∀ x ∈ xs, x ≤ m) :
    a = xs.foldl max 0 :=
  eq_of_le_iff fun m => (h m).trans foldl_max_le_iff.symm

/-! ## Parts of a tree -/

namespace Node

variable {α : Type}

/-- The tickers of the indicators that the conditions of a tree read. -/
def readTickers (n : Node α) : List String := n.readings.map Indicator.Key.ticker

/-- The rankings by which the nodes of a tree rank their children. -/
def rankings (n : Node α) : List Ranking := n.nodes.filterMap ranking?

/-- The tickers held below a node that ranks its children. -/
def ownRankedTickers (n : Node α) : List String :=
  match n.ranking? with
  | some _ => n.children.flatMap held
  | none => []

/-- The tickers held anywhere below nodes that rank their children. -/
def rankedTickers (n : Node α) : List String := n.collect ownRankedTickers

/-- For each node of a tree that ranks its children, the number of such nodes from the root down to
it, that node included. -/
def rankingDepths (n : Node α) : List Nat :=
  (n.walk 0).filterMap fun p => p.2.ranking?.map fun _ => p.1 + 1

theorem ownRankedTickers_subset_held (n : Node α) : n.ownRankedTickers ⊆ n.held := by
  intro x hx
  unfold ownRankedTickers at hx
  split at hx
  · rw [held_eq]
    exact List.mem_append_right _ hx
  · cases hx

theorem rankedTickers_subset_held (n : Node α) : n.rankedTickers ⊆ n.held := by
  intro x hx
  obtain ⟨m, hm, hx⟩ := List.mem_flatMap.1 hx
  exact collect_subset hm (ownRankedTickers_subset_held m hx)

/-- What stands deeper than the root stands in the walk of a child. -/
theorem exists_deeper_iff {P : Nat × Node α → Prop} {depth : Nat} {n : Node α} :
    (∃ p ∈ n.walk depth, depth < p.1 ∧ P p) ↔
      ∃ c ∈ n.children, ∃ p ∈ c.walk (n.childDepth depth), depth < p.1 ∧ P p := by
  rw [walk_eq]
  constructor
  · rintro ⟨p, hp, hlt, h⟩
    rcases List.mem_cons.1 hp with rfl | hp
    · exact absurd hlt (Nat.lt_irrefl depth)
    · obtain ⟨c, hc, hp⟩ := List.mem_flatMap.1 hp
      exact ⟨c, hc, p, hp, hlt, h⟩
  · rintro ⟨c, hc, p, hp, hlt, h⟩
    exact ⟨p, List.mem_cons_of_mem _ (List.mem_flatMap.2 ⟨c, hc, hp⟩), hlt, h⟩

/-- The nodes whose depth exceeds that of the root are those below a node that ranks. -/
theorem mem_rankedTickers_iff {x : String} {n : Node α} :
    ∀ {depth : Nat}, x ∈ n.rankedTickers ↔
      ∃ p ∈ n.walk depth, depth < p.1 ∧ x ∈ p.2.ownTickers := by
  induction n using induction_on_children with
  | h n ih =>
    intro depth
    rw [exists_deeper_iff, rankedTickers, collect_eq, ownRankedTickers]
    cases hr : n.ranking? with
    | none =>
      -- the children stand at the depth of the node itself
      have same : n.childDepth depth = depth := by rw [childDepth, hr]
      rw [same, List.nil_append, List.mem_flatMap]
      exact exists_congr fun c => and_congr_right fun hc => ih c hc
    | some ranking =>
      -- everything held below the node counts, and stands deeper than it
      have absorbed : x ∈ n.children.flatMap held ++ n.children.flatMap rankedTickers ↔
          ∃ c ∈ n.children, x ∈ c.held := by
        rw [List.mem_append, or_iff_left_of_imp, List.mem_flatMap]
        intro hx
        obtain ⟨c, hc, hx⟩ := List.mem_flatMap.1 hx
        exact List.mem_flatMap.2 ⟨c, hc, rankedTickers_subset_held c hx⟩
      refine absorbed.trans (exists_congr fun c => and_congr_right fun _ => ?_)
      rw [childDepth_of_ranking hr, held, ← flatMap_walk ownTickers (depth + 1), List.mem_flatMap]
      exact exists_congr fun p => and_congr_right fun hp =>
        (and_iff_right (depth_le_of_mem_walk (d := p.1) (m := p.2) hp)).symm

theorem mem_rankings_iff {ranking : Ranking} {n : Node α} :
    ranking ∈ n.rankings ↔ ∃ p ∈ n.walk 0, p.2.ranking? = some ranking := by
  rw [rankings, ← map_snd_walk n 0, List.mem_filterMap]
  simp only [List.mem_map, exists_exists_and_eq_and]

theorem mem_rankingDepths_iff {d : Nat} {n : Node α} :
    d ∈ n.rankingDepths ↔ ∃ p ∈ n.walk 0, (∃ k, p.2.ranking? = some k) ∧ p.1 + 1 = d := by
  rw [rankingDepths, List.mem_filterMap]
  simp only [Option.map_eq_some_iff, exists_and_right]

/-- What the nodes of a walk have of two kinds is of one kind or of the other. -/
theorem mem_flatMap_append {β γ : Type} {f g : β → List γ} {bs : List β} {x : γ} :
    x ∈ bs.flatMap (fun b => f b ++ g b) ↔ x ∈ bs.flatMap f ∨ x ∈ bs.flatMap g := by
  simp only [List.mem_flatMap, List.mem_append, and_or_left, exists_or]

theorem flatMap_readTickers (depth : Nat) (n : Node α) :
    ((n.walk depth).flatMap fun p => p.2.ownReadings.map Indicator.Key.ticker) = n.readTickers := by
  rw [flatMap_walk fun m : Node α => m.ownReadings.map Indicator.Key.ticker, readTickers, readings,
    collect, collect, List.map_flatMap]

end Node

/-! ## The summary -/

namespace Requirements

open Node

variable {α : Type}

/-- Of the statistics of each node the first one, in order. -/
def firstOfEach : List NodeStatistic → List NodeStatistic
  | [] => []
  | s :: rest => s :: (firstOfEach rest).filter fun t => t.node != s.node

/-- What a tree requires, each part said by itself. -/
def summary (tree : Node α) : Requirements where
  tickers := .ofList (tree.held ++ tree.readTickers)
  tradeable := tree.tickers
  lookback := .ofList (tree.readTickers ++ tree.rankedTickers)
  indicators := .ofList tree.readings
  statistics := firstOfEach (tree.statistics 0)
  indicatorWindow := (tree.readings.map Indicator.Key.window).foldl max 0
  statisticWindow := (tree.rankings.map Ranking.window).foldl max 0
  nesting := tree.rankingDepths.foldl max 0

/-- Taking in new statistics one after the other takes in the first one of each unknown node. -/
theorem foldl_appendNew_eq {new : List NodeStatistic} :
    ∀ {known : List NodeStatistic}, new.foldl appendNew known =
      known ++ (firstOfEach new).filter fun s => !known.any fun t => t.node == s.node := by
  induction new with
  | nil => intro known; simp [firstOfEach]
  | cons s new ih =>
    intro known
    have isKnown : (known.find? fun t => t.node == s.node).isSome =
        known.any fun t => t.node == s.node := by
      rw [Bool.eq_iff_iff, List.find?_isSome, List.any_eq_true]
    rw [List.foldl_cons, ih, appendNew, isKnown, firstOfEach, List.filter_cons, List.filter_filter]
    cases hs : known.any fun t => t.node == s.node with
    | true =>
      -- what is not known has another node than `s`
      congr 1
      apply List.filter_congr
      intro t _
      by_cases e : t.node = s.node
      · simp [e, hs]
      · simp [e]
    | false =>
      simp only [Bool.false_eq_true, if_false, Bool.not_false, if_true, List.append_assoc,
        List.singleton_append, List.any_append, List.any_cons, List.any_nil, Bool.or_false]
      congr 2
      apply List.filter_congr
      intro t _
      by_cases e : t.node = s.node
      · simp [e]
      · rw [bne, beq_eq_false_iff_ne.2 e, beq_eq_false_iff_ne.2 (Ne.symm e), Bool.or_false,
          Bool.not_false, Bool.and_true]

section Parts

variable {tree : Node α} {r : Requirements} (h : ofTree tree = .ok r)

include h

theorem tickers_of_ofTree : r.tickers = .ofList (tree.held ++ tree.readTickers) := by
  refine SortedSet.eq_ofList fun x => ?_
  rw [(gathers_of_ofTree h).tickers, or_iff_left (by simp [SortedSet.contains_empty]),
    List.mem_append]
  unfold mentioned
  rw [mem_flatMap_append, flatMap_walk ownTickers, flatMap_readTickers, held]

theorem tradeable_of_ofTree : r.tradeable = tree.tickers := by
  refine SortedSet.ext_contains fun x => ?_
  rw [tradeable_iff_of_ofTree h, mem_held_iff_tickers]

theorem lookback_of_ofTree : r.lookback = .ofList (tree.readTickers ++ tree.rankedTickers) := by
  refine SortedSet.eq_ofList fun x => ?_
  have ranked : x ∈ (tree.walk 0).flatMap (fun p => if 0 < p.1 then p.2.ownTickers else []) ↔
      x ∈ tree.rankedTickers := by
    simp only [List.mem_flatMap, List.mem_ite_nil_right]
    exact mem_rankedTickers_iff.symm
  rw [(gathers_of_ofTree h).lookback, or_iff_left (by simp [SortedSet.contains_empty]),
    List.mem_append]
  unfold lookedBack
  rw [mem_flatMap_append, flatMap_readTickers, ranked, or_comm]

theorem indicators_of_ofTree : r.indicators = .ofList tree.readings := by
  refine SortedSet.eq_ofList fun key => ?_
  rw [← SortedSet.mem_toList, indicators_iff_of_ofTree h]

theorem firsts_of_ofTree : r.statistics = firstOfEach (tree.statistics 0) := by
  rw [(gathers_of_ofTree h).statistics]
  refine foldl_appendNew_eq.trans ?_
  simp [Node.statistics]

theorem indicatorWindow_of_ofTree :
    r.indicatorWindow = (tree.readings.map Indicator.Key.window).foldl max 0 := by
  refine eq_foldl_max fun m => ?_
  rw [(gathers_of_ofTree h).indicatorWindow, flatMap_walk ownReadings, List.forall_mem_map]
  exact and_iff_left (Nat.zero_le m)

theorem statisticWindow_of_ofTree :
    r.statisticWindow = (tree.rankings.map Ranking.window).foldl max 0 := by
  refine eq_foldl_max fun m => ?_
  rw [(gathers_of_ofTree h).statisticWindow, and_iff_left (Nat.zero_le m), List.forall_mem_map]
  simp only [mem_rankings_iff, Option.mem_def]
  exact ⟨fun h k ⟨p, hp, hk⟩ => h p hp k hk, fun h p hp k hk => h k ⟨p, hp, hk⟩⟩

theorem nesting_of_ofTree : r.nesting = tree.rankingDepths.foldl max 0 := by
  refine eq_foldl_max fun m => ?_
  rw [(gathers_of_ofTree h).nesting, and_iff_left (Nat.zero_le m)]
  simp only [mem_rankingDepths_iff, Option.mem_def]
  constructor
  · rintro h d ⟨p, hp, ⟨k, hk⟩, rfl⟩
    exact h p hp k hk
  · intro h p hp k hk
    exact h _ ⟨p, hp, ⟨k, hk⟩, rfl⟩

/-- What is gathered. The requirements gathered from a tree are its summary. -/
theorem eq_summary_of_ofTree : r = summary tree := by
  have tickers := tickers_of_ofTree h
  have tradeable := tradeable_of_ofTree h
  have lookback := lookback_of_ofTree h
  have indicators := indicators_of_ofTree h
  have statistics := firsts_of_ofTree h
  have indicatorWindow := indicatorWindow_of_ofTree h
  have statisticWindow := statisticWindow_of_ofTree h
  have nesting := nesting_of_ofTree h
  cases r
  simp only [summary, mk.injEq]
  exact ⟨tickers, tradeable, lookback, indicators, statistics, indicatorWindow, statisticWindow,
    nesting⟩

end Parts

/-- **Main theorem: a tree requires its summary.** A tree is refused exactly if one of its nodes is
at fault, and then with the first fault: that of a weight, of a count, of a window or of the windows
of conditions from left to right, of a node before those of the nodes below it. Any other tree
requires its summary. -/
theorem ofTree_eq_summary (tree : Node α) :
    (ofTree tree = match tree.faults.head? with
      | some fault => .error fault
      | none => .ok (summary tree)) ∧
    ((∃ fault, tree.faults.head? = some fault) ↔ ∃ n ∈ tree.nodes, n.Faulty) := by
  refine ⟨?_, ?_⟩
  · have reports := reports_ofTree tree
    cases hf : tree.faults with
    | cons fault rest =>
      rw [hf] at reports
      exact reports
    | nil =>
      rw [hf] at reports
      obtain ⟨r, hr⟩ := reports
      rw [hr, eq_summary_of_ofTree hr]
      rfl
  · rw [← faults_ne_nil_iff, ← Option.isSome_iff_exists, List.isSome_head?]

end Requirements

end StrategyTree
