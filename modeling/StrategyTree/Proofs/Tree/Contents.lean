import Mathlib.Data.List.Perm.Subperm
import StrategyTree.Proofs.Lookup
import StrategyTree.Proofs.Tree.Walk
import StrategyTree.Requirements

/-!
# What a tree holds, reads and ranks

Each node has contents of its own: the ticker it holds, the indicators its conditions read, the
children it ranks. The contents of a tree are those of its nodes in the order of the walk.

* `Node.mem_held_iff_tickers`: the tickers held in a tree, as a list and as a set.
* `Node.statistics`: the statistics by which a tree ranks, with their depths.
* `Node.ranked_subperm_idsBelow`: how often a node is ranked.
* `Node.DistinctIds.lt_depth_of_below`: in a tree with distinct ids, what is ranked strictly below
  a ranked node is ranked at a greater depth.
-/

namespace StrategyTree

namespace Node

variable {α β : Type}

/-! ## Collecting over the nodes of a tree -/

/-- What the nodes of a tree have of their own, in the order of the walk. -/
def collect (own : Node α → List β) (n : Node α) : List β := n.nodes.flatMap own

theorem collect_eq (own : Node α → List β) (n : Node α) :
    n.collect own = own n ++ n.children.flatMap (collect own) := by
  rw [collect, nodes_eq, List.flatMap_cons, List.flatMap_assoc]
  rfl

theorem own_subset_collect (own : Node α → List β) (n : Node α) : own n ⊆ n.collect own := by
  rw [collect_eq]
  exact List.subset_append_left _ _

theorem collect_subset {own : Node α → List β} {m n : Node α} (h : m ∈ n.nodes) :
    m.collect own ⊆ n.collect own := by
  intro b hb
  obtain ⟨o, ho, hb⟩ := List.mem_flatMap.1 hb
  exact List.mem_flatMap.2 ⟨o, nodes_subset h ho, hb⟩

/-- What the nodes of a walk have of their own does not depend on the depth of the walk. -/
theorem flatMap_walk (own : Node α → List β) (depth : Nat) (n : Node α) :
    ((n.walk depth).flatMap fun p => own p.2) = n.collect own := by
  rw [collect, ← map_snd_walk n depth, List.flatMap_map]

/-- The ticker a node holds, if it holds one. -/
def ownTickers : Node α → List String
  | asset _ _ ticker => [ticker]
  | unknown .. | choice .. | split .. => []

/-- The indicators a node's conditions read, in order. -/
def ownReadings : Node α → List Indicator.Key
  | choice _ _ conditions _ _ => conditions.items.flatMap Condition.keys
  | asset .. | unknown .. | split .. => []

/-- The ids of the children a node ranks. -/
def ownRanked (n : Node α) : List String :=
  match n.ranking? with
  | some _ => n.children.map id
  | none => []

/-- The tickers held in a tree. -/
def held (n : Node α) : List String := n.collect ownTickers

/-- The indicators the conditions of a tree read. -/
def readings (n : Node α) : List Indicator.Key := n.collect ownReadings

/-- The ids of the nodes that some node of a tree ranks. -/
def ranked (n : Node α) : List String := n.collect ownRanked

theorem held_eq (n : Node α) : n.held = n.ownTickers ++ n.children.flatMap held := collect_eq _ n

theorem ranked_eq (n : Node α) : n.ranked = n.ownRanked ++ n.children.flatMap ranked :=
  collect_eq _ n

/-! ## Held tickers as a set -/

theorem contains_addTickers {x : String} {n : Node α} :
    ∀ {s : SortedSet String},
      (addTickers s n).contains x = true ↔ x ∈ n.held ∨ s.contains x = true := by
  have hlist : ∀ {cs : List (Node α)},
      (∀ c ∈ cs, ∀ {s : SortedSet String},
        (addTickers s c).contains x = true ↔ x ∈ c.held ∨ s.contains x = true) →
      ∀ {s : SortedSet String},
        (addTickersOf s cs).contains x = true ↔ x ∈ cs.flatMap held ∨ s.contains x = true := by
    intro cs
    induction cs with
    | nil => intro _ s; simp [addTickersOf]
    | cons c cs ih =>
      intro h s
      rw [addTickersOf, ih fun c hc => h c (List.mem_cons_of_mem _ hc), h c (by simp),
        List.flatMap_cons, List.mem_append]
      tauto
  induction n using induction with
  | asset id weight ticker =>
    intro s
    rw [addTickers, SortedSet.contains_add, held_eq, ownTickers, children, List.flatMap_nil,
      List.append_nil, List.mem_singleton, eq_comm]
  | unknown id weight =>
    intro s
    rw [addTickers, held_eq, ownTickers, children, List.flatMap_nil, List.append_nil]
    exact (or_iff_right List.not_mem_nil).symm
  | choice id weight conditions yes no hy hn =>
    intro s
    rw [addTickers, hn, hy, held_eq (choice id weight conditions yes no), ownTickers, children,
      List.nil_append, List.flatMap_cons, List.flatMap_cons, List.flatMap_nil, List.append_nil,
      List.mem_append, or_left_comm, or_assoc]
  | split id weight rule cs ih =>
    intro s
    rw [addTickers, hlist ih, held_eq (split id weight rule cs), ownTickers, children,
      List.nil_append]

theorem mem_held_iff_tickers {x : String} {n : Node α} :
    n.tickers.contains x = true ↔ x ∈ n.held := by
  rw [tickers, contains_addTickers]
  exact or_iff_left (by simp [SortedSet.contains_empty])

/-! ## Ranked nodes with their depths -/

/-- The statistics by which a node at a depth ranks its children. -/
def ownStatistics (depth : Nat) (n : Node α) : List NodeStatistic :=
  match n.ranking? with
  | some ranking => n.children.map fun c => ⟨c.id, ranking, depth + 1⟩
  | none => []

/-- The statistics by which the nodes of a tree at a depth rank their children. -/
def statistics (depth : Nat) (n : Node α) : List NodeStatistic :=
  (n.walk depth).flatMap fun p => ownStatistics p.1 p.2

theorem map_node_ownStatistics (depth : Nat) (n : Node α) :
    (n.ownStatistics depth).map NodeStatistic.node = n.ownRanked := by
  unfold ownStatistics ownRanked
  cases n.ranking? with
  | none => rfl
  | some ranking =>
    rw [List.map_map]
    rfl

theorem map_node_statistics (depth : Nat) (n : Node α) :
    (n.statistics depth).map NodeStatistic.node = n.ranked := by
  rw [statistics, List.map_flatMap, ranked, ← flatMap_walk ownRanked depth]
  exact List.flatMap_congr fun p _ => map_node_ownStatistics p.1 p.2

/-- A statistic belongs to a child of a node that ranks, one level below it. -/
theorem mem_statistics {depth : Nat} {n : Node α} {s : NodeStatistic} :
    s ∈ n.statistics depth ↔ ∃ d o c, (d, o) ∈ n.walk depth ∧ o.ranking? = some s.ranking ∧
      c ∈ o.children ∧ c.id = s.node ∧ s.depth = d + 1 := by
  rw [statistics, List.mem_flatMap]
  constructor
  · rintro ⟨⟨d, o⟩, ho, hs⟩
    rw [ownStatistics] at hs
    split at hs
    · rename_i ranking hr
      obtain ⟨c, hc, rfl⟩ := List.mem_map.1 hs
      exact ⟨d, o, c, ho, hr, hc, rfl, rfl⟩
    · cases hs
  · rintro ⟨d, o, c, ho, hr, hc, hid, hd⟩
    refine ⟨(d, o), ho, ?_⟩
    rw [ownStatistics, hr]
    refine List.mem_map.2 ⟨c, hc, ?_⟩
    rw [hid, ← hd]

theorem lt_depth_of_mem_statistics {depth : Nat} {n : Node α} {s : NodeStatistic}
    (h : s ∈ n.statistics depth) : depth < s.depth := by
  obtain ⟨d, o, c, ho, -, -, -, hd⟩ := mem_statistics.1 h
  have := depth_le_of_mem_walk ho
  omega

/-- The node that a statistic belongs to stands in the walk at the depth of the statistic. -/
theorem exists_mem_walk_of_statistics {depth : Nat} {n : Node α} {s : NodeStatistic}
    (h : s ∈ n.statistics depth) : ∃ m, (s.depth, m) ∈ n.walk depth ∧ m.id = s.node := by
  obtain ⟨d, o, c, ho, hr, hc, hid, hd⟩ := mem_statistics.1 h
  refine ⟨c, ?_, hid⟩
  rw [hd, ← childDepth_of_ranking hr]
  exact child_mem_walk ho hc

theorem statistics_subset {m n : Node α} {depth d : Nat} (h : (d, m) ∈ n.walk depth) :
    m.statistics d ⊆ n.statistics depth := by
  intro s hs
  obtain ⟨e, o, c, ho, hrest⟩ := mem_statistics.1 hs
  exact mem_statistics.2 ⟨e, o, c, walk_subset h ho, hrest⟩

/-- A node is ranked no more often than its id occurs below the root. -/
theorem ranked_subperm_idsBelow (n : Node α) : n.ranked.Subperm n.idsBelow := by
  induction n using induction_on_children with
  | h n ih =>
    -- among children, each is ranked once itself, and what is below it as often as it occurs there
    have among : ∀ cs : List (Node α), (∀ c ∈ cs, c.ranked.Subperm c.idsBelow) →
        (cs.map id ++ cs.flatMap ranked).Subperm (cs.flatMap ids) := by
      intro cs hcs
      induction cs with
      | nil => exact List.Subperm.refl []
      | cons c cs ihcs =>
        rw [List.forall_mem_cons] at hcs
        have apart : ((c :: cs).map id ++ (c :: cs).flatMap ranked).Perm
            ((c.id :: c.ranked) ++ (cs.map id ++ cs.flatMap ranked)) := by
          rw [List.map_cons, List.flatMap_cons, List.cons_append, List.cons_append,
            List.perm_cons, ← List.append_assoc, ← List.append_assoc]
          exact List.perm_append_comm.append_right _
        have first : (c.id :: c.ranked).Subperm c.ids := by
          rw [ids_eq, List.subperm_cons]
          exact hcs.1
        rw [apart.subperm_right, List.flatMap_cons]
        exact first.append (ihcs hcs.2)
    rw [ranked_eq]
    refine List.Subperm.trans ?_ (among n.children ih)
    rw [List.subperm_append_right]
    unfold ownRanked
    split
    · exact List.Subperm.refl _
    · exact List.nil_subperm

/-- A ranked node stands below the root. -/
theorem ranked_subset_idsBelow (n : Node α) : n.ranked ⊆ n.idsBelow :=
  n.ranked_subperm_idsBelow.subset

theorem ranked_subset_ids (n : Node α) : n.ranked ⊆ n.ids :=
  fun _ hk => mem_ids_iff.2 (.inr (ranked_subset_idsBelow n hk))

/-! ## Ids that occur once -/

/-- Members of a list with a value that occurs once are one member. -/
theorem eq_of_count_map_eq_one {β : Type} {f : β → String} {xs : List β} {key : String}
    (h : (xs.map f).count key = 1) {x y : β} (hx : x ∈ xs) (hy : y ∈ xs) (ex : f x = key)
    (ey : f y = key) : x = y := by
  rw [List.count, List.countP_map, List.countP_eq_length_filter, List.length_eq_one_iff] at h
  obtain ⟨z, hz⟩ := h
  have only : ∀ w ∈ xs, f w = key → w = z := by
    intro w hw ew
    rw [← List.mem_singleton, ← hz, List.mem_filter]
    exact ⟨hw, beq_iff_eq.2 ew⟩
  rw [only x hx ex, only y hy ey]

/-- A node whose id occurs once is the one found by it. -/
theorem find_of_count_eq_one {c n : Node α} (hc : c ∈ n.nodes) (h : n.ids.count c.id = 1) :
    n.find c.id = some c := by
  obtain ⟨m, hm⟩ := Option.isSome_iff_exists.1 (find_isSome_iff.2 (id_mem_ids hc))
  rw [hm, eq_of_count_map_eq_one h (mem_nodes_of_find hm) hc (find_eq_some hm) rfl]

/-- A node whose id occurs once is ranked once. -/
theorem statistics_unique {n : Node α} {depth : Nat} {s s' : NodeStatistic}
    (hs : s ∈ n.statistics depth) (hs' : s' ∈ n.statistics depth) (e : s'.node = s.node)
    (h : n.ids.count s.node = 1) : s' = s := by
  have once : ((n.statistics depth).map NodeStatistic.node).count s.node = 1 := by
    apply Nat.le_antisymm
    · rw [map_node_statistics, ← h, ids_eq]
      exact (n.ranked_subperm_idsBelow.cons_right n.id).count_le s.node
    · exact List.count_pos_iff.2 (List.mem_map_of_mem hs)
  exact eq_of_count_map_eq_one once hs' hs e rfl

namespace DistinctIds

variable {n : Node α}

/-- The ranked nodes of a tree are ranked once. -/
theorem nodup_ranked (hn : n.DistinctIds) : n.ranked.Nodup := by
  rw [DistinctIds, ids_eq, List.nodup_cons] at hn
  obtain ⟨keys, same, within⟩ := n.ranked_subperm_idsBelow
  exact same.nodup_iff.1 (hn.2.sublist within)

/-- What is ranked in the whole tree, strictly below a node, is ranked in that node's own tree. -/
theorem mem_statistics_of_below (hn : n.DistinctIds) {depth d : Nat} {m : Node α}
    {s : NodeStatistic} (hm : (d, m) ∈ n.walk depth) (hs : s ∈ n.statistics depth)
    (h : s.node ∈ m.idsBelow) : s ∈ m.statistics d := by
  obtain ⟨e, o, c, ho, hr, hc, hid, hd⟩ := mem_statistics.1 hs
  exact mem_statistics.2 ⟨e, o, c, hn.parent_mem_walk hm ho hc (hid ▸ h), hr, hc, hid, hd⟩

theorem lt_depth_of_below (hn : n.DistinctIds) {depth d : Nat} {m : Node α}
    {s : NodeStatistic} (hm : (d, m) ∈ n.walk depth) (hs : s ∈ n.statistics depth)
    (h : s.node ∈ m.idsBelow) : d < s.depth :=
  lt_depth_of_mem_statistics (hn.mem_statistics_of_below hm hs h)

end DistinctIds

end Node

end StrategyTree
