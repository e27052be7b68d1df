import StrategyTree.Proofs.Simulation.BuildOrder

/-!
# What is there before a level is built

The run of a ranked node may read the statistics of all nodes below. They are nested more deeply, so
they have been built with the levels before, and by the start of the run they have started.

* `StatisticTable.Complete`: all statistics nested more deeply than a depth are there.
* `StatisticTable.start_le_of_ranked`: what a node ranks has started when its run does.
* `StatisticTable.complete_of_levels`, `StatisticTable.complete_of_load`: before a level is built,
  and once all are.
-/

namespace StrategyTree

namespace StatisticTable

variable {α : Type} {tree : Node α} {r : Requirements}

/-! ## What a run may read -/

/-- All statistics nested more deeply than a depth are there. -/
def Complete (r : Requirements) (depth : Nat) (t : StatisticTable α) : Prop :=
  ∀ s ∈ r.statistics, depth < s.depth → ∃ series, t.series.get? s.node = some series

/-- Whatever a node ranks is nested more deeply than the node. -/
theorem Complete.exists_of_ranked (hr : Requirements.ofTree tree = .ok r) (hd : tree.DistinctIds)
    {depth : Nat} {m : Node α} {t : StatisticTable α} (ht : t.Complete r depth)
    (hm : (depth, m) ∈ tree.walk 0) {id : String} (hid : id ∈ m.ranked) :
    ∃ series, t.series.get? id = some series := by
  rw [← Node.map_node_statistics depth] at hid
  obtain ⟨s, hs, rfl⟩ := List.mem_map.1 hid
  have hs' := Node.statistics_subset hm hs
  rw [← Requirements.statistics_of_ofTree hr hd] at hs'
  exact ht s hs' (Node.lt_depth_of_mem_statistics hs)

/-- By the start of the run of a node, whatever the node ranks has started. -/
theorem start_le_of_ranked (hd : tree.DistinctIds) {m : Node α} (hm : m ∈ tree.nodes)
    {t : StatisticTable α} {index : Nat} (hnested : t.nestedStart m ≤ index) {id : String}
    (hid : id ∈ m.ranked) {s : Series α} (hs : t.series.get? id = some s) : s.start ≤ index := by
  have hbelow := Node.ranked_subset_idsBelow m hid
  apply nestedStart_le_iff.1 hnested id s hs
  · rintro rfl
    exact (hd.of_mem hm).id_not_mem_idsBelow (Node.self_mem_nodes m) hbelow
  · exact Node.ranked_subset_ids m hid

/-! ## What a level adds -/

variable [Scalar α] {table : PriceTable α} {indicators : IndicatorTable α} {settings : Settings α}
  {capital : α}

/-- A batch leaves what is there in place and adds its own statistics. -/
theorem exists_of_addBatch {t t' : StatisticTable α} {batch : List NodeStatistic}
    (h : addBatch tree table indicators settings capital t batch = .ok t')
    (hn : (batch.map NodeStatistic.node).Nodup) {id : String}
    (hid : id ∈ batch.map NodeStatistic.node ∨ ∃ series, t.series.get? id = some series) :
    ∃ series, t'.series.get? id = some series := by
  obtain ⟨kept, added⟩ := get?_of_addBatch h
  by_cases hb : id ∈ batch.map NodeStatistic.node
  · obtain ⟨s, hs, rfl⟩ := List.mem_map.1 hb
    obtain ⟨series, hseries, -⟩ := added hn s hs
    exact ⟨series, hseries⟩
  · rw [kept id hb]
    exact hid.resolve_left hb

section Levels

variable (hr : Requirements.ofTree tree = .ok r)

include hr

omit [Scalar α] in
theorem nodup_level (depth : Nat) : ((level r depth).map NodeStatistic.node).Nodup :=
  (Requirements.nodup_statistics_of_ofTree hr).sublist (List.filter_sublist.map _)

/-- Levels leave what is there in place and add their own statistics. -/
theorem exists_of_levels {ds : List Nat} :
    ∀ {t C : StatisticTable α},
      (ds.map (level r)).foldlM (addBatch tree table indicators settings capital) t = .ok C →
        ∀ s ∈ r.statistics, (s.depth ∈ ds ∨ ∃ series, t.series.get? s.node = some series) →
          ∃ series, C.series.get? s.node = some series := by
  induction ds with
  | nil =>
    intro t C h s _ hs
    cases h
    exact hs.resolve_left List.not_mem_nil
  | cons d ds ih =>
    intro t C h s hmem hs
    rw [List.map_cons, List.foldlM_cons] at h
    obtain ⟨t₁, h₁, h⟩ := Except.bind_eq_ok.1 h
    apply ih h s hmem
    rw [List.mem_cons, or_assoc, or_left_comm] at hs
    refine hs.imp id fun hs => exists_of_addBatch h₁ (nodup_level hr d) ?_
    exact hs.imp (fun hdepth => List.mem_map_of_mem (mem_level.2 ⟨hmem, hdepth⟩)) id

/-- Before a level is built, all statistics nested more deeply are there. -/
theorem complete_of_levels {deeper rest : List Nat} {depth : Nat}
    (hsplit : depths r.nesting = deeper ++ depth :: rest) {t : StatisticTable α}
    (h : (deeper.map (level r)).foldlM (addBatch tree table indicators settings capital) empty =
      .ok t) : t.Complete r depth := by
  intro s hs hlt
  apply exists_of_levels hr h s hs
  left
  have hmem := depth_mem_depths hr hs
  have falling := pairwise_depths r.nesting
  rw [hsplit] at hmem falling
  rcases List.mem_append.1 hmem with hmem | hmem
  · exact hmem
  · -- from this level on, the depths fall
    have later := (List.pairwise_cons.1 (List.pairwise_append.1 falling).2.1).1
    rcases List.mem_cons.1 hmem with hmem | hmem
    · omega
    · have := later s.depth hmem
      omega

/-- A loaded table has all statistics. -/
theorem complete_of_load {C : StatisticTable α}
    (h : load tree r table indicators settings capital = .ok C) : C.Complete r 0 := by
  intro s hs _
  exact exists_of_levels hr (foldlM_of_load h) s hs (.inl (depth_mem_depths hr hs))

end Levels

end StatisticTable

end StrategyTree
