import Mathlib.Data.List.Perm.Basic
import StrategyTree.Proofs.Requirements.Gathered
import StrategyTree.Proofs.Simulation.Run

/-!
# The order in which statistics are built

`StatisticTable.load` builds the statistics level by level, and the run of a ranked node reads a
table that is only partly filled. It reads nothing but the statistics of nodes strictly below, and
with distinct ids these are complete by then. So the run would be the same against the complete
table, and any order that builds nested statistics first ends with that table.

* `StatisticTable.ofNode_congr`: a statistic depends on the entries strictly below its node.
* `StatisticTable.NestedFirst`: an order of batches that builds nested statistics first.
* `StatisticTable.load_fixed_point`: a loaded table is a fixed point, and every order that builds
  nested statistics first ends with it.
-/

namespace StrategyTree

namespace StatisticTable

variable {α : Type} [Scalar α]

/-! ## What a statistic depends on -/

section Reads

variable {t t' : StatisticTable α} {tree : Node α}

omit [Scalar α] in
theorem value_congr {id : String} (h : t.series.get? id = t'.series.get? id) (index : Nat) :
    t.value id index = t'.value id index := by
  unfold value
  rw [h]

omit [Scalar α] in
theorem nestedStart_congr (h : ∀ id ∈ tree.idsBelow, t.series.get? id = t'.series.get? id) :
    t.nestedStart tree = t'.nestedStart tree := by
  apply eq_of_le_iff
  intro m
  rw [nestedStart_le_iff, nestedStart_le_iff]
  have below : ∀ id, id ≠ tree.id → id ∈ tree.ids → t.series.get? id = t'.series.get? id :=
    fun id hne hid => h id ((Node.mem_ids_iff.1 hid).resolve_left hne)
  constructor
  · intro ht id s hs hne hid
    exact ht id s (below id hne hid ▸ hs) hne hid
  · intro ht id s hs hne hid
    exact ht id s (below id hne hid ▸ hs) hne hid

/-- Reads of a sub-run. The statistic of a node depends on the table's entries for ids strictly
below that node only. -/
theorem ofNode_congr (h : ∀ id ∈ tree.idsBelow, t.series.get? id = t'.series.get? id)
    (table : PriceTable α) (indicators : IndicatorTable α) (settings : Settings α) (capital : α)
    (s : NodeStatistic) :
    t.ofNode table indicators settings capital tree s =
      t'.ofNode table indicators settings capital tree s := by
  have start : t.simulationStart table indicators tree =
      t'.simulationStart table indicators tree := by
    unfold simulationStart
    rw [nestedStart_congr h]
  have balances : ∀ start, t.balancesFrom table indicators settings capital tree start =
      t'.balancesFrom table indicators settings capital tree start := by
    intro start
    have run : Agreement.same.holds
        (simulate ⟨tree.tickers, indicators, t, settings⟩ table tree (fun _ => false)
          (table.daysFrom start) (Portfolio.ofCash capital))
        (simulate ⟨tree.tickers, indicators, t', settings⟩ table tree (fun _ => false)
          (table.daysFrom start) (Portfolio.ofCash capital)) := by
      apply simulate_agrees Agreement.same fun _ => rfl
      · intro i _
        apply Evaluator.evaluate_agrees Agreement.same
        case ht => rfl
        case hf => rfl
        case hr =>
          intro key _
          rfl
        case hs =>
          intro id hid
          exact value_congr (h id (Node.ranked_subset_idsBelow tree hid)) i
      · intro i _ x
        rfl
    exact congrArg (fun run => run >>= fun r => .ok (r.1.map Day.balance)) run
  unfold ofNode
  rw [start]
  dsimp only
  rw [balances]

end Reads

/-! ## Orders -/

/-- A statistic belongs to a node strictly below that of another one. -/
def NestedIn (tree : Node α) (inner outer : NodeStatistic) : Prop :=
  ∃ node, tree.find outer.node = some node ∧ inner.node ∈ node.idsBelow

/-- Batches of statistics each of which comes after the batches of the statistics nested in its
own. -/
structure NestedFirst (tree : Node α) (batches : List (List NodeStatistic)) : Prop where
  within : ∀ batch ∈ batches, ∀ outer ∈ batch, ∀ inner ∈ batch, ¬ NestedIn tree inner outer
  across : batches.Pairwise fun earlier later =>
    ∀ outer ∈ earlier, ∀ inner ∈ later, ¬ NestedIn tree inner outer

omit [Scalar α] in
theorem NestedFirst.tail {tree : Node α} {batch : List NodeStatistic}
    {batches : List (List NodeStatistic)} (h : NestedFirst tree (batch :: batches)) :
    NestedFirst tree batches where
  within b hb := h.within b (List.mem_cons_of_mem _ hb)
  across := (List.pairwise_cons.1 h.across).2

omit [Scalar α] in
/-- Nothing strictly below a node of the first batch is still to be built. -/
theorem NestedFirst.not_mem_of_below {tree : Node α} {batch : List NodeStatistic}
    {batches : List (List NodeStatistic)} (h : NestedFirst tree (batch :: batches))
    {s : NodeStatistic} (hs : s ∈ batch) {node : Node α} (hnode : tree.find s.node = some node)
    {id : String} (hid : id ∈ node.idsBelow) :
    id ∉ (batch :: batches).flatten.map NodeStatistic.node := by
  intro hmem
  obtain ⟨inner, hinner, rfl⟩ := List.mem_map.1 hmem
  rw [List.flatten_cons, List.mem_append, List.mem_flatten] at hinner
  rcases hinner with hinner | ⟨later, hlater, hinner⟩
  · exact h.within batch (by simp) s hs inner hinner ⟨node, hnode, hid⟩
  · exact (List.pairwise_cons.1 h.across).1 later hlater s hs inner hinner ⟨node, hnode, hid⟩

/-! ## Building by batches -/

section Build

variable {tree : Node α} {table : PriceTable α} {indicators : IndicatorTable α}
  {settings : Settings α} {capital : α}

/-- A batch succeeds if each of its statistics does. -/
theorem addBatch_succeeds {t : StatisticTable α} {batch : List NodeStatistic}
    (h : ∀ s ∈ batch, ∃ series, t.ofTree tree table indicators settings capital s = .ok series) :
    ∃ t', addBatch tree table indicators settings capital t batch = .ok t' := by
  have all : ∀ s ∈ batch, ∃ entry : String × Series α,
      (t.ofTree tree table indicators settings capital s >>= fun series =>
        .ok (s.node, series)) = .ok entry := by
    intro s hs
    obtain ⟨series, hseries⟩ := h s hs
    exact ⟨(s.node, series), by rw [hseries]; rfl⟩
  obtain ⟨added, hadded⟩ := Outcome.mapM_succeeds all
  exact ⟨⟨t.series.insertAll added⟩, Except.bind_eq_ok.2 ⟨added, hadded, rfl⟩⟩

/-- A batch puts in, for each of its statistics, the one computed against the table before, and
leaves the other entries alone. -/
theorem get?_of_addBatch {t t' : StatisticTable α} {batch : List NodeStatistic}
    (h : addBatch tree table indicators settings capital t batch = .ok t') :
    (∀ id, id ∉ batch.map NodeStatistic.node → t'.series.get? id = t.series.get? id) ∧
      ((batch.map NodeStatistic.node).Nodup → ∀ s ∈ batch, ∃ series,
        t'.series.get? s.node = some series ∧
        t.ofTree tree table indicators settings capital s = .ok series) := by
  obtain ⟨added, hadded, h⟩ := Except.bind_eq_ok.1 h
  cases h
  have keys : added.map Prod.fst = batch.map NodeStatistic.node := by
    apply Outcome.map_eq_map_of_mapM _ hadded
    intro s entry hentry
    obtain ⟨series, -, hentry⟩ := Except.bind_eq_ok.1 hentry
    cases hentry
    rfl
  constructor
  · intro id hid
    rw [← keys] at hid
    exact SortedMap.get?_insertAll_of_not_mem hid
  · intro hn s hs
    obtain ⟨entry, hmem, hentry⟩ := Outcome.exists_of_mapM hadded hs
    obtain ⟨series, hseries, hentry⟩ := Except.bind_eq_ok.1 hentry
    cases hentry
    rw [← keys] at hn
    exact ⟨series, SortedMap.get?_insertAll_of_mem hn hmem, hseries⟩

/-- Building leaves the entries of all other ids alone. -/
theorem get?_of_foldlM {batches : List (List NodeStatistic)} {id : String}
    (hid : id ∉ batches.flatten.map NodeStatistic.node) :
    ∀ {t C : StatisticTable α},
      batches.foldlM (addBatch tree table indicators settings capital) t = .ok C →
        C.series.get? id = t.series.get? id := by
  induction batches with
  | nil =>
    intro t C h
    cases h
    rfl
  | cons batch batches ih =>
    intro t C h
    rw [List.flatten_cons, List.map_append, List.mem_append, not_or] at hid
    rw [List.foldlM_cons] at h
    obtain ⟨t₁, h₁, h⟩ := Except.bind_eq_ok.1 h
    rw [ih hid.2 h]
    exact (get?_of_addBatch h₁).1 id hid.1

/-- The place of a statistic in a build. It is computed against what the batches before its own
have built, and stays. -/
theorem exists_of_foldlM {before after : List (List NodeStatistic)} {batch : List NodeStatistic}
    {t C : StatisticTable α}
    (hn : ((before ++ batch :: after).flatten.map NodeStatistic.node).Nodup)
    (h : (before ++ batch :: after).foldlM (addBatch tree table indicators settings capital) t =
      .ok C) {s : NodeStatistic} (hs : s ∈ batch) :
    ∃ t₁ series, before.foldlM (addBatch tree table indicators settings capital) t = .ok t₁ ∧
      t₁.ofTree tree table indicators settings capital s = .ok series ∧
      C.series.get? s.node = some series := by
  rw [List.flatten_append, List.map_append, List.nodup_append', List.flatten_cons, List.map_append,
    List.nodup_append'] at hn
  obtain ⟨-, ⟨distinct, -, apart⟩, -⟩ := hn
  rw [List.foldlM_append] at h
  obtain ⟨t₁, h₁, h⟩ := Except.bind_eq_ok.1 h
  rw [List.foldlM_cons] at h
  obtain ⟨t₂, h₂, h⟩ := Except.bind_eq_ok.1 h
  obtain ⟨series, hget, hof⟩ := (get?_of_addBatch h₂).2 distinct s hs
  refine ⟨t₁, series, h₁, hof, ?_⟩
  rw [get?_of_foldlM (apart (List.mem_map_of_mem hs)) h]
  exact hget

/-- The statistic of a node against a whole table is the one that stands in it. -/
def Settled (tree : Node α) (table : PriceTable α) (indicators : IndicatorTable α)
    (settings : Settings α) (capital : α) (C : StatisticTable α) (s : NodeStatistic) : Prop :=
  ∃ node series, tree.find s.node = some node ∧ C.series.get? s.node = some series ∧
    C.ofNode table indicators settings capital node s = .ok series

theorem ofTree_eq_ok {t : StatisticTable α} {s : NodeStatistic} {series : Series α} :
    t.ofTree tree table indicators settings capital s = .ok series ↔
      ∃ node, tree.find s.node = some node ∧
        t.ofNode table indicators settings capital node s = .ok series := by
  unfold ofTree
  split
  · rename_i hfind
    simp [hfind]
  · rename_i node hfind
    simp [hfind]

/-- A build is a fixed point. What is built nested first is settled in the end. -/
theorem settled_of_foldlM {batches : List (List NodeStatistic)} :
    ∀ {t C : StatisticTable α}, NestedFirst tree batches →
      (batches.flatten.map NodeStatistic.node).Nodup →
      batches.foldlM (addBatch tree table indicators settings capital) t = .ok C →
        ∀ s ∈ batches.flatten, Settled tree table indicators settings capital C s := by
  induction batches with
  | nil =>
    intro t C _ _ _ s hs
    cases hs
  | cons batch batches ih =>
    intro t C hf hn h s hs
    have whole := h
    rw [List.foldlM_cons] at h
    obtain ⟨t₁, h₁, h⟩ := Except.bind_eq_ok.1 h
    have hn' := hn
    rw [List.flatten_cons, List.map_append, List.nodup_append'] at hn'
    rw [List.flatten_cons, List.mem_append] at hs
    rcases hs with hs | hs
    · obtain ⟨series, hget, hof⟩ := (get?_of_addBatch h₁).2 hn'.1 s hs
      obtain ⟨node, hnode, hof⟩ := ofTree_eq_ok.1 hof
      refine ⟨node, series, hnode, ?_, ?_⟩
      · rw [get?_of_foldlM (hn'.2.2 (List.mem_map_of_mem hs)) h]
        exact hget
      · -- the entries strictly below the node are complete when its batch is built
        rw [← hof]
        apply ofNode_congr
        intro id hid
        exact get?_of_foldlM (hf.not_mem_of_below hs hnode hid) whole
    · exact ih hf.tail hn'.2.1 h s hs

/-- Order does not matter. A settled table is the result of every build that is nested first and
starts with the entries that are not to be built. -/
theorem foldlM_of_settled {C : StatisticTable α} {batches : List (List NodeStatistic)} :
    ∀ {t : StatisticTable α}, NestedFirst tree batches →
      (batches.flatten.map NodeStatistic.node).Nodup →
      (∀ s ∈ batches.flatten, Settled tree table indicators settings capital C s) →
      (∀ id, id ∉ batches.flatten.map NodeStatistic.node →
        t.series.get? id = C.series.get? id) →
        batches.foldlM (addBatch tree table indicators settings capital) t = .ok C := by
  induction batches with
  | nil =>
    intro t _ _ _ ht
    have : t.series = C.series := SortedMap.ext_get? fun id => ht id List.not_mem_nil
    cases t
    cases C
    cases this
    rfl
  | cons batch batches ih =>
    intro t hf hn hs ht
    have hn' := hn
    rw [List.flatten_cons, List.map_append, List.nodup_append'] at hn'
    -- every member of the batch computes against `t` what stands in `C`
    have computed : ∀ s ∈ batch, ∃ series, C.series.get? s.node = some series ∧
        t.ofTree tree table indicators settings capital s = .ok series := by
      intro s hsb
      obtain ⟨node, series, hnode, hget, hof⟩ := hs s (List.mem_append_left _ hsb)
      refine ⟨series, hget, ofTree_eq_ok.2 ⟨node, hnode, ?_⟩⟩
      rw [← hof]
      apply ofNode_congr
      intro id hid
      exact ht id (hf.not_mem_of_below hsb hnode hid)
    obtain ⟨t₁, h₁⟩ := addBatch_succeeds fun s hsb => (computed s hsb).imp fun _ h => h.2
    have hget := get?_of_addBatch h₁
    rw [List.foldlM_cons, h₁]
    apply ih hf.tail hn'.2.1 fun s hsb => hs s (List.mem_append_right _ hsb)
    intro id hid
    by_cases hb : id ∈ batch.map NodeStatistic.node
    · obtain ⟨s, hsb, rfl⟩ := List.mem_map.1 hb
      obtain ⟨series, hC, hof⟩ := computed s hsb
      obtain ⟨series', ht₁, hof'⟩ := hget.2 hn'.1 s hsb
      rw [hof] at hof'
      cases hof'
      rw [ht₁, hC]
    · rw [hget.1 id hb]
      apply ht
      rw [List.flatten_cons, List.map_append, List.mem_append, not_or]
      exact ⟨hb, hid⟩

end Build

/-! ## Building by levels -/

theorem mem_depths {n d : Nat} : d ∈ depths n ↔ 0 < d ∧ d ≤ n := by
  unfold depths
  simp only [List.mem_map, List.mem_reverse, List.mem_range]
  constructor
  · rintro ⟨m, hm, rfl⟩
    omega
  · intro hd
    exact ⟨d - 1, by omega, by omega⟩

/-- The depths fall from one level to the next. -/
theorem pairwise_depths (n : Nat) : (depths n).Pairwise fun d e => e < d := by
  unfold depths
  rw [List.pairwise_map, List.pairwise_reverse]
  apply List.pairwise_lt_range.imp
  intro d e h
  omega

theorem mem_level {r : Requirements} {d : Nat} {s : NodeStatistic} :
    s ∈ level r d ↔ s ∈ r.statistics ∧ s.depth = d := by
  unfold level
  rw [List.mem_filter, beq_iff_eq]

section Levels

variable {tree : Node α} {r : Requirements}

/-- Reordered levels, each of which holds statistics of one depth. -/
def Levels (r : Requirements) (batches : List (List NodeStatistic)) : Prop :=
  List.Forall₂ List.Perm batches ((depths r.nesting).map (level r))

variable (h : Requirements.ofTree tree = .ok r)

include h

omit [Scalar α] in
theorem depth_mem_depths {s : NodeStatistic} (hs : s ∈ r.statistics) :
    s.depth ∈ depths r.nesting := by
  obtain ⟨d, o, c, ho, hr, -, -, hdepth⟩ :=
    Node.mem_statistics.1 (Requirements.statistics_subset_of_ofTree h hs)
  have bound := (Requirements.ranking_bounds h ho hr).2.2
  rw [mem_depths]
  omega

omit [Scalar α] in
/-- Every statistic stands in one level. -/
theorem flatten_levels {batches : List (List NodeStatistic)} (hb : Levels r batches) :
    batches.flatten.Perm r.statistics := by
  have hn : r.statistics.Nodup := (Requirements.nodup_statistics_of_ofTree h).of_map
  apply (List.Perm.flatten_congr hb).trans
  rw [List.perm_ext_iff_of_nodup _ hn]
  · intro s
    simp only [List.mem_flatten, List.mem_map]
    constructor
    · rintro ⟨_, ⟨d, -, rfl⟩, hs⟩
      exact (mem_level.1 hs).1
    · intro hs
      exact ⟨_, ⟨s.depth, depth_mem_depths h hs, rfl⟩, mem_level.2 ⟨hs, rfl⟩⟩
  · rw [List.nodup_flatten, List.pairwise_map]
    refine ⟨fun l hl => ?_, (pairwise_depths r.nesting).imp fun {d e} hlt s hs hs' => ?_⟩
    · obtain ⟨d, -, rfl⟩ := List.mem_map.1 hl
      exact hn.filter _
    · have e₁ := (mem_level.1 hs).2
      have e₂ := (mem_level.1 hs').2
      omega

variable (hd : tree.DistinctIds)

include hd

omit [Scalar α] in
/-- What is nested in a statistic has a greater depth. -/
theorem lt_depth_of_nestedIn {inner outer : NodeStatistic} (hi : inner ∈ r.statistics)
    (ho : outer ∈ r.statistics) (hn : NestedIn tree inner outer) : outer.depth < inner.depth := by
  rw [Requirements.statistics_of_ofTree h hd] at hi ho
  obtain ⟨node, hnode, hbelow⟩ := hn
  obtain ⟨m, hm, hid⟩ := Node.exists_mem_walk_of_statistics ho
  have found := hd.find_of_mem (Node.mem_nodes_of_mem_walk hm)
  rw [hid, hnode] at found
  cases found
  exact hd.lt_depth_of_below hm hi hbelow

omit [Scalar α] in
/-- Levels are nested first. The levels from the deepest one up, with the members of each in
any order, build nested statistics first. -/
theorem nestedFirst_of_levels {batches : List (List NodeStatistic)} (hb : Levels r batches) :
    NestedFirst tree batches := by
  replace hb : List.Forall₂ (fun batch d => ∀ s ∈ batch, s ∈ r.statistics ∧ s.depth = d) batches
      (depths r.nesting) := by
    apply (List.forall₂_map_right_iff.1 hb).imp
    intro batch d hp s hs
    exact mem_level.1 (hp.mem_iff.1 hs)
  have hdepths := pairwise_depths r.nesting
  generalize depths r.nesting = ds at hb hdepths
  induction hb with
  | nil => exact ⟨fun _ hb => absurd hb List.not_mem_nil, List.Pairwise.nil⟩
  | @cons batch d batches ds hbatch hrest ih =>
    rw [List.pairwise_cons] at hdepths
    have tail := ih hdepths.2
    constructor
    · intro b hb outer ho inner hi hn
      rcases List.mem_cons.1 hb with rfl | hb
      · have lt := lt_depth_of_nestedIn h hd (hbatch inner hi).1 (hbatch outer ho).1 hn
        have e₁ := (hbatch inner hi).2
        have e₂ := (hbatch outer ho).2
        omega
      · exact tail.within b hb outer ho inner hi hn
    · rw [List.pairwise_cons]
      refine ⟨fun later hlater outer ho inner hi hn => ?_, tail.across⟩
      obtain ⟨e, he, hlater⟩ := Outcome.exists_of_forall₂ hrest hlater
      have lt := lt_depth_of_nestedIn h hd (hlater inner hi).1 (hbatch outer ho).1 hn
      have e₁ := (hlater inner hi).2
      have e₂ := (hbatch outer ho).2
      have e₃ := hdepths.1 e he
      omega

end Levels

/-- A loaded table has been built level by level. -/
theorem foldlM_of_load {tree : Node α} {r : Requirements} {table : PriceTable α}
    {indicators : IndicatorTable α} {settings : Settings α} {capital : α} {C : StatisticTable α}
    (hC : load tree r table indicators settings capital = .ok C) :
    ((depths r.nesting).map (level r)).foldlM
      (addBatch tree table indicators settings capital) empty = .ok C := by
  unfold load at hC
  split at hC
  · cases hC
  · exact hC

/-- A loaded table is settled. -/
theorem settled_of_load {tree : Node α} {r : Requirements} (h : Requirements.ofTree tree = .ok r)
    (hd : tree.DistinctIds) {table : PriceTable α} {indicators : IndicatorTable α}
    {settings : Settings α} {capital : α} {C : StatisticTable α}
    (hC : load tree r table indicators settings capital = .ok C) :
    ∀ s ∈ r.statistics, Settled tree table indicators settings capital C s := by
  have hlevels : Levels r ((depths r.nesting).map (level r)) :=
    List.forall₂_same.2 fun _ _ => List.Perm.refl _
  have hperm := flatten_levels h hlevels
  have hn := (hperm.map NodeStatistic.node).nodup_iff.2 (Requirements.nodup_statistics_of_ofTree h)
  intro s hs
  exact settled_of_foldlM (nestedFirst_of_levels h hd hlevels) hn (foldlM_of_load hC) s
    (hperm.mem_iff.2 hs)

/-- A loaded table has no other entries than the statistics of ranked nodes. -/
theorem absent_of_load {tree : Node α} {r : Requirements} (h : Requirements.ofTree tree = .ok r)
    {table : PriceTable α} {indicators : IndicatorTable α}
    {settings : Settings α} {capital : α} {C : StatisticTable α}
    (hC : load tree r table indicators settings capital = .ok C) {id : String}
    (hid : id ∉ r.statistics.map NodeStatistic.node) : C.series.get? id = none := by
  have hlevels : Levels r ((depths r.nesting).map (level r)) :=
    List.forall₂_same.2 fun _ _ => List.Perm.refl _
  have hnodes := (flatten_levels h hlevels).map NodeStatistic.node
  rw [get?_of_foldlM (fun hm => hid (hnodes.mem_iff.1 hm)) (foldlM_of_load hC)]
  rfl

/-- **Main theorem: a loaded table is a fixed point, whatever the order.** For an accepted tree with
distinct ids, a loaded table has exactly one series for each ranked node. Each of them is the series
computed against the whole table. Every order of batches that builds nested statistics first ends
with that table, and so does every reordering of the members of the levels. -/
theorem load_fixed_point {tree : Node α} {r : Requirements} (h : Requirements.ofTree tree = .ok r)
    (hd : tree.DistinctIds) {table : PriceTable α} {indicators : IndicatorTable α}
    {settings : Settings α} {capital : α} {C : StatisticTable α}
    (hC : load tree r table indicators settings capital = .ok C) :
    C.series.keys.Perm (r.statistics.map NodeStatistic.node) ∧
      (∀ s ∈ r.statistics, ∃ node series, tree.find s.node = some node ∧
        C.series.get? s.node = some series ∧
        C.ofNode table indicators settings capital node s = .ok series) ∧
      (∀ batches : List (List NodeStatistic), batches.flatten.Perm r.statistics →
        NestedFirst tree batches →
        batches.foldlM (addBatch tree table indicators settings capital) empty = .ok C) ∧
      ∀ batches : List (List NodeStatistic), Levels r batches →
        batches.foldlM (addBatch tree table indicators settings capital) empty = .ok C := by
  have hn := Requirements.nodup_statistics_of_ofTree h
  have settled := settled_of_load h hd hC
  have absent : ∀ id, id ∉ r.statistics.map NodeStatistic.node → C.series.get? id = none :=
    fun id => absent_of_load h hC
  have order : ∀ batches : List (List NodeStatistic), batches.flatten.Perm r.statistics →
      NestedFirst tree batches →
      batches.foldlM (addBatch tree table indicators settings capital) empty = .ok C := by
    intro batches hp hf
    have hp' := hp.map NodeStatistic.node
    apply foldlM_of_settled hf (hp'.nodup_iff.2 hn)
    · intro s hs
      exact settled s (hp.mem_iff.1 hs)
    · intro id hid
      rw [absent id fun hm => hid (hp'.mem_iff.2 hm)]
      rfl
  refine ⟨?_, settled, order, ?_⟩
  · rw [List.perm_ext_iff_of_nodup (SortedMap.nodup_keys _) hn]
    intro id
    constructor
    · intro hid
      by_contra hno
      exact SortedMap.get?_eq_none_iff.1 (absent id hno) hid
    · intro hid
      obtain ⟨s, hs, rfl⟩ := List.mem_map.1 hid
      obtain ⟨node, series, -, hget, -⟩ := settled s hs
      exact SortedMap.mem_keys_of_get? hget
  · intro batches hb
    exact order batches (flatten_levels h hb) (nestedFirst_of_levels h hd hb)

/-- A node that ranks below a node that ranks. -/
def nestedTree : Node Float :=
  .split "all" none (.inverseVolatility 2)
    [.asset "bonds" none "TLT",
      .split "risky" none (.inverseVolatility 2)
        [.asset "stocks" none "SPY", .asset "gold" none "GLD"]]

/-- Six days of prices for the tickers of `nestedTree`. -/
def nestedTable : PriceTable Float where
  dates := [20000, 20001, 20002, 20003, 20004, 20005]
  series := .ofList [("TLT", [some 90, some 91, some 90, some 92, some 91, some 93]),
    ("SPY", [some 500, some 505, some 490, some 510, some 515, some 500]),
    ("GLD", [some 200, some 199, some 201, some 205, some 203, some 204])]
  tradeableStart := 0
  aligned := by decide

theorem load_fixed_point_nestedTree :
    ∃ r C, Requirements.ofTree nestedTree = .ok r ∧ nestedTree.DistinctIds ∧
      load nestedTree r nestedTable ⟨.empty⟩ .default 1000 = .ok C ∧
      C.series.keys.Perm (r.statistics.map NodeStatistic.node) ∧
      ∀ batches : List (List NodeStatistic), Levels r batches →
        batches.foldlM (addBatch nestedTree nestedTable ⟨.empty⟩ .default 1000) empty = .ok C := by
  have hok : (Requirements.ofTree nestedTree >>= fun r =>
      load nestedTree r nestedTable ⟨.empty⟩ .default 1000).isOk = true := by decide +kernel
  obtain ⟨C, hC⟩ := Outcome.exists_of_isOk hok
  obtain ⟨r, hr, hC⟩ := Except.bind_eq_ok.1 hC
  have distinct : nestedTree.DistinctIds := by decide
  obtain ⟨keys, -, -, levels⟩ := load_fixed_point hr distinct hC
  exact ⟨r, C, hr, distinct, hC, keys, levels⟩

end StatisticTable

end StrategyTree
