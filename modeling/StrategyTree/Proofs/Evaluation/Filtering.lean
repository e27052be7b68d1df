import StrategyTree.Proofs.Evaluation.Weights

/-!
# What a filter keeps

A filter ranks its children by their statistics, in the total order of the doubles, and children of
one statistic by their positions. It keeps the children at one end of this ranking and shares its
weight evenly among them. The ranking is the only ascending order of the positions, so it does not
matter how it is found, nor in which order children with different statistics stand.

* `IsRanking`, `IsKept`: the ranking of a list and the positions that a filter keeps of it.
* `isRanking_iff_eq`: there is exactly one ranking.
* `IsKept.map_get_of_perm`: what is kept of two orders of one list whose values are all different.
* `Evaluator.filter_keeps_end_of_ranking`: the visit of a filter.
-/

namespace StrategyTree

variable {β : Type}

/-! ## Rankings -/

/-- In the ranking of a list one position comes before another: its value is smaller, or the values
are the same and it is the earlier position. -/
def RankedBefore (value : β → Float) (xs : List β) (i j : Fin xs.length) : Prop :=
  Double.rank (value (xs.get i)) < Double.rank (value (xs.get j)) ∨
    Double.rank (value (xs.get i)) = Double.rank (value (xs.get j)) ∧ i < j

/-- All positions of a list in the order of the ranking. -/
structure IsRanking (value : β → Float) (xs : List β) (order : List (Fin xs.length)) : Prop where
  perm : order.Perm (List.finRange xs.length)
  ascending : order.Pairwise (RankedBefore value xs)

/-- The positions that a filter keeps of a list: as many as it counts, or all if there are fewer, at
the beginning of the ranking or at its end. -/
def IsKept (select : Selection) (count : Nat) (value : β → Float) (xs : List β)
    (kept : List (Fin xs.length)) : Prop :=
  ∃ order, IsRanking value xs order ∧
    kept = match select with
      | .bottom => order.take (min count xs.length)
      | .top => order.drop (xs.length - min count xs.length)

instance (value : β → Float) (xs : List β) (i j : Fin xs.length) :
    Decidable (RankedBefore value xs i j) :=
  inferInstanceAs (Decidable (_ ∨ _))

instance (value : β → Float) (xs : List β) (order : List (Fin xs.length)) :
    Decidable (IsRanking value xs order) :=
  decidable_of_iff (order.Perm (List.finRange xs.length) ∧ order.Pairwise (RankedBefore value xs))
    ⟨fun h => ⟨h.1, h.2⟩, fun h => ⟨h.perm, h.ascending⟩⟩

section Ranking

variable {value : β → Float} {xs : List β} {order order' : List (Fin xs.length)}

theorem RankedBefore.le {i j : Fin xs.length} (h : RankedBefore value xs i j) :
    Double.rank (value (xs.get i)) ≤ Double.rank (value (xs.get j)) := by
  rcases h with hlt | ⟨heq, -⟩
  · exact Int.le_of_lt hlt
  · exact Int.le_of_eq heq

theorem RankedBefore.asymm {i j : Fin xs.length} (h : RankedBefore value xs i j) :
    ¬ RankedBefore value xs j i := by
  unfold RankedBefore at h ⊢
  omega

theorem IsRanking.length_eq (h : IsRanking value xs order) : order.length = xs.length := by
  rw [h.perm.length_eq, List.length_finRange]

/-- The elements of a list in the order of the ranking. -/
theorem IsRanking.map_get_perm (h : IsRanking value xs order) : (order.map xs.get).Perm xs := by
  have all := h.perm.map xs.get
  rwa [List.map_get_finRange] at all

/-- There is at most one ranking. -/
theorem IsRanking.eq (h : IsRanking value xs order) (h' : IsRanking value xs order') :
    order = order' :=
  List.Perm.eq_of_pairwise (fun _ _ _ _ hij hji => absurd hji hij.asymm) h.ascending h'.ascending
    (h.perm.trans h'.perm.symm)

variable (value xs) in
/-- The positions of a list, sorted by their values. -/
def ranking : List (Fin xs.length) :=
  (List.finRange xs.length).mergeSort fun i j =>
    decide (Double.rank (value (xs.get i)) ≤ Double.rank (value (xs.get j)))

theorem perm_ranking : (ranking value xs).Perm (List.finRange xs.length) :=
  List.mergeSort_perm _ _

/-- Numbering all positions numbers each by itself. -/
theorem val_eq_of_mem_zipIdx {n : Nat} {p : Fin n × Nat} (h : p ∈ (List.finRange n).zipIdx) :
    p.1.val = p.2 := by
  obtain ⟨i, k⟩ := p
  obtain ⟨-, -, hi⟩ := List.mem_zipIdx h
  rw [hi, List.getElem_finRange]
  exact Nat.sub_zero k

/-- Stability. Sorting by the values leaves positions of one value in their order. -/
theorem pairwise_ranking : (ranking value xs).Pairwise fun i j =>
    Double.rank (value (xs.get i)) ≤ Double.rank (value (xs.get j)) ∧
      (Double.rank (value (xs.get j)) ≤ Double.rank (value (xs.get i)) → i ≤ j) := by
  -- a stable sort is the sort of the numbered list that goes by the numbers in the second place
  unfold ranking
  rw [← List.mergeSort_zipIdx, List.pairwise_map]
  refine List.Pairwise.imp_of_mem ?_
    (List.pairwise_mergeSort (List.zipIdxLE_trans ?_) (List.zipIdxLE_total ?_) _)
  · intro p q hp hq hle
    rw [Fin.le_def, val_eq_of_mem_zipIdx (List.mem_mergeSort.1 hp),
      val_eq_of_mem_zipIdx (List.mem_mergeSort.1 hq)]
    simp only [List.zipIdxLE, decide_eq_true_eq] at hle
    split at hle
    · rename_i hpq
      refine ⟨hpq, fun hqp => ?_⟩
      rw [if_pos hqp] at hle
      exact of_decide_eq_true hle
    · cases hle
  · intro i j k
    simp only [decide_eq_true_eq]
    exact Int.le_trans
  · intro i j
    simp only [Bool.or_eq_true, decide_eq_true_eq]
    exact Int.le_total _ _

theorem isRanking_ranking : IsRanking value xs (ranking value xs) where
  perm := perm_ranking
  ascending := by
    have distinct : (ranking value xs).Nodup := perm_ranking.nodup_iff.2 (List.nodup_finRange _)
    refine (pairwise_ranking.and distinct).imp ?_
    rintro i j ⟨⟨hle, earlier⟩, hne⟩
    rcases Int.lt_or_eq_of_le hle with hlt | heq
    · exact .inl hlt
    · exact .inr ⟨heq, Nat.lt_of_le_of_ne (earlier heq.ge) (Fin.val_ne_of_ne hne)⟩

/-- The ranking. There is exactly one. -/
theorem isRanking_iff_eq : IsRanking value xs order ↔ order = ranking value xs :=
  ⟨fun h => h.eq isRanking_ranking, fun h => h ▸ isRanking_ranking⟩

/-- A list sorted by its values is the list in the order of the ranking. -/
theorem map_get_ranking : (ranking value xs).map xs.get = xs.mergeSort fun x y =>
    decide (Double.rank (value x) ≤ Double.rank (value y)) := by
  have positions := List.map_get_finRange xs
  conv_rhs => rw [← positions]
  exact List.map_mergeSort (f := xs.get) fun _ _ _ _ => rfl

/-- Different values. Two orders of one list whose values are all different have their elements
in the same order by the ranking. -/
theorem ranking_map_get_of_perm {ys : List β} {order' : List (Fin ys.length)} (hperm : ys.Perm xs)
    (distinct : xs.Pairwise fun x y => Double.rank (value x) ≠ Double.rank (value y))
    (h : IsRanking value xs order) (h' : IsRanking value ys order') :
    order'.map ys.get = order.map xs.get := by
  have sorted : ∀ {zs : List β} {order : List (Fin zs.length)}, IsRanking value zs order →
      (order.map zs.get).Pairwise fun x y => Double.rank (value x) ≤ Double.rank (value y) := by
    intro zs order h
    rw [List.pairwise_map]
    exact h.ascending.imp RankedBefore.le
  have symm : Std.Symm fun x y => Double.rank (value x) ≠ Double.rank (value y) :=
    ⟨fun _ _ => Ne.symm⟩
  refine List.Perm.eq_of_pairwise (fun x y hx hy hxy hyx => ?_) (sorted h') (sorted h)
    ((h'.map_get_perm.trans hperm).trans h.map_get_perm.symm)
  by_contra hne
  have hx := hperm.mem_iff.1 (h'.map_get_perm.mem_iff.1 hx)
  have hy := h.map_get_perm.mem_iff.1 hy
  exact distinct.forall hx hy hne (Int.le_antisymm hxy hyx)

end Ranking

/-! ## Shares of a filter -/

namespace Rule

/-- Shares of a filter. The children that are kept get even shares. -/
theorem shares_filter {α : Type} [Scalar α] {floor weight : α} {statistic : β → Except Error α}
    {value : β → α} {children : List β} (h : ∀ c ∈ children, statistic c = .ok (value c))
    (key : Ranking) (select : Selection) (count : Nat) :
    (Rule.filter key select count).shares floor statistic children weight =
      .ok (evenly (select.keep (min count children.length)
          (children.mergeSort fun c d => Scalar.rankLe (value c) (value d))) .equal
        (weight / Scalar.ofNat (min count children.length))) := by
  have ranked : rankAscending ((children.map value).zip children) =
      (children.mergeSort fun c d => Scalar.rankLe (value c) (value d)).map
        fun c => (value c, c) := by
    unfold rankAscending
    rw [← List.map_prod_right_eq_zip]
    exact (List.map_mergeSort (f := fun c => (value c, c)) fun _ _ _ _ => rfl).symm
  have length : (select.keep (min count children.length)
      (children.mergeSort fun c d => Scalar.rankLe (value c) (value d))).length =
        min count children.length := by
    apply length_keep
    rw [List.length_mergeSort]
    exact Nat.min_le_right _ _
  rw [shares, Outcome.mapM_eq_map h, Except.ok_bind, ranked]
  dsimp only
  have back : (Prod.snd ∘ fun c => (value c, c)) = id := rfl
  rw [keep_map, List.map_map, back, List.map_id, List.length_map, List.length_mergeSort, length]
  split
  · rename_i hempty
    rw [List.isEmpty_iff.1 hempty]
    rfl
  · rfl

/-- Shares by the ranking. A filter gives even shares to the children at one end of the
ranking. -/
theorem shares_filter_ranking {floor weight : Float} {statistic : β → Except Error Float}
    {value : β → Float} {children : List β} (h : ∀ c ∈ children, statistic c = .ok (value c))
    (key : Ranking) (select : Selection) (count : Nat) :
    (Rule.filter key select count).shares floor statistic children weight =
      .ok (evenly ((select.keep (min count children.length) (ranking value children)).map
        children.get) .equal (weight / Scalar.ofNat (min count children.length))) := by
  rw [shares_filter h, ← keep_map, map_get_ranking]
  rfl

end Rule

/-! ## Kept positions -/

section Kept

variable {select : Selection} {count : Nat} {value : β → Float} {xs ys : List β}
  {kept : List (Fin xs.length)} {kept' : List (Fin ys.length)}

/-- What a filter keeps are the positions at one end of the ranking. -/
theorem isKept_iff_eq : IsKept select count value xs kept ↔
    kept = select.keep (min count xs.length) (ranking value xs) := by
  have ends : (match select with
      | .bottom => (ranking value xs).take (min count xs.length)
      | .top => (ranking value xs).drop (xs.length - min count xs.length)) =
        select.keep (min count xs.length) (ranking value xs) := by
    cases select with
    | bottom => rfl
    | top => rw [Selection.keep, isRanking_ranking.length_eq]
  constructor
  · rintro ⟨order, h, rfl⟩
    rw [isRanking_iff_eq.1 h]
    exact ends
  · rintro rfl
    exact ⟨_, isRanking_ranking, ends.symm⟩

theorem IsKept.nodup (h : IsKept select count value xs kept) : kept.Nodup := by
  have distinct : (ranking value xs).Nodup := perm_ranking.nodup_iff.2 (List.nodup_finRange _)
  rw [isKept_iff_eq.1 h]
  cases select with
  | bottom => exact distinct.sublist (List.take_sublist _ _)
  | top => exact distinct.sublist (List.drop_sublist _ _)

theorem IsKept.length_eq (h : IsKept select count value xs kept) :
    kept.length = min count xs.length := by
  rw [isKept_iff_eq.1 h, Rule.length_keep]
  rw [isRanking_ranking.length_eq]
  exact Nat.min_le_right _ _

/-- Different values. Which elements are kept of a list whose values are all different does not
depend on the order in which they stand. -/
theorem IsKept.map_get_of_perm (h : IsKept select count value xs kept)
    (h' : IsKept select count value ys kept') (hperm : ys.Perm xs)
    (distinct : xs.Pairwise fun x y => Double.rank (value x) ≠ Double.rank (value y)) :
    kept'.map ys.get = kept.map xs.get := by
  rw [isKept_iff_eq.1 h, isKept_iff_eq.1 h', ← Rule.keep_map, ← Rule.keep_map,
    ranking_map_get_of_perm hperm distinct isRanking_ranking isRanking_ranking, hperm.length_eq]

/-- Of equal values the one at the later position ranks higher. -/
example : IsKept .top 1 id [2, 1, 2] [2] ∧ IsKept .bottom 2 id [2, 1, 2] [1, 0] :=
  ⟨⟨[1, 0, 2], by decide, rfl⟩, ⟨[1, 0, 2], by decide, rfl⟩⟩

end Kept

/-! ## The visit of a filter -/

namespace Evaluator

variable {e : Evaluator Float} {index : Nat} {id : String} {own : Option Fraction}
  {key : Ranking} {select : Selection} {count : Nat} {children : List (Node Float)}
  {value : Node Float → Float}

/-- A visit of a filter visits the children that it keeps, each once and with an even share. -/
theorem visit_filter (h : ∀ c ∈ children, e.statistics.value c.id index = .ok (value c))
    {kept : List (Fin children.length)} (hkept : IsKept select count value children kept)
    (mode : Weighting) (passed : Float) (s : Evaluation Float) :
    e.visit index (.split id own (.filter key select count) children) mode passed s =
      withWeight own mode passed s fun weight =>
        kept.foldlM (fun s i => e.visit index (children.get i) .equal
          (weight / Scalar.ofNat (min count children.length)) s) s := by
  rw [visit_split]
  congr 1
  funext weight
  rw [Rule.shares_filter_ranking h, Except.ok_bind, isKept_iff_eq.1 hkept, evenly, List.foldlM_map,
    List.foldlM_map]

/-- Tickers that no kept child holds do not receive anything. -/
theorem not_mem_received_of_filter
    (h : ∀ c ∈ children, e.statistics.value c.id index = .ok (value c))
    {kept : List (Fin children.length)} (hkept : IsKept select count value children kept)
    {mode : Weighting} {passed : Float} {s s' : Evaluation Float}
    (hs : e.visit index (.split id own (.filter key select count) children) mode passed s = .ok s')
    {x : String} (hx : ∀ i ∈ kept, x ∉ (children.get i).held) (hbefore : x ∉ s.received.keys) :
    x ∉ s'.received.keys := by
  rw [visit_filter h hkept] at hs
  rcases withWeight_eq_ok hs with ⟨-, rfl⟩ | ⟨weight, -, hs⟩
  · exact hbefore
  · refine Outcome.foldlM_eq_ok_of_step (P := fun t : Evaluation Float => x ∉ t.received.keys) hs
      (fun i hi s₁ s₂ h₁ hno hmem => ?_) hbefore
    exact (mem_received_of_visit h₁ hmem).elim (hx i hi) hno

/-- **Main theorem: what a filter keeps.** Let every child of a filter have a statistic on a day.
The ranking of the children decides which positions are kept, and nothing else can be kept: the
first ones or the last ones, as many as the filter counts or all children if there are fewer. A
visit of the filter visits each kept child once, with an even share of the filter's weight, and no
other child; what it gives out does not name a ticker that no kept child holds. If the statistics
are all different, the same children are kept whatever order they stand in. -/
theorem filter_keeps_end_of_ranking
    (h : ∀ c ∈ children, e.statistics.value c.id index = .ok (value c)) :
    ∃ kept : List (Fin children.length),
      (∀ o, IsKept select count value children o ↔ o = kept) ∧
      kept.Nodup ∧ kept.length = min count children.length ∧
      (∀ mode passed s,
        e.visit index (.split id own (.filter key select count) children) mode passed s =
          withWeight own mode passed s fun weight =>
            kept.foldlM (fun s i => e.visit index (children.get i) .equal
              (weight / Scalar.ofNat (min count children.length)) s) s) ∧
      (∀ mode weight a,
        e.evaluateNode index (.split id own (.filter key select count) children) mode weight =
          .ok a →
        ∀ x, (∀ i ∈ kept, (children.get i).tickers.contains x = false) → a.get? x = none) ∧
      ∀ children', children'.Perm children →
        (children.Pairwise fun c d => Double.rank (value c) ≠ Double.rank (value d)) →
        ∀ kept', IsKept select count value children' kept' →
          kept'.map children'.get = kept.map children.get := by
  obtain ⟨kept, hkept⟩ : ∃ kept, IsKept select count value children kept :=
    ⟨_, isKept_iff_eq.2 rfl⟩
  refine ⟨kept, fun o => ?_, hkept.nodup, hkept.length_eq, visit_filter h hkept, ?_, ?_⟩
  · rw [isKept_iff_eq, isKept_iff_eq.1 hkept]
  · intro mode weight a ha x hx
    obtain ⟨s, hs, ha⟩ := Except.bind_eq_ok.1 ha
    cases ha
    have unheld : ∀ i ∈ kept, x ∉ (children.get i).held := by
      intro i hi
      rw [← Node.mem_held_iff_tickers, hx i hi]
      exact Bool.false_ne_true
    rw [SortedMap.get?_eq_none_iff, SortedMap.keys_mapValues]
    exact not_mem_received_of_filter h hkept hs unheld List.not_mem_nil
  · intro children' hperm distinct kept' hkept'
    exact hkept.map_get_of_perm hkept' hperm distinct

/-- Three tickers, two of which have the two zeros for their statistics. -/
def zeroTable : StatisticTable Float where
  series := .ofList [("stocks", ⟨0, [0.0]⟩), ("bonds", ⟨0, [-0.0]⟩), ("gold", ⟨0, [1.5]⟩)]

/-- An evaluator that ranks by `zeroTable`. -/
def zeroEvaluator : Evaluator Float := ⟨.empty, ⟨.empty⟩, zeroTable, .default⟩

/-- The children of a filter, by ids that `zeroTable` knows. -/
def zeroChildren : List (Node Float) :=
  [.asset "stocks" none "SPY", .asset "bonds" none "TLT", .asset "gold" none "GLD"]

/-- The statistics of the children. -/
def zeroValue (c : Node Float) : Float := ((zeroTable.value c.id 0).toOption).getD 0

theorem filter_keeps_end_of_ranking_zeroChildren :
    ∃ (kept : List (Fin zeroChildren.length)) (a : Allocation Float),
      kept.map Fin.val = [0, 2] ∧
      zeroEvaluator.evaluateNode 0 (.split "best" none (.filter ⟨.cumulativeReturn, 1⟩ .top 2)
        zeroChildren) .equal 100 = .ok a ∧
      a.entries = [("GLD", some 50), ("SPY", some 50)] ∧ a.get? "TLT" = none ∧
      ∀ kept', IsKept .top 2 zeroValue zeroChildren.reverse kept' →
        kept'.map zeroChildren.reverse.get = kept.map zeroChildren.get := by
  have values : ∀ c ∈ zeroChildren, zeroEvaluator.statistics.value c.id 0 = .ok (zeroValue c) := by
    decide +kernel
  have different : zeroChildren.Pairwise fun c d =>
      Double.rank (zeroValue c) ≠ Double.rank (zeroValue d) := by
    decide +kernel
  have ranked : IsRanking zeroValue zeroChildren
      [⟨1, by decide⟩, ⟨0, by decide⟩, ⟨2, by decide⟩] := by
    decide +kernel
  obtain ⟨kept, unique, -, -, visits, absent, permuted⟩ :=
    @filter_keeps_end_of_ranking zeroEvaluator 0 "best" none ⟨.cumulativeReturn, 1⟩ .top 2
      zeroChildren zeroValue values
  obtain rfl := (unique [⟨0, by decide⟩, ⟨2, by decide⟩]).1 ⟨_, ranked, rfl⟩
  have checked : (zeroEvaluator.evaluateNode 0 (.split "best" none
      (.filter ⟨.cumulativeReturn, 1⟩ .top 2) zeroChildren) .equal 100 >>= fun a =>
        .ok (decide (a.entries = [("GLD", some 50), ("SPY", some 50)]))) = .ok true := by
    unfold evaluateNode
    rw [visits]
    decide +kernel
  obtain ⟨a, ha, checked⟩ := Except.bind_eq_ok.1 checked
  exact ⟨_, a, rfl, ha, of_decide_eq_true (Except.ok.inj checked),
    absent .equal 100 a ha "TLT" (by decide +kernel), permuted _ (List.reverse_perm _) different⟩

end Evaluator

end StrategyTree
