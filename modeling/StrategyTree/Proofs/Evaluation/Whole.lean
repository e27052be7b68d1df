import StrategyTree.Proofs.Evaluation.Fairness

/-!
# Allocations that give out exactly the whole

A tree is thorough if no weight is lost or created on the way down: every root and every group has
one child, every other split shares its whole weight among its children, and there are no unknown
nodes. In exact arithmetic, a thorough tree gives out exactly the weight that is put in, however its
conditions and rankings turn out.

* `Rule.Thorough`, `Node.Thorough`: the trees.
* `Evaluator.sum_percentages_evaluate`: a thorough strategy invests the whole portfolio.
* `Evaluator.weight_conserved`: the weights that a thorough node routes to tickers.
-/

namespace StrategyTree

variable {K : Type} [Field K] [LinearOrder K] [Roots K]

/-! ## Thorough trees -/

/-- A split spends the whole of its weight. -/
def Rule.Thorough (rule : Rule) (children : List (Node K)) : Prop :=
  match rule with
  | .root | .group _ => children.length = 1
  | .equal | .inverseVolatility _ => children ≠ []
  | .filter _ _ count => children ≠ [] ∧ 1 ≤ count
  | .specified => (∀ c ∈ children, ∃ f ∈ c.weight, f.denominator ≠ 0) ∧
      (children.map Node.part).sum = 1

/-- A node spends the whole of its weight. -/
def Node.SpendsThoroughly : Node K → Prop
  | .asset .. | .choice .. => True
  | .unknown .. => False
  | .split _ _ rule children => rule.Thorough children

/-- All nodes of a tree spend the whole of their weight. -/
def Node.Thorough (n : Node K) : Prop := ∀ m ∈ n.nodes, m.SpendsThoroughly

instance (rule : Rule) (children : List (Node K)) : Decidable (rule.Thorough children) :=
  match rule with
  | .root | .group _ => inferInstanceAs (Decidable (children.length = 1))
  | .equal | .inverseVolatility _ => inferInstanceAs (Decidable (children ≠ []))
  | .filter _ _ count => inferInstanceAs (Decidable (children ≠ [] ∧ 1 ≤ count))
  | .specified => inferInstanceAs (Decidable ((∀ c ∈ children, ∃ f ∈ c.weight, f.denominator ≠ 0) ∧
      (children.map Node.part).sum = 1))

instance (n : Node K) : Decidable n.SpendsThoroughly :=
  match n with
  | .asset .. | .choice .. => .isTrue trivial
  | .unknown .. => .isFalse id
  | .split _ _ rule children => inferInstanceAs (Decidable (rule.Thorough children))

instance (n : Node K) : Decidable n.Thorough :=
  inferInstanceAs (Decidable (∀ m ∈ n.nodes, m.SpendsThoroughly))

theorem Rule.Thorough.spent_eq {rule : Rule} {children : List (Node K)}
    (h : rule.Thorough children) : rule.spent children = 1 := by
  have one : ∀ {n : ℕ}, 1 ≤ n → ((min n 1 : ℕ) : K) = 1 := by
    intro n hn
    rw [Nat.min_eq_right hn, Nat.cast_one]
  cases rule with
  | root | group _ =>
    rw [spent, h, Nat.cast_one]
  | equal | inverseVolatility _ => exact one (List.length_pos_of_ne_nil h)
  | filter _ _ count => exact one (Nat.le_min.2 ⟨h.2, List.length_pos_of_ne_nil h.1⟩)
  | specified => exact h.2

theorem Node.SpendsThoroughly.spendsWithin {n : Node K} (h : n.SpendsThoroughly) :
    n.SpendsWithin .exactly := by
  cases n with
  | asset | choice => trivial
  | unknown => exact h.elim
  | split id own rule children => exact Rule.Thorough.spent_eq h

/-! ## What a thorough tree gives out -/

namespace Evaluator

variable {e : Evaluator K} {index : ℕ}

/-- What a node routes to tickers are percentages throughout. -/
theorem values_evaluateNode {n : Node K} {mode : Weighting} {weight : K} {a : Allocation K}
    (h : e.evaluateNode index n mode weight = .ok a) :
    ∃ s, e.visit index n mode weight {} = .ok s ∧ a.values = s.received.values.map some := by
  obtain ⟨s, hs, h⟩ := Except.bind_eq_ok.1 h
  cases h
  refine ⟨s, hs, ?_⟩
  unfold SortedMap.values SortedMap.mapValues
  rw [List.map_map, List.map_map]
  rfl

variable [IsStrictOrderedRing K]

/-- The percentages that a thorough strategy allocates on a day make up the whole portfolio. -/
theorem sum_percentages_evaluate (hf : 0 < e.settings.volatilityFloor) {tree : Node K}
    (ht : tree.Thorough) {a : Allocation K} (h : e.evaluate index tree = .ok a) :
    a.percentages.sum = 100 :=
  (accounts_evaluate .exactly hf (fun m hm => (ht m hm).spendsWithin) h).2

/-- **Main theorem: no weight is lost or created.** Whatever weight a thorough tree is evaluated
with, all tickers it reaches have percentages, none of them negative, and the percentages add up to
exactly that weight, for all conditions, rankings and volatilities. -/
theorem weight_conserved (hf : 0 < e.settings.volatilityFloor) {tree : Node K}
    (ht : tree.Thorough) {weight : K} (hw : 0 ≤ weight) {a : Allocation K}
    (h : e.evaluateNode index tree .equal weight = .ok a) :
    (∀ v ∈ a.values, ∃ p, v = some p ∧ 0 ≤ p) ∧ a.percentages.sum = weight := by
  obtain ⟨s, hs, values⟩ := values_evaluateNode h
  have accounts := accounts_of_visit .exactly hf
    (fun m hm => (ht m hm).spendsWithin) hs hw (accounts_empty _)
  constructor
  · intro v hv
    rw [values] at hv
    obtain ⟨p, hp, rfl⟩ := List.mem_map.1 hv
    exact ⟨p, rfl, accounts.nonneg p hp⟩
  · have all : a.percentages = s.received.values := by
      rw [Allocation.percentages, values, List.reduceOption, List.filterMap_map]
      exact List.filterMap_some
    have total := accounts.total
    rw [zero_add] at total
    rw [all]
    exact total

/-- Stocks reached on several ways: through a part, a ranking and a condition. -/
def windingTree : Node ℚ :=
  .split "winding" none .root
    [.split "parts" none .specified
      [.split "calm" (some ⟨2, 5⟩) (.inverseVolatility 2)
          [.asset "stocks" none "SPY", .asset "bonds" none "TLT", .asset "cash" none "BIL"],
        .split "best" (some ⟨3, 5⟩) (.filter ⟨.cumulativeReturn, 3⟩ .top 2)
          [.split "named" none (.group (some "half and half")) [.split "halves" none .equal
              [.asset "stocks again" none "SPY", .asset "gold" none "GLD"]],
            .asset "oil" none "USO",
            .choice "trend" none ⟨.all, [⟨⟨"SPY", .movingAveragePrice, 1⟩, .greater, .fixed 100⟩]⟩
              (.asset "stocks once more" none "SPY") (.asset "bonds again" none "TLT")]]]

/-- What `windingTree` consults: one indicator and six rankings, on two days. -/
def windingEvaluator : Evaluator ℚ where
  tradeable := windingTree.tickers
  indicators := ⟨.ofList [(⟨"SPY", .movingAveragePrice, 1⟩, ⟨0, [99, 101]⟩)]⟩
  statistics := ⟨.ofList [("stocks", ⟨0, [1, 2]⟩), ("bonds", ⟨0, [1, 1]⟩), ("cash", ⟨0, [0, 0]⟩),
    ("named", ⟨0, [4, 5]⟩), ("oil", ⟨0, [7, -3]⟩), ("trend", ⟨0, [-2, 3]⟩)]⟩
  settings := .default

theorem weight_conserved_windingTree :
    ∃ a, windingEvaluator.evaluateNode 1 windingTree .equal 50 = .ok a ∧
      (∀ v ∈ a.values, ∃ p, v = some p ∧ 0 ≤ p) ∧ a.percentages.sum = 50 := by
  have read : ∀ key ∈ windingTree.readings,
      (windingEvaluator.indicators.value key 1).isOk = true := by
    decide +kernel
  have ranked : ∀ id ∈ windingTree.ranked,
      (windingEvaluator.statistics.value id 1).isOk = true := by
    decide +kernel
  -- all that is read can be read, so the visit succeeds
  have visited : Agreement.succeeding.holds (windingEvaluator.visit 1 windingTree .equal 50 {})
      (windingEvaluator.visit 1 windingTree .equal 50 {}) := by
    refine visit_agrees .succeeding rfl (fun key hkey => ?_) (fun id hid => ?_) _ _ _
    · obtain ⟨x, hx⟩ := Outcome.exists_of_isOk (read key hkey)
      exact ⟨x, hx, hx⟩
    · obtain ⟨x, hx⟩ := Outcome.exists_of_isOk (ranked id hid)
      exact ⟨x, hx, hx⟩
  obtain ⟨s, hs, -⟩ := visited
  have evaluated : windingEvaluator.evaluateNode 1 windingTree .equal 50 =
      .ok (s.received.mapValues fun _ w => some w) := by
    rw [evaluateNode, hs]
    rfl
  have thorough : windingTree.Thorough := by decide +kernel
  have floor : (0 : ℚ) < windingEvaluator.settings.volatilityFloor := by decide +kernel
  exact ⟨_, evaluated, weight_conserved floor thorough (by decide) evaluated⟩

end Evaluator

end StrategyTree
