import StrategyTree.Proofs.Evaluation.Fairness

/-!
# Shares by inverse volatility

A split by inverse volatility gives its children parts of its weight in inverse proportion to their
volatilities. The floor stands in for a volatility of zero, and for no other one that is below it.
In exact arithmetic every child gets a positive part, and a calmer child does not get less than
another one, unless it is without any volatility and the other one's is positive and below the
floor.

* `Rule.inversePart`: the part of a child.
* `Rule.effectiveVolatility_le_iff`: how the floor changes the order of volatilities.
* `Evaluator.calmer_children_get_more`: the parts of the children of a split.
* `Evaluator.calmest_child_gets_less`: a child without volatility that gets less than another one.
-/

namespace StrategyTree

variable {K : Type} [Field K] [LinearOrder K] [Roots K]

namespace Rule

/-! ## Volatilities that count -/

theorem effectiveVolatility_of_pos {floor v : K} (h : 0 < v) : effectiveVolatility floor v = v :=
  if_pos ⟨Exact.zero_lt_iff.2 h, rfl⟩

theorem effectiveVolatility_zero (floor : K) : effectiveVolatility floor 0 = floor :=
  if_neg fun h => lt_irrefl 0 (Exact.zero_lt_iff.1 h.1)

/-- The floor keeps the order of two volatilities, unless it stands in for the smaller one and is
above the larger one. -/
theorem effectiveVolatility_le_iff {floor v w : K} (hv : 0 ≤ v) (hvw : v ≤ w) :
    effectiveVolatility floor v ≤ effectiveVolatility floor w ↔
      ¬ (v = 0 ∧ 0 < w ∧ w < floor) := by
  rcases hv.eq_or_lt with rfl | hv
  · rw [effectiveVolatility_zero]
    rcases hvw.eq_or_lt with rfl | hw
    · rw [effectiveVolatility_zero]
      simp
    · rw [effectiveVolatility_of_pos hw, ← not_lt]
      simp [hw]
  · rw [effectiveVolatility_of_pos hv, effectiveVolatility_of_pos (hv.trans_le hvw)]
    simp [hvw, hv.ne']

/-! ## Parts of a weight -/

/-- The part of a weight that goes to a child of volatility `v` among children of given
volatilities: its inverse volatility by the sum of all of these. -/
def inversePart (floor : K) (volatilities : List K) (v : K) : K :=
  1 / effectiveVolatility floor v / (volatilities.map fun u => 1 / effectiveVolatility floor u).sum

variable {floor : K} {volatilities : List K} {v w : K}

section Shares

variable {β : Type} {statistic : β → Except Error K} {children : List β} {volatility : β → K}

/-- Shares by inverse volatility. -/
theorem shares_inverseVolatility (h : ∀ c ∈ children, statistic c = .ok (volatility c))
    (window : ℕ) (weight : K) :
    (Rule.inverseVolatility window).shares floor statistic children weight =
      .ok (children.map fun c =>
        ⟨c, .equal, inversePart floor (children.map volatility) (volatility c) * weight⟩) := by
  rw [shares, Outcome.mapM_eq_map h, Except.ok_bind]
  dsimp only
  rw [Exact.sum_eq, Except.pure_eq_ok, Exact.one_eq, List.zipWith_map_right, List.zipWith_map_right,
    List.zipWith_self]
  rfl

end Shares

section Ordered

variable [IsStrictOrderedRing K]

/-- The inverse volatilities of all children add up to a positive number, if there are any. -/
theorem sum_inverses_pos (hf : 0 < floor) (h : volatilities ≠ []) :
    0 < (volatilities.map fun u => 1 / effectiveVolatility floor u).sum := by
  have inverses := inverses_pos hf volatilities
  rw [Exact.one_eq] at inverses
  exact List.sum_pos _ inverses (by simpa using h)

theorem inversePart_pos (hf : 0 < floor) (hv : v ∈ volatilities) :
    0 < inversePart floor volatilities v :=
  div_pos (one_div_pos.2 (effectiveVolatility_pos hf v))
    (sum_inverses_pos hf (List.ne_nil_of_mem hv))

/-- Parts are ordered in reverse to the volatilities that count. -/
theorem inversePart_le_iff (hf : 0 < floor) (hv : v ∈ volatilities) :
    inversePart floor volatilities w ≤ inversePart floor volatilities v ↔
      effectiveVolatility floor v ≤ effectiveVolatility floor w := by
  unfold inversePart
  rw [div_le_div_iff_of_pos_right (sum_inverses_pos hf (List.ne_nil_of_mem hv)),
    one_div_le_one_div (effectiveVolatility_pos hf w) (effectiveVolatility_pos hf v)]

end Ordered

end Rule

namespace Evaluator

variable {e : Evaluator K} {index : ℕ} {id : String} {own : Option Fraction} {window : ℕ}
  {children : List (Node K)} {volatility : Node K → K}

/-- A visit by inverse volatility visits every child with its part of the weight. -/
theorem visit_inverseVolatility
    (h : ∀ c ∈ children, e.statistics.value c.id index = .ok (volatility c))
    (mode : Weighting) (passed : K) (s : Evaluation K) :
    e.visit index (.split id own (.inverseVolatility window) children) mode passed s =
      withWeight own mode passed s fun weight =>
        children.foldlM (fun s c => e.visit index c .equal (Rule.inversePart
          e.settings.volatilityFloor (children.map volatility) (volatility c) * weight) s) s := by
  rw [visit_split]
  congr 1
  funext weight
  rw [Rule.shares_inverseVolatility h, Except.ok_bind, List.foldlM_map]

/-- **Main theorem: calmer children get more.** Let the children of a split by inverse volatility
have volatilities on a day that are not negative, and let the floor be positive. A visit of the
split visits every child with its part of the weight. All parts are positive; and of two children
the one whose volatility is not the greater gets at least as much as the other one exactly if the
floor does not come between them, standing in for no volatility at all and above a positive one. -/
theorem calmer_children_get_more [IsStrictOrderedRing K] (hf : 0 < e.settings.volatilityFloor)
    (h : ∀ c ∈ children, e.statistics.value c.id index = .ok (volatility c))
    (hv : ∀ c ∈ children, 0 ≤ volatility c) :
    (∀ mode passed s,
      e.visit index (.split id own (.inverseVolatility window) children) mode passed s =
        withWeight own mode passed s fun weight =>
          children.foldlM (fun s c => e.visit index c .equal (Rule.inversePart
            e.settings.volatilityFloor (children.map volatility) (volatility c) * weight) s) s) ∧
    (∀ c ∈ children, 0 < Rule.inversePart e.settings.volatilityFloor (children.map volatility)
      (volatility c)) ∧
    ∀ c ∈ children, ∀ d ∈ children, volatility c ≤ volatility d →
      (Rule.inversePart e.settings.volatilityFloor (children.map volatility) (volatility d) ≤
          Rule.inversePart e.settings.volatilityFloor (children.map volatility) (volatility c) ↔
        ¬ (volatility c = 0 ∧ 0 < volatility d ∧
          volatility d < e.settings.volatilityFloor)) := by
  refine ⟨visit_inverseVolatility h, fun c hc => ?_, fun c hc d _ hcd => ?_⟩
  · exact Rule.inversePart_pos hf (List.mem_map_of_mem hc)
  · rw [Rule.inversePart_le_iff hf (List.mem_map_of_mem hc),
      Rule.effectiveVolatility_le_iff (hv c hc) hcd]

/-- An evaluator that knows the volatilities of cash and of two more children. -/
def volatilityEvaluator (stocks gold : ℚ) : Evaluator ℚ where
  tradeable := .ofList ["BIL", "GLD", "SPY"]
  indicators := ⟨.empty⟩
  statistics := ⟨.ofList [("cash", ⟨0, [0]⟩), ("stocks", ⟨0, [stocks]⟩), ("gold", ⟨0, [gold]⟩)]⟩
  settings := .default

/-- The children that `volatilityEvaluator` knows. -/
def volatileChildren : List (Node ℚ) :=
  [.asset "gold" none "GLD", .asset "cash" none "BIL", .asset "stocks" none "SPY"]

/-- The volatilities that an evaluator knows of nodes. -/
def volatilityOf (e : Evaluator ℚ) (c : Node ℚ) : ℚ := (e.statistics.value c.id 0).toOption.getD 0

theorem calmer_children_get_more_volatileChildren :
    let e := volatilityEvaluator (1 / 2) (1 / 5)
    ∀ c ∈ volatileChildren, ∀ d ∈ volatileChildren, volatilityOf e c ≤ volatilityOf e d →
      Rule.inversePart e.settings.volatilityFloor (volatileChildren.map (volatilityOf e))
          (volatilityOf e d) ≤
        Rule.inversePart e.settings.volatilityFloor (volatileChildren.map (volatilityOf e))
          (volatilityOf e c) := by
  intro e c hc d hd hcd
  have floor : 0 < e.settings.volatilityFloor := by decide +kernel
  have values : ∀ c ∈ volatileChildren, e.statistics.value c.id 0 = .ok (volatilityOf e c) := by
    decide +kernel
  have nonneg : ∀ c ∈ volatileChildren, 0 ≤ volatilityOf e c := by decide +kernel
  have above : ∀ d ∈ volatileChildren,
      ¬ (0 < volatilityOf e d ∧ volatilityOf e d < e.settings.volatilityFloor) := by
    decide +kernel
  refine ((@calmer_children_get_more _ _ _ _ e 0 "split" none 20 volatileChildren (volatilityOf e) _
    floor values nonneg).2.2 c hc d hd hcd).2 ?_
  rintro ⟨-, hd'⟩
  exact above d hd hd'

/-- A child without any volatility gets less than one whose volatility is positive and below the
floor. -/
theorem calmest_child_gets_less :
    ∃ a, (volatilityEvaluator (1 / 10 ^ 5) (1 / 5)).evaluate 0
        (.split "split" none (.inverseVolatility 20) volatileChildren) = .ok a ∧
      0 < (volatilityEvaluator (1 / 10 ^ 5) (1 / 5)).settings.volatilityFloor ∧
      (volatilityEvaluator (1 / 10 ^ 5) (1 / 5)).statistics.value "cash" 0 = .ok 0 ∧
      (volatilityEvaluator (1 / 10 ^ 5) (1 / 5)).statistics.value "stocks" 0 = .ok (1 / 10 ^ 5) ∧
      ¬ a.percentageOf "SPY" ≤ a.percentageOf "BIL" := by
  have checked : ((volatilityEvaluator (1 / 10 ^ 5) (1 / 5)).evaluate 0
      (.split "split" none (.inverseVolatility 20) volatileChildren) >>= fun a =>
        .ok (decide (¬ a.percentageOf "SPY" ≤ a.percentageOf "BIL"))) = .ok true := by
    decide +kernel
  obtain ⟨a, ha, checked⟩ := Except.bind_eq_ok.1 checked
  exact ⟨a, ha, by decide +kernel, by decide +kernel, by decide +kernel,
    of_decide_eq_true (Except.ok.inj checked)⟩

end Evaluator

end StrategyTree
