import StrategyTree.Proofs.BalanceCurve
import StrategyTree.Proofs.Evaluation.Weights

/-!
# Allocations that give out at most the whole

A split is prudent if its children cannot get more than the split has: a root or a group has one
child at most, and the parts that are specified add up to one at most. In exact arithmetic, the
allocations of a strategy all of whose splits are prudent are fair.

* `Allocation.fair_iff`: what a fair allocation is, by its percentages.
* `Evaluator.accounts_evaluate`: the percentages of an allocation keep to a bound.
* `Evaluator.fair_of_evaluate`: the allocation of a prudent tree is fair.
* `Evaluator.percentages_in_range`: the range of the percentages of any allocation.
-/

namespace StrategyTree

variable {K : Type} [Field K] [LinearOrder K] [Roots K]

/-! ## Prudent trees -/

/-- The children of a split cannot get more than the split has. -/
def Rule.Prudent (rule : Rule) (children : List (Node K)) : Prop :=
  match rule with
  | .root | .group _ => children.length ≤ 1
  | .specified => (children.map Node.part).sum ≤ 1
  | .equal | .inverseVolatility _ | .filter .. => True

/-- A node, if it is a split, is prudent. -/
def Node.SplitsPrudently : Node K → Prop
  | .split _ _ rule children => rule.Prudent children
  | .asset .. | .unknown .. | .choice .. => True

/-- All splits of a tree are prudent. -/
def Node.Prudent (n : Node K) : Prop := ∀ m ∈ n.nodes, m.SplitsPrudently

instance (rule : Rule) (children : List (Node K)) : Decidable (rule.Prudent children) :=
  match rule with
  | .root | .group _ => inferInstanceAs (Decidable (children.length ≤ 1))
  | .specified => inferInstanceAs (Decidable ((children.map Node.part).sum ≤ 1))
  | .equal | .inverseVolatility _ | .filter .. => .isTrue trivial

instance (n : Node K) : Decidable n.SplitsPrudently :=
  match n with
  | .split _ _ rule children => inferInstanceAs (Decidable (rule.Prudent children))
  | .asset .. | .unknown .. | .choice .. => .isTrue trivial

instance (n : Node K) : Decidable n.Prudent :=
  inferInstanceAs (Decidable (∀ m ∈ n.nodes, m.SplitsPrudently))

theorem Node.Prudent.of_mem {m n : Node K} (h : n.Prudent) (hm : m ∈ n.nodes) : m.Prudent :=
  fun o ho => h o (Node.nodes_subset hm ho)

variable [IsStrictOrderedRing K]

theorem Rule.Prudent.spent_le {rule : Rule} {children : List (Node K)} (h : rule.Prudent children) :
    rule.spent children ≤ 1 := by
  cases rule with
  | root | group _ => exact Nat.cast_le_one.2 h
  | specified => exact h
  | equal | inverseVolatility _ | filter _ _ _ => exact Nat.cast_le_one.2 (Nat.min_le_right _ _)

theorem Node.SplitsPrudently.spendsWithin {n : Node K} (h : n.SplitsPrudently) :
    n.SpendsWithin .atMost := by
  cases n with
  | asset | choice => trivial
  | unknown => exact zero_le_one
  | split id own rule children => exact Rule.Prudent.spent_le h

/-! ## Percentages of an allocation -/

namespace Allocation

variable {a : Allocation K}

omit [IsStrictOrderedRing K]

omit [Field K] [LinearOrder K] [Roots K] in
theorem mem_percentages {p : K} : p ∈ a.percentages ↔ ∃ x, a.get? x = some (some p) := by
  rw [percentages, List.reduceOption_mem_iff]
  exact SortedMap.mem_values

/-- A ticker without a percentage does not count in their sum. -/
theorem sum_percentages (a : Allocation K) :
    a.percentages.sum = (a.keys.map a.percentageOf).sum := by
  have blanks : ∀ vs : List (Option K), vs.reduceOption.sum = (vs.map (Option.getD · 0)).sum := by
    intro vs
    induction vs with
    | nil => rfl
    | cons v vs ih =>
      cases v with
      | none => rw [List.reduceOption_cons_of_none, ih, List.map_cons, List.sum_cons,
          Option.getD_none, zero_add]
      | some p => rw [List.reduceOption_cons_of_some, List.sum_cons, ih, List.map_cons,
          List.sum_cons, Option.getD_some]
  rw [percentages, blanks]
  apply SortedMap.sum_values_eq a.nodup_keys fun x hx => hx
  · intro x v hv
    rw [percentageOf, hv]
    rfl
  · intro x _ hx
    rw [percentageOf, hx]
    rfl

omit [LinearOrder K] [Roots K] in
theorem percentageOf_eq_zero_or_mem (a : Allocation K) (x : String) :
    a.percentageOf x = 0 ∨ a.percentageOf x ∈ a.percentages := by
  unfold percentageOf
  rcases hx : a.get? x with _ | _ | p
  · exact .inl rfl
  · exact .inl rfl
  · exact .inr (mem_percentages.2 ⟨x, hx⟩)

/-- An allocation is fair if its percentages are not negative and add up to the whole at most. -/
theorem fair_iff : a.Fair ↔ (∀ p ∈ a.percentages, 0 ≤ p) ∧ a.percentages.sum ≤ 100 := by
  rw [sum_percentages]
  constructor
  · rintro ⟨nonneg, total⟩
    refine ⟨fun p hp => ?_, total⟩
    obtain ⟨x, hx⟩ := mem_percentages.1 hp
    have named := nonneg x (SortedMap.mem_keys_of_get? hx)
    rwa [percentageOf, hx] at named
  · rintro ⟨nonneg, total⟩
    refine ⟨fun x _ => ?_, total⟩
    rcases a.percentageOf_eq_zero_or_mem x with hx | hx
    · exact hx.ge
    · exact nonneg _ hx

end Allocation

/-! ## Allocations of a tree -/

namespace Evaluator

variable {e : Evaluator K} {index : ℕ}

omit [IsStrictOrderedRing K] in
/-- An allocation gives every ticker what it has received in the visit of the tree. -/
theorem percentageOf_evaluate {n : Node K} {a : Allocation K} (h : e.evaluate index n = .ok a) :
    ∃ s, e.visit index n .equal Scalar.hundred {} = .ok s ∧ s.received.keys ⊆ a.keys ∧
      ∀ x, a.percentageOf x = (s.received.get? x).getD 0 := by
  obtain ⟨reached, h₁, h⟩ := Except.bind_eq_ok.1 h
  obtain ⟨s, h₂, h₁⟩ := Except.bind_eq_ok.1 h₁
  cases h₁
  cases h
  have keys : (s.received.mapValues fun _ w => some w).entries.map Prod.fst = s.received.keys :=
    SortedMap.keys_mapValues _ _
  refine ⟨s, h₂, fun x hx => ?_, fun x => ?_⟩
  · rw [SortedMap.mem_keys_insertAll, keys]
    exact .inl hx
  · unfold Allocation.percentageOf
    cases hx : s.received.get? x with
    | none =>
      rw [SortedMap.get?_insertAll_of_not_mem (keys ▸ SortedMap.get?_eq_none_iff.1 hx),
        SortedMap.get?_mapValues]
      cases e.tradeable.get? x <;> rfl
    | some w =>
      have entry : (x, some w) ∈ (s.received.mapValues fun _ w => some w).entries := by
        rw [← SortedMap.get?_eq_some_iff, SortedMap.get?_mapValues, hx]
        rfl
      rw [SortedMap.get?_insertAll_of_mem (keys ▸ s.received.nodup_keys) entry]
      rfl

omit [IsStrictOrderedRing K] in
/-- The percentages of an allocation are what tickers have received in the visit of the tree. -/
theorem percentages_evaluate {n : Node K} {a : Allocation K} (h : e.evaluate index n = .ok a) :
    ∃ s, e.visit index n .equal Scalar.hundred {} = .ok s ∧
      (∀ p ∈ a.percentages, p = 0 ∨ p ∈ s.received.values) ∧
      a.percentages.sum = s.received.values.sum := by
  obtain ⟨s, hs, keys, percentages⟩ := percentageOf_evaluate h
  refine ⟨s, hs, fun p hp => ?_, ?_⟩
  · obtain ⟨x, hx⟩ := Allocation.mem_percentages.1 hp
    have received := percentages x
    rw [Allocation.percentageOf, hx] at received
    change p = _ at received
    cases hr : s.received.get? x with
    | none => exact .inl (by rw [received, hr]; rfl)
    | some w =>
      rw [hr] at received
      exact .inr (SortedMap.mem_values.2 ⟨x, received ▸ hr⟩)
  · rw [Allocation.sum_percentages, ← List.map_id s.received.values]
    refine (SortedMap.sum_values_eq a.nodup_keys keys (fun x w hx => ?_) fun x _ hx => ?_).symm
    · rw [percentages, hx]
      rfl
    · rw [percentages, hx]
      rfl

/-- The percentages of an allocation are not negative, and together they keep to the bound that
all nodes of the tree keep to. -/
theorem accounts_evaluate (bound : Bound K) (hf : 0 < e.settings.volatilityFloor) {n : Node K}
    (hn : ∀ m ∈ n.nodes, m.SpendsWithin bound) {a : Allocation K}
    (h : e.evaluate index n = .ok a) :
    (∀ p ∈ a.percentages, 0 ≤ p) ∧ bound.keeps a.percentages.sum 100 := by
  obtain ⟨s, hs, received, sum⟩ := percentages_evaluate h
  rw [Exact.hundred_eq] at hs
  have accounts := accounts_of_visit bound hf hn hs (by norm_num) (accounts_empty bound)
  refine ⟨fun p hp => ?_, ?_⟩
  · rcases received p hp with rfl | hp
    · exact le_refl 0
    · exact accounts.nonneg p hp
  · have total := accounts.total
    rwa [zero_add, ← sum] at total

/-- An allocation of a prudent tree is fair. -/
theorem fair_of_evaluate (hf : 0 < e.settings.volatilityFloor) {n : Node K} (hp : n.Prudent)
    {a : Allocation K} (h : e.evaluate index n = .ok a) : a.Fair :=
  Allocation.fair_iff.2 (accounts_evaluate .atMost hf
    (fun m hm => (hp m hm).spendsWithin) h)

/-- **Main theorem: percentages in range.** Whatever accepted tree is evaluated, no percentage of
its allocation is negative. If each root and group has one child at most and the parts specified
under a node add up to one at most, then each percentage is at most 100, and so is their sum. That
the tree is accepted keeps weights over zero out, whose parts are no numbers among the doubles. -/
theorem percentages_in_range {tree : Node K} {r : Requirements}
    (_accepted : Requirements.ofTree tree = .ok r) (hf : 0 < e.settings.volatilityFloor)
    {a : Allocation K} (h : e.evaluate index tree = .ok a) :
    (∀ p ∈ a.percentages, 0 ≤ p) ∧
      (tree.Prudent → (∀ p ∈ a.percentages, p ≤ 100) ∧ a.percentages.sum ≤ 100) := by
  have nonneg : ∀ p ∈ a.percentages, 0 ≤ p := by
    refine (accounts_evaluate .free hf (fun m _ => ?_) h).1
    cases m <;> trivial
  refine ⟨nonneg, fun hp => ?_⟩
  have total := (Allocation.fair_iff.1 (fair_of_evaluate hf hp h)).2
  exact ⟨fun p hp => (List.single_le_sum nonneg p hp).trans total, total⟩

/-- An evaluator for trees without conditions and rankings, by the default settings. -/
def plain (tradeable : SortedSet String) : Evaluator ℚ := ⟨tradeable, ⟨.empty⟩, .empty, .default⟩

/-- Most in stocks and bonds, some in stocks alone, and the rest in nothing. -/
def thriftyTree : Node ℚ :=
  .split "thrifty" none .root
    [.split "parts" none .specified
      [.split "both" (some ⟨60, 100⟩) .equal
        [.asset "stocks" none "SPY", .asset "bonds" none "TLT"],
        .split "more" (some ⟨30, 100⟩) (.group none) [.asset "stocks" none "SPY"]]]

theorem percentages_in_range_thriftyTree :
    ∃ r a, Requirements.ofTree thriftyTree = .ok r ∧
      (plain r.tradeable).evaluate 0 thriftyTree = .ok a ∧ a.percentages = [60, 30] ∧
      (∀ p ∈ a.percentages, 0 ≤ p) ∧ (∀ p ∈ a.percentages, p ≤ 100) ∧
      a.percentages.sum ≤ 100 := by
  have checked : (do
      let r ← Requirements.ofTree thriftyTree
      let a ← (plain r.tradeable).evaluate 0 thriftyTree
      return decide (a.percentages = [60, 30])) = .ok true := by
    decide +kernel
  obtain ⟨r, hr, checked⟩ := Except.bind_eq_ok.1 checked
  obtain ⟨a, ha, checked⟩ := Except.bind_eq_ok.1 checked
  have percentages := of_decide_eq_true (Except.ok.inj checked)
  have prudent : thriftyTree.Prudent := by decide +kernel
  have floor : (0 : ℚ) < (Settings.default : Settings ℚ).volatilityFloor := by decide +kernel
  obtain ⟨nonneg, most⟩ := percentages_in_range hr floor ha
  exact ⟨r, a, hr, ha, percentages, nonneg, most prudent⟩

/-- A root with two children, each of which gets everything. -/
def crowdedTree : Node ℚ :=
  .split "crowded" none .root [.asset "stocks" none "SPY", .asset "bonds" none "TLT"]

/-- A part that is more than the whole. -/
def lavishTree : Node ℚ :=
  .split "lavish" none .specified [.asset "stocks" (some ⟨3, 2⟩) "SPY"]

/-- Trees that are not prudent are accepted and give out more than the whole. -/
theorem percentages_exceed_whole :
    (∃ r a, Requirements.ofTree crowdedTree = .ok r ∧
      (plain r.tradeable).evaluate 0 crowdedTree = .ok a ∧ ¬ a.percentages.sum ≤ 100) ∧
    ∃ r a, Requirements.ofTree lavishTree = .ok r ∧
      (plain r.tradeable).evaluate 0 lavishTree = .ok a ∧ ¬ ∀ p ∈ a.percentages, p ≤ 100 := by
  have crowded : (do
      let r ← Requirements.ofTree crowdedTree
      let a ← (plain r.tradeable).evaluate 0 crowdedTree
      return decide (¬ a.percentages.sum ≤ 100)) = .ok true := by
    decide +kernel
  have lavish : (do
      let r ← Requirements.ofTree lavishTree
      let a ← (plain r.tradeable).evaluate 0 lavishTree
      return decide (¬ ∀ p ∈ a.percentages, p ≤ 100)) = .ok true := by
    decide +kernel
  constructor
  · obtain ⟨r, hr, crowded⟩ := Except.bind_eq_ok.1 crowded
    obtain ⟨a, ha, crowded⟩ := Except.bind_eq_ok.1 crowded
    exact ⟨r, a, hr, ha, of_decide_eq_true (Except.ok.inj crowded)⟩
  · obtain ⟨r, hr, lavish⟩ := Except.bind_eq_ok.1 lavish
    obtain ⟨a, ha, lavish⟩ := Except.bind_eq_ok.1 lavish
    exact ⟨r, a, hr, ha, of_decide_eq_true (Except.ok.inj lavish)⟩

end Evaluator

end StrategyTree
