import Mathlib.Algebra.Order.Field.Power
import StrategyTree.Configuration
import StrategyTree.Proofs.BalanceCurve
import StrategyTree.Proofs.Evaluation.Trace
import StrategyTree.Proofs.Evaluation.Weights
import StrategyTree.Proofs.Requirements.Faults

/-!
# Divisions of an evaluation

Three parts of the engine keep evaluation from dividing by zero. A tree is refused for a weight over
zero, a configuration for a floor that is not positive, and a split does not divide by the number of
children it shares among where there are none. In exact arithmetic these are enough: whatever
indicators and statistics an evaluation reads, and also if it fails, every divisor is positive and
no node is handed a negative weight.

* `Double.exact`, `Settings.exact`: the numbers that doubles stand for.
* `Rule.does_traceShares`: one split.
* `Evaluator.does_trace`: one tree, by the induction over it.
* `Evaluator.divisors_positive`: the evaluation of an accepted tree under the settings of a
  configuration.
-/

namespace StrategyTree

variable {K : Type} [Field K] [LinearOrder K]

/-! ## Settings in exact arithmetic -/

/-- The number that a double stands for. Infinities and NaN stand for none; they count as zero. -/
def Double.exact (x : Float) : K :=
  match x.toModel.unpack with
  | .finite .positive mantissa exponent _ => mantissa * 2 ^ exponent
  | .finite .negative mantissa exponent _ => -(mantissa * 2 ^ exponent)
  | .zero _ | .infinity _ | .notANumber => 0

/-- The settings, with their doubles taken as the numbers they stand for. -/
def Settings.exact (s : Settings Float) : Settings K where
  volatilityFloor := Double.exact s.volatilityFloor
  nestingLimit := s.nestingLimit
  riskFreeRate := Double.exact s.riskFreeRate

section Positive

variable [IsStrictOrderedRing K]

namespace Double

theorem le_iff {x y : Float} : x ≤ y ↔ x.toModel.unpack.le y.toModel.unpack = true := by
  show decide (x.toModel.unpack.le y.toModel.unpack = true) = true ↔ _
  exact decide_eq_true_iff

theorem unpack_zero : (0.0 : Float).toModel.unpack = .zero .positive := rfl

/-- A finite double that is not at most zero stands for a positive number. -/
theorem exact_pos {x : Float} (hx : ¬ x ≤ 0.0) (hfinite : x.isFinite = true) :
    0 < (exact x : K) := by
  rw [le_iff, unpack_zero] at hx
  have hfinite : x.toModel.unpack.isFinite = true := hfinite
  unfold exact
  generalize x.toModel.unpack = u at hx hfinite
  cases u with
  | infinity sign => cases hfinite
  | notANumber => cases hfinite
  | zero sign => exact absurd rfl hx
  | finite sign mantissa exponent hm =>
    cases sign with
    | negative => exact absurd rfl hx
    | positive => exact mul_pos (Nat.cast_pos.2 hm) (zpow_pos two_pos exponent)

end Double

namespace Configuration

/-- Settings that are within their ranges have a finite floor above zero. -/
theorem floor_of_validate {s : Settings Float} (h : validate s = .ok ()) :
    ¬ s.volatilityFloor ≤ 0.0 ∧ s.volatilityFloor.isFinite = true := by
  unfold validate at h
  by_cases refused : (decide (s.volatilityFloor ≤ 0.0) || !s.volatilityFloor.isFinite) = true
  · rw [if_pos refused] at h
    cases h
  · simpa using refused

/-- The floor. The floor of the settings of a configuration stands for a positive number. -/
theorem exact_volatilityFloor_pos {c : Configuration} {s : Settings Float}
    (h : c.settings = .ok s) : 0 < (s.exact : Settings K).volatilityFloor := by
  obtain ⟨_, valid, h⟩ := Except.bind_eq_ok.1 h
  cases h
  obtain ⟨above, finite⟩ := floor_of_validate valid
  exact Double.exact_pos above finite

end Configuration

end Positive

/-! ## Weights of accepted trees -/

namespace Node

variable {α : Type} {n : Node α}

/-- No node of a tree has a weight over zero. -/
def Weighable (n : Node α) : Prop :=
  ∀ m ∈ n.nodes, ∀ f, m.weight = some f → 0 < f.denominator

theorem Weighable.own (h : n.Weighable) : ∀ f, n.weight = some f → 0 < f.denominator :=
  h n n.self_mem_nodes

theorem Weighable.child (h : n.Weighable) {c : Node α} (hc : c ∈ n.children) : c.Weighable :=
  fun m hm => h m (nodes_subset (child_mem_nodes hc) hm)

/-- A tree that is accepted has no weight over zero: that would be a fault of it. -/
theorem weighable_of_ofTree {r : Requirements} (h : Requirements.ofTree n = .ok r) :
    n.Weighable := by
  have faultless : n.faults = [] := by
    have reports := Requirements.reports_ofTree n
    rw [h] at reports
    cases hfaults : n.faults with
    | nil => rfl
    | cons fault faults =>
      rw [hfaults] at reports
      cases reports
  intro m hm f hf
  apply Nat.pos_of_ne_zero
  intro zero
  exact faults_ne_nil_iff.2 ⟨m, hm, .inl ⟨f, hf, zero⟩⟩ faultless

end Node

/-! ## One split -/

variable [Roots K] [IsStrictOrderedRing K]

/-- A divisor is positive, and a weight that is handed on is not negative. -/
def Event.Sound : Event K → Prop
  | .divides divisor => 0 < divisor
  | .hands _ weight => 0 ≤ weight

theorem Weighting.does_traceTake (mode : Weighting) {own : Option Fraction} {passed : K}
    (hown : ∀ f, own = some f → 0 < f.denominator) (hp : 0 ≤ passed) :
    (mode.traceTake own passed).Does Event.Sound fun taken => ∀ w ∈ taken, 0 ≤ w := by
  unfold traceTake
  split
  · exact .pure fun w hw => Option.some.inj hw ▸ hp
  · exact .pure fun w hw => nomatch hw
  · rename_i f
    have ratio : 0 ≤ (Scalar.ofNat f.numerator : K) / Scalar.ofNat f.denominator :=
      div_nonneg (Nat.cast_nonneg f.numerator) (Nat.cast_nonneg f.denominator)
    refine .bind (.divide (P := fun x => 0 ≤ x) (Nat.cast_pos.2 (hown f rfl)) ratio) fun x hx => ?_
    exact .pure fun w hw => Option.some.inj hw ▸ mul_nonneg hx hp

namespace Rule

variable {β : Type} {floor weight : K} {statistic : β → Except Error K} {children : List β}

/-- What is expected of the shares of a split: they go to its children, and none is negative. -/
def Fine (children : List β) (shares : List (Share β K)) : Prop :=
  ∀ share ∈ shares, share.child ∈ children ∧ 0 ≤ share.weight

omit [Roots K] [IsStrictOrderedRing K] in
theorem fine_evenly {kept : List β} (hkept : kept ⊆ children) (mode : Weighting) (hw : 0 ≤ weight) :
    Fine children (evenly kept mode weight) := by
  intro share hs
  obtain ⟨c, hc, rfl⟩ := List.mem_map.1 hs
  exact ⟨hkept hc, hw⟩

/-- Equal parts of a weight, for a positive number of children. -/
theorem does_parts {kept : List β} {n : ℕ} (hn : 0 < n) (hkept : kept ⊆ children)
    (hw : 0 ≤ weight) :
    (Traced.divide weight (Scalar.ofNat n) >>= fun part => pure (evenly kept .equal part)).Does
      Event.Sound (Fine children) := by
  have count : 0 < (Scalar.ofNat n : K) := Nat.cast_pos.2 hn
  refine .bind (.divide (P := fun part => 0 ≤ part) count (div_nonneg hw count.le)) ?_
  exact fun part hpart => .pure (fine_evenly hkept _ hpart)

/-- Every inverse volatility is positive, and so is the volatility it is taken of. -/
theorem does_inverses (hf : 0 < floor) :
    (children.mapM fun c => do
      let volatility ← Traced.quiet (statistic c)
      Traced.divide Scalar.one (effectiveVolatility floor volatility)).Does Event.Sound
      fun inverses => ∀ x ∈ inverses, 0 < x := by
  refine .mapM fun c _ => .bind (.quiet _) fun v _ => ?_
  have volatility := effectiveVolatility_pos hf v
  refine .divide volatility ?_
  rw [Exact.one_eq]
  exact one_div_pos.2 volatility

/-- One split. Whatever statistics it reads, a split divides by positive numbers only, and its
shares are not negative. -/
theorem does_traceShares (rule : Rule) (hf : 0 < floor) (hw : 0 ≤ weight) :
    (rule.traceShares floor statistic children weight).Does Event.Sound (Fine children) := by
  cases rule with
  | root | group _ | specified => exact .pure (fine_evenly (List.Subset.refl _) _ hw)
  | equal => exact does_parts (by omega) (List.Subset.refl _) hw
  | inverseVolatility window =>
    refine .bind (does_inverses hf) fun inverses positive => ?_
    dsimp only
    -- a quotient by the sum is only taken for a child, and then the sum has a term
    refine .mapM (Q := fun share : Share β K => share.child ∈ children ∧ 0 ≤ share.weight)
      fun p hp => ?_
    obtain ⟨hc, hx⟩ := List.of_mem_zip hp
    have total : 0 < Scalar.sum inverses := by
      rw [Exact.sum_eq]
      exact List.sum_pos inverses positive (List.ne_nil_of_mem hx)
    refine .bind (.divide (P := fun part => 0 ≤ part) total
      (div_nonneg (positive _ hx).le total.le)) fun part hpart => ?_
    exact .pure ⟨hc, mul_nonneg hpart hw⟩
  | filter ranking select count =>
    refine .bind (.quiet _) fun values _ => ?_
    dsimp only
    split
    · exact .pure fun share hs => absurd hs List.not_mem_nil
    · rename_i some_kept
      refine does_parts ?_ (fun c hc => ?_) hw
      · exact List.length_pos_of_ne_nil fun none => some_kept (List.isEmpty_iff.2 none)
      · obtain ⟨p, hp, rfl⟩ := List.mem_map.1 hc
        exact (List.of_mem_zip (List.mem_mergeSort.1 (mem_of_mem_keep hp))).2

end Rule

/-! ## The walk -/

namespace Evaluator

variable {e : Evaluator K} {index : ℕ}

theorem does_traceWeight {id : String} {own : Option Fraction} (mode : Weighting) {passed : K}
    {s : Evaluation K} {go : K → Traced K (Evaluation K)}
    (hown : ∀ f, own = some f → 0 < f.denominator) (hp : 0 ≤ passed)
    (hgo : ∀ weight, 0 ≤ weight → (go weight).Does Event.Sound fun _ => True) :
    (traceWeight id own mode passed s go).Does Event.Sound fun _ => True := by
  refine .bind (.hand hp) fun _ _ => .bind (mode.does_traceTake hown hp) fun taken htaken => ?_
  cases taken with
  | none => exact .pure trivial
  | some weight => exact hgo weight (htaken weight rfl)

/-- One tree. A visit of a tree without weights over zero divides by positive numbers only and
hands on no negative weight. -/
theorem does_trace (hf : 0 < e.settings.volatilityFloor) (n : Node K) :
    n.Weighable → ∀ mode {passed : K}, 0 ≤ passed → ∀ s,
      (e.trace index n mode passed s).Does Event.Sound fun _ => True := by
  induction n using Node.induction with
  | asset id own ticker =>
    intro hn mode passed hp s
    rw [trace]
    exact does_traceWeight mode hn.own hp fun weight _ => .pure trivial
  | unknown id own =>
    intro hn mode passed hp s
    rw [trace]
    exact does_traceWeight mode hn.own hp fun weight _ => .pure trivial
  | choice id own conditions yes no hyes hno =>
    intro hn mode passed hp s
    rw [trace]
    refine does_traceWeight mode hn.own hp fun weight hw => ?_
    refine .bind (.quiet _) fun decided _ => ?_
    obtain ⟨passes, s⟩ := decided
    cases passes with
    | false => exact hno (hn.child (.tail yes (.head []))) .equal hw s
    | true => exact hyes (hn.child (.head [no])) .equal hw s
  | split id own rule children ih =>
    intro hn mode passed hp s
    rw [trace]
    refine does_traceWeight mode hn.own hp fun weight hw => ?_
    refine .bind (rule.does_traceShares hf hw) fun shares fine => .foldlM (fun share hs s => ?_) s
    obtain ⟨hc, hshare⟩ := fine share hs
    rw [tracers_eq_map] at hc
    obtain ⟨c, hc, visits⟩ := List.mem_map.1 hc
    rw [← visits]
    exact ih c hc (hn.child hc) share.mode hshare s

/-- **Main theorem: no division by zero.** Let the settings be those of a configuration, taken
exactly, and let the tree be one that is accepted. Then its evaluation on any day, whatever the
indicators and statistics it reads, divides by positive numbers only and hands no node a negative
weight, be it that it ends in an allocation or in an error. -/
theorem divisors_positive {c : Configuration} {s : Settings Float} (hs : c.settings = .ok s)
    (he : e.settings = s.exact) {tree : Node K} {r : Requirements}
    (hr : Requirements.ofTree tree = .ok r) (index : ℕ) :
    (e.traceEvaluate index tree).outcome = e.evaluate index tree ∧
    (∀ divisor, .divides divisor ∈ (e.traceEvaluate index tree).events → 0 < divisor) ∧
    ∀ node weight, .hands node weight ∈ (e.traceEvaluate index tree).events → 0 ≤ weight := by
  have floor : 0 < e.settings.volatilityFloor := by
    rw [he]
    exact Configuration.exact_volatilityFloor_pos hs
  have hundred : (0 : K) ≤ Scalar.hundred := by
    rw [Exact.hundred_eq]
    norm_num
  have walk : (e.trace index tree .equal Scalar.hundred {}).Does Event.Sound fun _ => True :=
    does_trace floor tree (Node.weighable_of_ofTree hr) .equal hundred {}
  have sound : (e.traceEvaluate index tree).Does Event.Sound fun _ => True :=
    .bind walk fun _ _ => .pure trivial
  exact ⟨outcome_traceEvaluate tree, fun divisor h => sound.events _ h,
    fun node weight h => sound.events _ h⟩

/-- A configuration with a floor of a half. -/
def halfFloor : Configuration :=
  ⟨.ofList [("engine", .ofList [("inverse_volatility_floor", some "0.5")])]⟩

/-- The settings of `halfFloor`. -/
def halfSettings : Settings Float := ⟨0.5, 3, 0.0⟩

/-- An evaluator that knows a volatility of zero and, out of order, a negative one. -/
def calmEvaluator : Evaluator ℚ :=
  ⟨.empty, ⟨.empty⟩, ⟨.ofList [("gold", ⟨0, [0]⟩), ("cash", ⟨0, [-1]⟩)]⟩, halfSettings.exact⟩

/-- A split by inverse volatility next to one without children. -/
def hollowTree : Node ℚ :=
  .split "parts" none .specified
    [.split "calm" (some ⟨2, 3⟩) (.inverseVolatility 20)
      [.asset "gold" none "GLD", .asset "cash" none "BIL"],
      .split "hollow" (some ⟨1, 3⟩) .equal []]

/-- The floor stands in for both volatilities, so that the sum of their inverses is 4; the empty
split divides by 1. -/
theorem divisors_positive_hollowTree :
    let x := calmEvaluator.traceEvaluate 0 hollowTree
    x.events = [.hands "parts" 100, .hands "calm" 100, .divides 3, .divides (1 / 2),
      .divides (1 / 2), .divides 4, .divides 4, .hands "gold" (100 / 3), .hands "cash" (100 / 3),
      .hands "hollow" 100, .divides 3, .divides 1] ∧
    x.outcome = calmEvaluator.evaluate 0 hollowTree ∧
    (∀ divisor, .divides divisor ∈ x.events → 0 < divisor) ∧
    ∀ node weight, .hands node weight ∈ x.events → 0 ≤ weight := by
  have settings : halfFloor.settings = .ok halfSettings := by rfl
  have accepted : (Requirements.ofTree hollowTree).isOk = true := by decide +kernel
  obtain ⟨r, hr⟩ := Outcome.exists_of_isOk accepted
  exact ⟨by decide +kernel, divisors_positive settings rfl hr 0⟩

end Evaluator

end StrategyTree
