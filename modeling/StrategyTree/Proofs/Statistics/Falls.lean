import Mathlib.Algebra.Order.Field.Basic
import Mathlib.Order.Bounds.Basic
import Mathlib.Tactic.Linarith
import Mathlib.Tactic.Positivity
import StrategyTree.Performance
import StrategyTree.Proofs.BalanceCurve

/-!
# The largest fall of a list

A drawdown is found in one pass that keeps the highest value so far and the largest fall from it.
What it means takes pairs: a value, and a value that does not come before it. In exact arithmetic
and for numbers that are not negative, the pass finds the largest fall of all pairs. The reason is
that no fall down to a value is larger than the fall from the highest value before it.

* `Statistics.IsFall`: the falls of a list, one for each pair.
* `Peak.Tracks`: what the pass knows after a stretch of a list; `Peak.Tracks.step` takes in a value.
* `Statistics.isGreatest_largestFall`: the pass finds the largest fall.
* `Statistics.drawdown_eq_largest_fall`: both drawdowns, of prices and of balances.
-/

namespace StrategyTree

namespace Statistics

open Scalar

variable {K : Type} [Field K] [LinearOrder K]

/-! ## The falls of a list -/

/-- A fall from a positive value of a list to a value that does not come before it, by a measure. -/
def IsFall (measure : K → K → K) (xs : List K) (d : K) : Prop :=
  ∃ (i j : Nat) (a b : K), i ≤ j ∧ xs[i]? = some a ∧ xs[j]? = some b ∧ 0 < a ∧ d = measure a b

/-- What makes a measure of falls one: a rise counts as no fall at all, and a fall to the same value
is larger from a higher one. -/
structure FallMeasure (measure : K → K → K) : Prop where
  rise : ∀ {a b}, 0 < a → a ≤ b → measure a b ≤ 0
  higher : ∀ {a t b}, 0 < a → a ≤ t → 0 ≤ b → measure a b ≤ measure t b

/-- The falls of a list with one value more are those of the list, and those down to that value. -/
theorem isFall_append_singleton {measure : K → K → K} {xs : List K} {x d : K} :
    IsFall measure (xs ++ [x]) d ↔
      IsFall measure xs d ∨ ∃ a ∈ xs ++ [x], 0 < a ∧ d = measure a x := by
  constructor
  · rintro ⟨i, j, a, b, hij, ha, hb, pos, rfl⟩
    rcases Nat.lt_or_ge j xs.length with hj | hj
    · rw [List.getElem?_append_left (by omega)] at ha hb
      exact .inl ⟨i, j, a, b, hij, ha, hb, pos, rfl⟩
    · rw [List.getElem?_append_right hj, List.getElem?_singleton] at hb
      obtain rfl : x = b := by
        split at hb
        · exact Option.some.inj hb
        · cases hb
      exact .inr ⟨a, List.mem_of_getElem? ha, pos, rfl⟩
  · rintro (⟨i, j, a, b, hij, ha, hb, pos, rfl⟩ | ⟨a, ha, pos, rfl⟩)
    · have hj : j < xs.length := (List.getElem?_eq_some_iff.1 hb).1
      refine ⟨i, j, a, b, hij, ?_, ?_, pos, rfl⟩
      · rwa [List.getElem?_append_left (by omega)]
      · rwa [List.getElem?_append_left hj]
    · obtain ⟨i, hi⟩ := List.getElem?_of_mem ha
      have bound : i < (xs ++ [x]).length := (List.getElem?_eq_some_iff.1 hi).1
      rw [List.length_append, List.length_singleton] at bound
      exact ⟨i, xs.length, a, x, by omega, hi, by simp, pos, rfl⟩

/-! ## The pass -/

omit [Field K] in
/-- The highest value of a list with one value more. -/
theorem isGreatest_append_singleton {xs : List K} {top : K} (h : IsGreatest {y | y ∈ xs} top)
    (x : K) : IsGreatest {y | y ∈ xs ++ [x]} (max x top) := by
  have one_more : {y | y ∈ xs ++ [x]} = insert x {y | y ∈ xs} := by
    ext y
    simp [or_comm]
  rw [one_more]
  exact h.insert x

/-- What the pass knows after a stretch of a list: the highest value, if there is one, and the
largest fall, which is zero where nothing falls. -/
structure Peak.Tracks (measure : K → K → K) (seen : List K) (s : Peak K) : Prop where
  start : s.top = none → seen = []
  top : ∀ t, s.top = some t → IsGreatest {x | x ∈ seen} t
  fall : IsGreatest {d | d = 0 ∨ IsFall measure seen d} s.fall

variable {measure : K → K → K} {seen : List K} {s : Peak K} {x : K}

theorem Peak.Tracks.nonneg (h : s.Tracks measure seen) : 0 ≤ s.fall := h.fall.2 (.inl rfl)

/-- The largest fall stays the same if no fall down to the next value is larger. -/
theorem Peak.Tracks.fall_append (h : s.Tracks measure seen)
    (small : ∀ a ∈ seen ++ [x], 0 < a → measure a x ≤ s.fall) :
    IsGreatest {d | d = 0 ∨ IsFall measure (seen ++ [x]) d} s.fall := by
  obtain ⟨attained, bound⟩ := h.fall
  refine ⟨attained.imp_right fun fall => isFall_append_singleton.2 (.inl fall), ?_⟩
  rintro d (rfl | fall)
  · exact bound (.inl rfl)
  · rcases isFall_append_singleton.1 fall with old | ⟨a, ha, pos, rfl⟩
    · exact bound (.inr old)
    · exact small a ha pos

/-- A value at which the pass finds no fall: the values before it are not higher, or none of them is
positive. -/
theorem Peak.Tracks.fall_append_of_rise (h : s.Tracks measure seen) (hm : FallMeasure measure)
    (rise : ∀ a ∈ seen, 0 < a → a ≤ x) :
    IsGreatest {d | d = 0 ∨ IsFall measure (seen ++ [x]) d} s.fall := by
  refine h.fall_append fun a ha pos => (hm.rise pos ?_).trans h.nonneg
  rcases List.mem_append.1 ha with ha | ha
  · exact rise a ha pos
  · exact (List.mem_singleton.1 ha).le

variable [Roots K]

/-- A value at which the pass measures a fall: the highest value is positive, and no other fall down
to the value is larger than the one from there. -/
theorem Peak.Tracks.fall_append_of_fall (h : s.Tracks measure seen) (hm : FallMeasure measure)
    (hx : 0 ≤ x) {top : K} (highest : IsGreatest {y | y ∈ seen ++ [x]} top) (positive : 0 < top) :
    IsGreatest {d | d = 0 ∨ IsFall measure (seen ++ [x]) d} (larger s.fall (measure top x)) := by
  have down : ∀ a ∈ seen ++ [x], 0 < a → measure a x ≤ measure top x := fun a ha pos =>
    hm.higher pos (highest.2 ha) hx
  unfold larger
  split
  · rename_i larger
    refine ⟨.inr (isFall_append_singleton.2 (.inr ⟨top, highest.1, positive, rfl⟩)), ?_⟩
    rintro d (rfl | isFall)
    · exact h.nonneg.trans larger.le
    · rcases isFall_append_singleton.1 isFall with old | ⟨a, ha, pos, rfl⟩
      · exact (h.fall.2 (.inr old)).trans larger.le
      · exact down a ha pos
  · rename_i smaller
    exact h.fall_append fun a ha pos => (down a ha pos).trans (not_lt.1 smaller)

/-- One step of the pass. -/
theorem Peak.Tracks.step (h : s.Tracks measure seen) (hm : FallMeasure measure) (hx : 0 ≤ x) :
    (s.step measure x).Tracks measure (seen ++ [x]) := by
  obtain ⟨top, fall⟩ := s
  cases top with
  | none =>
    obtain rfl := h.start rfl
    refine ⟨fun e => (by cases e), fun t e => ?_, h.fall_append_of_rise hm (by simp)⟩
    obtain rfl : x = t := Option.some.inj e
    simp [IsGreatest]
  | some top =>
    have highest := isGreatest_append_singleton (h.top top rfl) x
    rw [Peak.step]
    dsimp only
    split
    · -- the next value is the highest one
      rename_i higher
      rw [max_eq_left higher.le] at highest
      refine ⟨fun e => (by cases e), ?_, h.fall_append_of_rise hm fun a ha _ =>
        highest.2 (List.mem_append_left _ ha)⟩
      rintro t ⟨⟩
      exact highest
    · rename_i lower
      rw [max_eq_right (not_lt.1 lower)] at highest
      have highest' : ∀ t, some top = some t → IsGreatest {y | y ∈ seen ++ [x]} t := by
        rintro t ⟨⟩
        exact highest
      split
      · rename_i positive
        exact ⟨fun e => (by cases e), highest',
          h.fall_append_of_fall hm hx highest (Exact.zero_lt_iff.1 positive)⟩
      · -- nothing seen is positive
        rename_i notPositive
        rw [Exact.zero_lt_iff, not_lt] at notPositive
        exact ⟨fun e => (by cases e), highest', h.fall_append_of_rise hm fun a ha pos =>
          absurd (pos.trans_le ((highest.2 (List.mem_append_left _ ha)).trans notPositive))
            (lt_irrefl 0)⟩

theorem Peak.tracks_nil (measure : K → K → K) : (⟨none, zero⟩ : Peak K).Tracks measure [] := by
  refine ⟨fun _ => rfl, fun t e => (by cases e), .inl Exact.zero_eq, ?_⟩
  rintro d (rfl | ⟨i, j, a, b, -, ha, -⟩)
  · exact Exact.zero_eq.ge
  · cases ha

/-- The whole pass. The largest fall that a pass finds is the largest of all falls of the list,
or zero if nothing falls. -/
theorem isGreatest_largestFall (hm : FallMeasure measure) {xs : List K} (hx : ∀ x ∈ xs, 0 ≤ x) :
    IsGreatest {d | d = 0 ∨ IsFall measure xs d} (largestFall measure xs) := by
  have run : ∀ (rest seen : List K) (s : Peak K), (∀ x ∈ rest, 0 ≤ x) → s.Tracks measure seen →
      (rest.foldl (Peak.step measure) s).Tracks measure (seen ++ rest) := by
    intro rest
    induction rest with
    | nil => intro seen s _ h; rwa [List.append_nil]
    | cons x rest ih =>
      intro seen s nonneg h
      rw [List.forall_mem_cons] at nonneg
      rw [List.foldl_cons, List.append_cons]
      exact ih _ _ nonneg.2 (h.step hm nonneg.1)
  exact (run xs [] _ hx (Peak.tracks_nil measure)).fall

/-! ## Both drawdowns -/

theorem fallPercent_eq (a b : K) : fallPercent a b = (a - b) / a * 100 := by
  rw [fallPercent, Exact.hundred_eq]

theorem isFall_percent_iff {xs : List K} {d : K} :
    IsFall fallPercent xs d ↔ ∃ f, IsFall fallFraction xs f ∧ d = f * 100 := by
  constructor
  · rintro ⟨i, j, a, b, hij, ha, hb, pos, rfl⟩
    exact ⟨_, ⟨i, j, a, b, hij, ha, hb, pos, rfl⟩, fallPercent_eq a b⟩
  · rintro ⟨_, ⟨i, j, a, b, hij, ha, hb, pos, rfl⟩, rfl⟩
    exact ⟨i, j, a, b, hij, ha, hb, pos, (fallPercent_eq a b).symm⟩

variable [IsStrictOrderedRing K]

theorem fallMeasure_fraction : FallMeasure (fallFraction : K → K → K) where
  rise pos rise := div_nonpos_of_nonpos_of_nonneg (sub_nonpos.2 rise) pos.le
  higher {a t b} pos higher nonneg := by
    have split : ∀ {c : K}, 0 < c → fallFraction c b = 1 - b / c := fun hc => by
      rw [fallFraction, sub_div, div_self hc.ne']
    rw [split pos, split (pos.trans_le higher)]
    exact sub_le_sub_left (div_le_div_of_nonneg_left nonneg pos higher) 1

theorem fallMeasure_percent : FallMeasure (fallPercent : K → K → K) where
  rise pos rise := by
    rw [fallPercent_eq]
    exact mul_nonpos_of_nonpos_of_nonneg (fallMeasure_fraction.rise pos rise) (by norm_num)
  higher pos higher nonneg := by
    rw [fallPercent_eq, fallPercent_eq]
    exact mul_le_mul_of_nonneg_right (fallMeasure_fraction.higher pos higher nonneg) (by norm_num)

/-- The drawdown of prices measures each fall in percent. -/
theorem isGreatest_drawdown {xs : List K} (hx : ∀ x ∈ xs, 0 ≤ x) :
    IsGreatest {d | d = 0 ∨ IsFall fallPercent xs d} (drawdown xs) :=
  isGreatest_largestFall fallMeasure_percent hx

/-- The drawdown of balances takes the percentage of the largest fall only. -/
theorem isGreatest_fallFromPeak {xs : List K} (hx : ∀ x ∈ xs, 0 ≤ x) :
    IsGreatest {d | d = 0 ∨ IsFall fallPercent xs d} (Performance.fallFromPeak xs) := by
  obtain ⟨attained, bound⟩ := isGreatest_largestFall fallMeasure_fraction hx
  rw [Performance.fallFromPeak, Exact.hundred_eq]
  constructor
  · rcases attained with none | fall
    · exact .inl (by rw [none, zero_mul])
    · exact .inr (isFall_percent_iff.2 ⟨_, fall, rfl⟩)
  · rintro d (rfl | fall)
    · exact mul_nonneg (bound (.inl rfl)) (by norm_num)
    · obtain ⟨f, isFall, rfl⟩ := isFall_percent_iff.1 fall
      exact mul_le_mul_of_nonneg_right (bound (.inr isFall)) (by norm_num)

theorem fallPercent_le {a b : K} (ha : 0 < a) (hb : 0 ≤ b) : fallPercent a b ≤ 100 := by
  have part : (a - b) / a ≤ 1 := (div_le_one ha).2 (sub_le_self a hb)
  rw [fallPercent_eq]
  linarith

theorem fallPercent_pos {a b : K} (ha : 0 < a) (hb : b < a) : 0 < fallPercent a b := by
  have part : 0 < (a - b) / a := div_pos (sub_pos.2 hb) ha
  rw [fallPercent_eq]
  positivity

/-- **Main theorem: a drawdown is the largest fall of all pairs.** Let no number of a list be
negative. Then the drawdown of the list as prices and its drawdown as balances are both the largest
of zero and of the falls, in percent, from a positive value to one that does not come before it.
They lie between 0 and 100, and they are zero exactly if the list never falls. -/
theorem drawdown_eq_largest_fall {xs : List K} (hx : ∀ x ∈ xs, 0 ≤ x) :
    IsGreatest {d | d = 0 ∨ ∃ (i j : Nat) (a b : K), i ≤ j ∧ xs[i]? = some a ∧ xs[j]? = some b ∧
      0 < a ∧ d = (a - b) / a * 100} (drawdown xs) ∧
    Performance.fallFromPeak xs = drawdown xs ∧
    0 ≤ drawdown xs ∧ drawdown xs ≤ 100 ∧
    (drawdown xs = 0 ↔ xs.Pairwise (· ≤ ·)) := by
  have largest := isGreatest_drawdown hx
  have at_least : ∀ {d}, IsFall fallPercent xs d → d ≤ drawdown xs := fun fall =>
    largest.2 (.inr fall)
  have falls : drawdown xs = 0 ↔ ∀ d, IsFall fallPercent xs d → d ≤ 0 := by
    constructor
    · intro zero d fall
      exact zero ▸ at_least fall
    · intro small
      rcases largest.1 with zero | fall
      · exact zero
      · exact le_antisymm (small _ fall) (largest.2 (.inl rfl))
  refine ⟨by simpa only [IsFall, fallPercent_eq] using largest,
    (isGreatest_fallFromPeak hx).unique largest, largest.2 (.inl rfl), ?_, ?_⟩
  · rcases largest.1 with zero | ⟨i, j, a, b, -, -, hb, pos, fall⟩
    · rw [zero]
      norm_num
    · rw [fall]
      exact fallPercent_le pos (hx b (List.mem_of_getElem? hb))
  · rw [falls, List.pairwise_iff_getElem]
    constructor
    · intro small i j hi hj hij
      by_contra fall
      rw [not_le] at fall
      have pos : 0 < xs[i] := (hx _ (List.getElem_mem hj)).trans_lt fall
      have isFall : IsFall fallPercent xs (fallPercent xs[i] xs[j]) :=
        ⟨i, j, _, _, hij.le, List.getElem?_eq_getElem hi, List.getElem?_eq_getElem hj, pos, rfl⟩
      exact absurd (small _ isFall) (not_le.2 (fallPercent_pos pos fall))
    · rintro ascending d ⟨i, j, a, b, hij, ha, hb, pos, rfl⟩
      obtain ⟨hi, rfl⟩ := List.getElem?_eq_some_iff.1 ha
      obtain ⟨hj, rfl⟩ := List.getElem?_eq_some_iff.1 hb
      refine fallMeasure_percent.rise pos ?_
      rcases hij.eq_or_lt with rfl | hij
      · exact le_rfl
      · exact ascending i j hi hj hij

/-- A list that starts at zero, reaches its peak twice, and falls to zero and by half. -/
def dippingValues : List ℚ := [0, 50, 100, 100, 80, 0, 120, 60, 90]

theorem drawdown_eq_largest_fall_dippingValues :
    (∀ x ∈ dippingValues, 0 ≤ x) ∧
    IsGreatest {d | d = 0 ∨ ∃ (i j : Nat) (a b : ℚ), i ≤ j ∧ dippingValues[i]? = some a ∧
      dippingValues[j]? = some b ∧ 0 < a ∧ d = (a - b) / a * 100} (drawdown dippingValues) ∧
    Performance.fallFromPeak dippingValues = drawdown dippingValues ∧
    0 ≤ drawdown dippingValues ∧ drawdown dippingValues ≤ 100 ∧
    (drawdown dippingValues = 0 ↔ dippingValues.Pairwise (· ≤ ·)) := by
  have nonneg : ∀ x ∈ dippingValues, 0 ≤ x := by decide +kernel
  exact ⟨nonneg, drawdown_eq_largest_fall nonneg⟩

end Statistics

end StrategyTree
