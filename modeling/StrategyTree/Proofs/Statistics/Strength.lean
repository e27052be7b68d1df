import Mathlib.Algebra.Order.BigOperators.Group.List
import Mathlib.Algebra.Order.Field.Basic
import Mathlib.Tactic.Linarith
import StrategyTree.Proofs.BalanceCurve
import StrategyTree.Proofs.Causality.LookBack
import StrategyTree.Proofs.Simulation.Tables

/-!
# The range of relative strength

Relative strength weighs a smoothed mean gain against a smoothed mean loss. In exact arithmetic both
means stay non-negative, so that it lies between 0 and 100. Smoothing over two closes or more keeps
a part of every mean, so that no loss is ever forgotten: relative strength is 100 exactly as long as
the closes have not fallen, and 0 exactly as long as they have not risen, but fallen once.

* `Strength.Nonneg`: both means are non-negative.
* `Strength.Remembers`: a mean is zero only if nothing so far has gone into it.
* `relativeStrength_extremes`: the values, their range, and when they are at its ends.
-/

namespace StrategyTree

namespace Indicator

open Scalar

variable {K : Type} [Field K] [LinearOrder K]

/-! ## Changes -/

/-- The changes from each close to the next one. -/
def changes (closes : List K) : List K := List.zipWith (fun a b => b - a) closes closes.tail

omit [LinearOrder K] in
theorem length_changes (closes : List K) : (changes closes).length = closes.length - 1 := by
  rw [changes, List.length_zipWith, List.length_tail, Nat.min_eq_right (Nat.sub_le _ _)]

omit [LinearOrder K] in
theorem take_changes (closes : List K) (i : Nat) :
    (changes closes).take i = changes (closes.take (i + 1)) := by
  have same := LooksBack.neighbours (fun a b : K => b - a) i closes (closes.take (i + 1))
    (by rw [List.take_take, Nat.min_self])
  refine same.trans (List.take_of_length_le ?_)
  change (changes _).length ≤ i
  rw [length_changes, List.length_take]
  omega

omit [LinearOrder K] in
theorem forall_changes_iff {P : K → Prop} (closes : List K) :
    (∀ c ∈ changes closes, P c) ↔ closes.IsChain fun a b => P (b - a) := by
  induction closes with
  | nil => simp [changes]
  | cons a rest ih =>
    cases rest with
    | nil => simp [changes]
    | cons b rest =>
      rw [List.isChain_cons_cons, ← ih]
      exact List.forall_mem_cons

variable [IsStrictOrderedRing K]

theorem changes_nonneg_iff {closes : List K} :
    (∀ c ∈ changes closes, 0 ≤ c) ↔ closes.Pairwise (· ≤ ·) := by
  rw [forall_changes_iff, ← List.isChain_iff_pairwise]
  simp only [sub_nonneg]

theorem changes_nonpos_iff {closes : List K} :
    (∀ c ∈ changes closes, c ≤ 0) ↔ closes.Pairwise (· ≥ ·) := by
  rw [forall_changes_iff, ← List.isChain_iff_pairwise]
  simp only [sub_nonpos, ge_iff_le]

/-! ## Gains and losses -/

variable [Roots K]

omit [IsStrictOrderedRing K] in
theorem gainOf_nonneg (c : K) : 0 ≤ gainOf c := by
  unfold gainOf
  split
  · rename_i pos
    exact (Exact.zero_lt_iff.1 pos).le
  · exact Exact.zero_eq.ge

omit [IsStrictOrderedRing K] in
theorem gainOf_eq_zero_iff {c : K} : gainOf c = 0 ↔ c ≤ 0 := by
  unfold gainOf
  split
  · rename_i pos
    rw [Exact.zero_lt_iff] at pos
    simp [pos.ne', pos]
  · rename_i notPos
    rw [Exact.zero_lt_iff, not_lt] at notPos
    simp [notPos]

theorem lossOf_eq (c : K) : lossOf c = gainOf (-c) := by
  unfold lossOf gainOf
  rw [Exact.zero_eq]
  simp only [neg_pos]

theorem lossOf_nonneg (c : K) : 0 ≤ lossOf c := by
  rw [lossOf_eq]
  exact gainOf_nonneg _

theorem lossOf_eq_zero_iff {c : K} : lossOf c = 0 ↔ 0 ≤ c := by
  rw [lossOf_eq, gainOf_eq_zero_iff, neg_nonpos]

/-! ## Means -/

omit [IsStrictOrderedRing K] [Roots K] in
theorem parts_nonneg {part : K → K} (h : ∀ c, 0 ≤ part c) (cs : List K) :
    ∀ x ∈ cs.map part, 0 ≤ x := by
  intro x hx
  obtain ⟨c, -, rfl⟩ := List.mem_map.1 hx
  exact h c

/-- The mean of the parts that changes contribute, of which none is negative. -/
theorem seed_nonneg {part : K → K} (h : ∀ c, 0 ≤ part c) (n : Nat) (cs : List K) :
    0 ≤ sum (cs.map part) / (ofNat n : K) := by
  rw [Exact.sum_eq]
  exact div_nonneg (List.sum_nonneg (parts_nonneg h cs)) (Nat.cast_nonneg n)

theorem seed_eq_zero_iff {part : K → K} (h : ∀ c, 0 ≤ part c) {n : Nat} (hn : 0 < n)
    (cs : List K) : sum (cs.map part) / (ofNat n : K) = 0 ↔ ∀ c ∈ cs, part c = 0 := by
  have nonzero : (ofNat n : K) ≠ 0 := Nat.cast_ne_zero.2 hn.ne'
  rw [div_eq_zero_iff, or_iff_left nonzero, Exact.sum_eq]
  constructor
  · intro zero c hc
    exact List.all_zero_of_le_zero_le_of_sum_eq_zero (parts_nonneg h cs) zero
      (List.mem_map_of_mem hc)
  · intro zero
    rw [List.map_congr_left zero]
    simp

theorem smoothed_nonneg {mean part : K} (hm : 0 ≤ mean) (hp : 0 ≤ part) (n : Nat) :
    0 ≤ (mean * ofNat (n - 1) + part) / ofNat n :=
  div_nonneg (add_nonneg (mul_nonneg hm (Nat.cast_nonneg _)) hp) (Nat.cast_nonneg n)

/-- A smoothed mean over two or more is zero only if the mean before was. -/
theorem smoothed_eq_zero_iff {mean part : K} (hm : 0 ≤ mean) (hp : 0 ≤ part) {n : Nat}
    (hn : 2 ≤ n) : (mean * ofNat (n - 1) + part) / ofNat n = 0 ↔ mean = 0 ∧ part = 0 := by
  have nonzero : (ofNat n : K) ≠ 0 := Nat.cast_ne_zero.2 (by omega)
  have kept : (ofNat (n - 1) : K) ≠ 0 := Nat.cast_ne_zero.2 (by omega)
  have weighed : 0 ≤ mean * ofNat (n - 1) := mul_nonneg hm (Nat.cast_nonneg _)
  rw [div_eq_zero_iff, or_iff_left nonzero, add_eq_zero_iff_of_nonneg weighed hp, mul_eq_zero,
    or_iff_left kept]

namespace Strength

/-- Neither mean is negative. -/
structure Nonneg (s : Strength K) : Prop where
  gain : 0 ≤ s.gain
  loss : 0 ≤ s.loss

/-- Whatever has been gained or lost over a stretch of changes has left a part in its mean. -/
structure Remembers (seen : List K) (s : Strength K) : Prop where
  gain : s.gain = 0 ↔ ∀ c ∈ seen, c ≤ 0
  loss : s.loss = 0 ↔ ∀ c ∈ seen, 0 ≤ c

variable {s : Strength K} {seen cs : List K} {n : Nat}

theorem nonneg_ofChanges (n : Nat) (cs : List K) : (ofChanges n cs).Nonneg :=
  ⟨seed_nonneg gainOf_nonneg n cs, seed_nonneg lossOf_nonneg n cs⟩

theorem Nonneg.step (h : s.Nonneg) (n : Nat) (c : K) : (step n s c).Nonneg :=
  ⟨smoothed_nonneg h.gain (gainOf_nonneg c) n, smoothed_nonneg h.loss (lossOf_nonneg c) n⟩

theorem Nonneg.foldl (h : s.Nonneg) (n : Nat) (cs : List K) :
    (cs.foldl (Strength.step n) s).Nonneg := by
  induction cs generalizing s with
  | nil => exact h
  | cons c cs ih => exact ih (h.step n c)

theorem remembers_ofChanges (hn : 0 < n) (cs : List K) : (ofChanges n cs).Remembers cs where
  gain := by simp only [ofChanges, seed_eq_zero_iff gainOf_nonneg hn, gainOf_eq_zero_iff]
  loss := by simp only [ofChanges, seed_eq_zero_iff lossOf_nonneg hn, lossOf_eq_zero_iff]

/-- One step of smoothing over two or more forgets nothing. -/
theorem Remembers.step (h : s.Remembers seen) (nonneg : s.Nonneg) (hn : 2 ≤ n) (c : K) :
    (step n s c).Remembers (seen ++ [c]) where
  gain := by
    rw [Strength.step, smoothed_eq_zero_iff nonneg.gain (gainOf_nonneg c) hn, h.gain,
      gainOf_eq_zero_iff, List.forall_mem_append, List.forall_mem_singleton]
  loss := by
    rw [Strength.step, smoothed_eq_zero_iff nonneg.loss (lossOf_nonneg c) hn, h.loss,
      lossOf_eq_zero_iff, List.forall_mem_append, List.forall_mem_singleton]

/-- A whole run of smoothing forgets nothing. -/
theorem Remembers.foldl (h : s.Remembers seen) (nonneg : s.Nonneg) (hn : 2 ≤ n) (cs : List K) :
    (cs.foldl (Strength.step n) s).Remembers (seen ++ cs) := by
  induction cs generalizing s seen with
  | nil => rwa [List.append_nil]
  | cons c cs ih =>
    rw [List.foldl_cons, List.append_cons]
    exact ih (h.step nonneg hn c) (nonneg.step n c)

/-! ## The share of gains -/

omit [IsStrictOrderedRing K] in
theorem index_of_loss_eq_zero (h : s.loss = 0) : s.index = 100 := by
  rw [index, if_pos (by rw [h, Exact.zero_eq]; exact beq_self_eq_true 0), Exact.hundred_eq]

omit [IsStrictOrderedRing K] in
theorem index_of_loss_ne_zero (h : s.loss ≠ 0) :
    s.index = 100 - 100 / (1 + s.gain / s.loss) := by
  have nonzero : ¬ (s.loss == zero) = true := by rwa [beq_iff_eq, Exact.zero_eq]
  rw [index, if_neg nonzero, Exact.hundred_eq, Exact.one_eq]

/-- The ratio of the means, over which relative strength is taken. -/
theorem Nonneg.ratio_nonneg (h : s.Nonneg) : 0 ≤ s.gain / s.loss := div_nonneg h.gain h.loss

theorem Nonneg.index_nonneg (h : s.Nonneg) : 0 ≤ s.index := by
  by_cases none : s.loss = 0
  · rw [index_of_loss_eq_zero none]
    norm_num
  · rw [index_of_loss_ne_zero none, sub_nonneg]
    exact div_le_self (by norm_num) (le_add_of_nonneg_right h.ratio_nonneg)

theorem Nonneg.index_le (h : s.Nonneg) : s.index ≤ 100 := by
  by_cases none : s.loss = 0
  · exact (index_of_loss_eq_zero none).le
  · rw [index_of_loss_ne_zero none]
    exact sub_le_self _ (div_nonneg (by norm_num) (add_nonneg zero_le_one h.ratio_nonneg))

theorem Nonneg.index_eq_hundred_iff (h : s.Nonneg) : s.index = 100 ↔ s.loss = 0 := by
  refine ⟨fun full => ?_, index_of_loss_eq_zero⟩
  by_contra none
  have pos : 0 < 100 / (1 + s.gain / s.loss) :=
    div_pos (by norm_num) (add_pos_of_pos_of_nonneg one_pos h.ratio_nonneg)
  rw [index_of_loss_ne_zero none] at full
  linarith

theorem Nonneg.index_eq_zero_iff (h : s.Nonneg) : s.index = 0 ↔ s.loss ≠ 0 ∧ s.gain = 0 := by
  by_cases none : s.loss = 0
  · simp [index_of_loss_eq_zero none, none]
  · have ratio : 1 + s.gain / s.loss ≠ 0 := (add_pos_of_pos_of_nonneg one_pos h.ratio_nonneg).ne'
    rw [index_of_loss_ne_zero none, sub_eq_zero, eq_div_iff ratio]
    simp [none]

end Strength

/-! ## Relative strength -/

omit [IsStrictOrderedRing K] in
theorem length_relativeStrength {n : Nat} (hn : 0 < n) (closes : List K) :
    (relativeStrength n closes).length = closes.length - n := by
  change (List.map _ (trace _ _ ((changes closes).drop (n - 1)))).length = _
  rw [List.length_map, length_trace, List.length_drop, length_changes]
  omega

omit [IsStrictOrderedRing K] in
/-- The value at an offset comes of the changes up to there, of which one is taken in twice. -/
theorem getElem?_relativeStrength {n : Nat} (hn : 0 < n) {closes : List K} {i : Nat} (hi : n ≤ i)
    (hl : i < closes.length) :
    (relativeStrength n closes)[i - n]? =
      some ((((changes closes).drop (n - 1)).take (i - n + 1)).foldl (Strength.step n)
        (Strength.ofChanges n ((changes closes).take n))).index := by
  have inside : i - n < ((changes closes).drop (n - 1)).length := by
    rw [List.length_drop, length_changes]
    omega
  change (List.map _ (trace _ _ ((changes closes).drop (n - 1))))[i - n]? = _
  rw [List.getElem?_map, getElem?_trace _ _ _ inside]
  rfl

omit [LinearOrder K] [IsStrictOrderedRing K] [Roots K] in
/-- The changes that have gone into the value at an offset are those between the closes up to it. -/
theorem mem_seen_iff {n : Nat} (hn : 0 < n) {closes : List K} {i : Nat} (hi : n ≤ i) (c : K) :
    c ∈ (changes closes).take n ++ ((changes closes).drop (n - 1)).take (i - n + 1) ↔
      c ∈ changes (closes.take (i + 1)) := by
  have cut : (changes closes).take i =
      (changes closes).take (n - 1) ++ ((changes closes).drop (n - 1)).take (i - n + 1) := by
    have whole : i = n - 1 + (i - n + 1) := by omega
    conv => lhs; rw [whole, List.take_add]
  rw [← take_changes, cut, List.mem_append, List.mem_append]
  refine ⟨fun h => h.elim (fun first => ?_) .inr, fun h => h.imp_left ?_⟩
  · rw [← List.mem_append, ← cut]
    exact List.take_subset_take_left _ hi first
  · exact fun first => List.take_subset_take_left _ (Nat.sub_le n 1) first

omit [Field K] [IsStrictOrderedRing K] [Roots K] in
/-- A list that never rises is not all equal exactly if it falls. -/
theorem not_ascending_iff {xs : List K} (falls : xs.Pairwise (· ≥ ·)) :
    ¬ xs.Pairwise (· ≤ ·) ↔ ∃ a ∈ xs, ∃ b ∈ xs, a ≠ b := by
  constructor
  · intro ascending
    by_contra equal
    push Not at equal
    exact ascending (List.Pairwise.imp_of_mem (fun ha hb _ => (equal _ ha _ hb).le) falls)
  · rintro ⟨a, ha, b, hb, ne⟩ ascending
    have equal : xs.Pairwise (· = ·) := ascending.and falls |>.imp fun h => le_antisymm h.1 h.2
    exact ne (equal.forall_of_forall (fun _ _ => rfl) ha hb)

/-- **Main theorem: the range of relative strength and its ends.** Over more than `n ≥ 1` closes
relative strength is computed. There is one value for each offset from `n` to the end, and it lies
between 0 and 100. If `n` is 2 or more, the value at an offset is 100 exactly if the closes up to it
never fall, and 0 exactly if they never rise and are not all equal. -/
theorem relativeStrength_extremes {n : Nat} (hn : 0 < n) {closes : List K}
    (hl : n < closes.length) :
    Function.relativeStrengthIndex.compute closes n = .ok (relativeStrength n closes) ∧
    (relativeStrength n closes).length = closes.length - n ∧
    ∀ i, n ≤ i → i < closes.length → ∃ v, (relativeStrength n closes)[i - n]? = some v ∧
      0 ≤ v ∧ v ≤ 100 ∧
      (2 ≤ n → (v = 100 ↔ (closes.take (i + 1)).Pairwise (· ≤ ·)) ∧
        (v = 0 ↔ (closes.take (i + 1)).Pairwise (· ≥ ·) ∧
          ∃ a ∈ closes.take (i + 1), ∃ b ∈ closes.take (i + 1), a ≠ b)) := by
  refine ⟨Function.compute_of_lt hn hl, length_relativeStrength hn closes, fun i hi hil => ?_⟩
  let seed := Strength.ofChanges n ((changes closes).take n)
  let rest := ((changes closes).drop (n - 1)).take (i - n + 1)
  have seedNonneg : seed.Nonneg := Strength.nonneg_ofChanges n _
  have nonneg := seedNonneg.foldl n rest
  refine ⟨_, getElem?_relativeStrength hn hi hil, nonneg.index_nonneg, nonneg.index_le,
    fun two => ?_⟩
  have remembers := (Strength.remembers_ofChanges hn ((changes closes).take n)).foldl seedNonneg two
    rest
  have gain := remembers.gain
  have loss := remembers.loss
  simp only [rest, mem_seen_iff hn hi] at gain loss
  rw [changes_nonpos_iff] at gain
  rw [changes_nonneg_iff] at loss
  rw [nonneg.index_eq_hundred_iff, nonneg.index_eq_zero_iff]
  refine ⟨loss, ?_⟩
  rw [Ne, loss, gain, and_comm]
  exact and_congr_right not_ascending_iff

/-- Closes that fall twice in the seed and rise at the end. -/
def slidingCloses : List ℚ := [110, 110, 108, 105, 105, 104, 109]

theorem relativeStrength_extremes_slidingCloses :
    0 < 2 ∧ 2 < slidingCloses.length ∧
    Function.relativeStrengthIndex.compute slidingCloses 2 =
      .ok (relativeStrength 2 slidingCloses) ∧
    (relativeStrength 2 slidingCloses).length = 5 ∧
    (relativeStrength 2 slidingCloses)[3]? = some 0 := by
  have long : 2 < slidingCloses.length := by decide
  obtain ⟨computed, length, values⟩ := relativeStrength_extremes two_pos long
  obtain ⟨v, hv, -, -, ends⟩ := values 5 (by decide) (by decide)
  have falls : (slidingCloses.take 6).Pairwise (· ≥ ·) := by decide +kernel
  have zero : v = 0 := (ends le_rfl).2.2 ⟨falls, 110, by decide +kernel, 108, by decide +kernel,
    by decide +kernel⟩
  exact ⟨two_pos, long, computed, length, zero ▸ hv⟩

end Indicator

end StrategyTree
