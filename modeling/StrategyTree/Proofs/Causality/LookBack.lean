import Mathlib.Data.List.Basic
import StrategyTree.Simulation

/-!
# How far functions look back

A function of lists looks back by a lag if the first `n` values of its result depend on the first
`n + lag` elements of its input only. Indicators and statistics of returns do so by exactly the
offset to which their first value belongs, and they yield one value for every element from there on.

* `LooksBack`: a function looks back by a lag.
* `Indicator.looksBack_values`, `Indicator.length_values`: indicators.
* `ReturnStatistic.looksBack_ofBalances`, `ReturnStatistic.length_ofBalances`: statistics of the
  returns between balances.
-/

namespace StrategyTree

variable {α β γ δ σ : Type}

/-! ## Looking back -/

/-- The first `n` values of the result depend on the first `n + lag` elements only. -/
def LooksBack (lag : Nat) (f : List β → List γ) : Prop :=
  ∀ n xs ys, xs.take (n + lag) = ys.take (n + lag) → (f xs).take n = (f ys).take n

theorem take_eq_of_le {xs ys : List β} {n m : Nat} (h : xs.take m = ys.take m) (hn : n ≤ m) :
    xs.take n = ys.take n := by
  have e := congrArg (List.take n) h
  rwa [List.take_take, List.take_take, Nat.min_eq_left hn] at e

theorem tail_eq_drop : (List.tail : List β → List β) = List.drop 1 := by
  funext xs
  exact List.drop_one.symm

namespace LooksBack

theorem id : LooksBack 0 (fun xs : List β => xs) := fun _ _ _ h => h

theorem mono {f : List β → List γ} {lag lag' : Nat} (h : LooksBack lag f) (hl : lag ≤ lag') :
    LooksBack lag' f :=
  fun n xs ys e => h n xs ys (take_eq_of_le e (Nat.add_le_add_left hl n))

/-- Lags add up. -/
theorem comp {f : List β → List γ} {g : List γ → List δ} {a b : Nat} (hg : LooksBack b g)
    (hf : LooksBack a f) : LooksBack (a + b) fun xs => g (f xs) := by
  intro n xs ys h
  apply hg
  apply hf
  rwa [Nat.add_assoc, Nat.add_comm b a]

theorem map (f : β → γ) : LooksBack 0 (List.map f) := by
  intro n xs ys h
  rw [← List.map_take, ← List.map_take]
  exact congrArg (List.map f) h

theorem drop (k : Nat) : LooksBack k (List.drop k : List β → List β) := by
  intro n xs ys h
  have e := congrArg (List.drop k) h
  rwa [List.drop_take, List.drop_take, Nat.add_sub_cancel] at e

theorem zipWith {f : List β → List γ} {g : List β → List δ} {lag : Nat} (hf : LooksBack lag f)
    (hg : LooksBack lag g) (op : γ → δ → σ) :
    LooksBack lag fun xs => List.zipWith op (f xs) (g xs) := by
  intro n xs ys h
  dsimp only
  rw [List.take_zipWith, List.take_zipWith, hf n xs ys h, hg n xs ys h]

/-- The results of an operation on neighbours look back by one. -/
theorem neighbours (op : β → β → γ) : LooksBack 1 fun xs => List.zipWith op xs xs.tail := by
  have tail : LooksBack 1 (List.tail : List β → List β) := by
    rw [tail_eq_drop]
    exact drop 1
  exact zipWith (id.mono (Nat.zero_le 1)) tail op

theorem take_trace (step : σ → β → σ) (n : Nat) :
    ∀ (s : σ) (bs : List β), (trace step s bs).take n = trace step s (bs.take n) := by
  induction n with
  | zero => intro s bs; rfl
  | succ n ih =>
    intro s bs
    cases bs with
    | nil => rfl
    | cons b bs => rw [trace, List.take_succ_cons, List.take_succ_cons, trace, ih]

theorem trace (step : σ → β → σ) (s : σ) : LooksBack 0 (trace step s) := by
  intro n xs ys h
  rw [take_trace, take_trace]
  exact congrArg (StrategyTree.trace step s) h

/-- The stretches of `w` elements look back by the other `w - 1`. -/
theorem windows (w : Nat) : LooksBack (w - 1) (windows w : List β → List (List β)) := by
  intro n xs
  induction xs generalizing n with
  | nil =>
    intro ys h
    cases ys with
    | nil => rfl
    | cons y ys =>
      cases n with
      | zero => rfl
      | succ n =>
        rw [Nat.add_right_comm, List.take_succ_cons] at h
        cases h
  | cons x xs ih =>
    intro ys h
    cases n with
    | zero => rfl
    | succ n =>
      cases ys with
      | nil =>
        rw [Nat.add_right_comm, List.take_succ_cons] at h
        cases h
      | cons y ys =>
        have first : (x :: xs).take w = (y :: ys).take w := take_eq_of_le h (by omega)
        rw [Nat.add_right_comm, List.take_succ_cons, List.take_succ_cons] at h
        obtain ⟨rfl, h'⟩ := List.cons.inj h
        -- both lists are long enough for a stretch, or neither is
        have lengths := congrArg List.length h'
        rw [List.length_take, List.length_take] at lengths
        have long : w ≤ xs.length + 1 ↔ w ≤ ys.length + 1 := by omega
        rw [StrategyTree.windows, StrategyTree.windows]
        by_cases hw : w ≤ xs.length + 1
        · rw [if_pos hw, if_pos (long.1 hw), List.take_succ_cons, List.take_succ_cons, first,
            ih n ys h']
        · rw [if_neg hw, if_neg fun h => hw (long.2 h)]

end LooksBack

/-- The stretch at a place is cut out there. -/
theorem getElem_windows {w : Nat} (hw : 0 < w) (xs : List β) :
    ∀ {k : Nat} (hk : k < (windows w xs).length), (windows w xs)[k] = (xs.drop k).take w := by
  induction xs with
  | nil =>
    intro k hk
    cases hk
  | cons x xs ih =>
    intro k hk
    rw [length_windows hw, List.length_cons] at hk
    simp only [windows, if_pos (show w ≤ xs.length + 1 by omega)]
    cases k with
    | zero => rfl
    | succ k => exact ih (by rw [length_windows hw]; omega)

/-! ## Indicators -/

namespace Indicator

open Statistics

variable [Scalar α]

theorem looksBack_exponentialMean (n : Nat) :
    LooksBack (n - 1) (exponentialMean n : List α → List α) := by
  intro m xs ys h
  cases m with
  | zero => rfl
  | succ m =>
    rw [Nat.add_right_comm] at h
    cases xs with
    | nil =>
      cases ys with
      | nil => rfl
      | cons y ys => cases h
    | cons x xs =>
      cases ys with
      | nil => cases h
      | cons y ys =>
        rw [List.take_succ_cons, List.take_succ_cons] at h
        obtain ⟨rfl, h'⟩ := List.cons.inj h
        -- the running means agree as far as the closes do, and the first `n - 1` are left out
        apply LooksBack.drop (n - 1)
        rw [Nat.add_right_comm, List.take_succ_cons, List.take_succ_cons]
        exact congrArg (List.cons x) (LooksBack.trace _ x (m + (n - 1)) xs ys h')

theorem looksBack_relativeStrength {n : Nat} (hn : 0 < n) :
    LooksBack n (relativeStrength n : List α → List α) := by
  -- the seed takes in the first `n` changes, which the first value looks back on anyway
  have seeded : LooksBack (n - 1) fun changes : List α =>
      (trace (Strength.step n) (Strength.ofChanges n (changes.take n)) (changes.drop (n - 1))).map
        Strength.index := by
    intro m xs ys h
    cases m with
    | zero => rfl
    | succ m =>
      have seed : xs.take n = ys.take n := take_eq_of_le h (by omega)
      dsimp only
      rw [seed]
      apply LooksBack.map
      apply LooksBack.trace
      exact LooksBack.drop (n - 1) (m + 1) xs ys h
  have lag := seeded.comp (LooksBack.neighbours fun a b : α => b - a)
  rwa [Nat.add_sub_cancel' hn] at lag

theorem looksBack_percentReturns : LooksBack 1 (percentReturns : List α → List α) :=
  LooksBack.neighbours percentChange

/-- Lag of an indicator. An indicator looks back by the offset of its first value. -/
theorem looksBack_values (f : Function) {window : Nat} (hw : 0 < window) :
    LooksBack (f.firstOffset window) (f.values window : List α → List α) := by
  have stretches : ∀ g : List α → α, LooksBack (window - 1) fun xs => (windows window xs).map g :=
    fun g => (LooksBack.map g).comp (LooksBack.windows window)
  have overReturns : ∀ g : List α → α,
      LooksBack window fun xs => (windows window (percentReturns xs)).map g := by
    intro g
    have lag := (stretches g).comp looksBack_percentReturns
    rwa [Nat.add_sub_cancel' hw] at lag
  cases f with
  | movingAveragePrice => exact stretches Scalar.mean
  | exponentialMovingAveragePrice => exact looksBack_exponentialMean window
  | standardDeviationPrice => exact stretches deviation
  | cumulativeReturn =>
    exact (LooksBack.id.mono (Nat.zero_le window)).zipWith (LooksBack.drop window) percentChange
  | relativeStrengthIndex => exact looksBack_relativeStrength hw
  | maxDrawdown => exact stretches drawdown
  | movingAverageReturn => exact overReturns Scalar.mean
  | standardDeviationReturn => exact overReturns deviation

/-- Number of values. An indicator has one value for each close from its first offset on. -/
theorem length_values (f : Function) {window : Nat} (hw : 0 < window) (closes : List α) :
    (f.values window closes).length = closes.length - f.firstOffset window := by
  cases f with
  | movingAveragePrice | standardDeviationPrice | maxDrawdown =>
    simp only [Function.values, Function.firstOffset, List.length_map, length_windows hw]
    omega
  | exponentialMovingAveragePrice =>
    cases closes with
    | nil => simp [Function.values, exponentialMean]
    | cons c cs => simp [Function.values, Function.firstOffset, exponentialMean]
  | cumulativeReturn =>
    simp only [Function.values, Function.firstOffset, List.length_zipWith, List.length_drop]
    omega
  | relativeStrengthIndex =>
    simp only [Function.values, Function.firstOffset, relativeStrength, List.length_map,
      length_trace, List.length_drop, List.length_zipWith, List.length_tail]
    omega
  | movingAverageReturn | standardDeviationReturn =>
    simp only [Function.values, Function.firstOffset, List.length_map, length_windows hw,
      length_percentReturns]
    omega

end Indicator

/-! ## Statistics of returns -/

namespace ReturnStatistic

variable [Scalar α]

/-- The values of a statistic over the returns between balances. -/
def ofBalances (f : ReturnStatistic) (window : Nat) (balances : List α) : List α :=
  (windows window (dailyReturns balances)).map f.ofWindow

theorem length_ofBalances (f : ReturnStatistic) {window : Nat} (hw : 0 < window)
    (balances : List α) :
    (f.ofBalances window balances).length = balances.length - (1 + f.firstOffset window) := by
  simp only [ofBalances, firstOffset, dailyReturns, List.length_map, length_windows hw,
    List.length_zipWith, List.length_tail]
  omega

end ReturnStatistic

end StrategyTree
