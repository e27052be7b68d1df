import StrategyTree.Proofs.Causality.LookBack

/-!
# Functions that slide

A function of lists slides if it does not matter to its values where the list begins. A value of a
function that slides and looks back by a lag depends on a stretch of the input only, as many
elements as the lag and one more. Most indicators slide; the two that carry a state along from the
first close on, the exponential mean and the relative strength, do not.

* `Slides`: a function slides.
* `Slides.getElem?_congr`: what a value of such a function depends on.
* `Indicator.slides_values`: indicators that slide.
-/

namespace StrategyTree

variable {α β γ δ σ : Type}

/-- What comes later is the same if the list begins later. -/
def Slides (f : List β → List γ) : Prop := ∀ n xs, (f xs).drop n = f (xs.drop n)

namespace Slides

theorem id : Slides (fun xs : List β => xs) := fun _ _ => rfl

theorem comp {f : List β → List γ} {g : List γ → List δ} (hg : Slides g) (hf : Slides f) :
    Slides fun xs => g (f xs) := by
  intro n xs
  dsimp only
  rw [hg, hf]

theorem map (f : β → γ) : Slides (List.map f) := fun _ _ => List.map_drop.symm

theorem drop (k : Nat) : Slides (List.drop k : List β → List β) := by
  intro n xs
  rw [List.drop_drop, List.drop_drop, Nat.add_comm]

theorem zipWith {f : List β → List γ} {g : List β → List δ} (hf : Slides f) (hg : Slides g)
    (op : γ → δ → σ) : Slides fun xs => List.zipWith op (f xs) (g xs) := by
  intro n xs
  dsimp only
  rw [List.drop_zipWith, hf, hg]

/-- The stretches of a list. -/
theorem windows {w : Nat} (hw : 0 < w) : Slides (windows w : List β → List (List β)) := by
  intro n xs
  apply List.ext_getElem
  · rw [List.length_drop, length_windows hw, length_windows hw, List.length_drop]
    omega
  · intro i hi hi'
    rw [List.getElem_drop, getElem_windows hw, getElem_windows hw, List.drop_drop]

/-- A stretch of the input. A value of a function that slides and looks back by a lag is the first
value over the element at its place and those that follow within the lag. -/
theorem getElem?_eq {f : List β → List γ} {lag : Nat} (hf : Slides f) (hl : LooksBack lag f)
    (n : Nat) (xs : List β) : (f xs)[n]? = (f ((xs.drop n).take (1 + lag)))[0]? := by
  have stretch : ((xs.drop n).take (1 + lag)).take (1 + lag) = (xs.drop n).take (1 + lag) := by
    rw [List.take_take, Nat.min_self]
  have first := hl 1 _ _ stretch
  calc (f xs)[n]? = ((f (xs.drop n)).take 1)[0]? := by
        rw [← hf, List.getElem?_take_of_lt Nat.one_pos, List.getElem?_drop, Nat.add_zero]
    _ = (f ((xs.drop n).take (1 + lag)))[0]? := by
        rw [← first, List.getElem?_take_of_lt Nat.one_pos]

/-- Such a value depends on that stretch only. -/
theorem getElem?_congr {f : List β → List γ} {lag : Nat} (hf : Slides f) (hl : LooksBack lag f)
    {n : Nat} {xs ys : List β} (h : (xs.drop n).take (1 + lag) = (ys.drop n).take (1 + lag)) :
    (f xs)[n]? = (f ys)[n]? := by
  rw [hf.getElem?_eq hl n xs, hf.getElem?_eq hl n ys, h]

end Slides

namespace Indicator

open Statistics

variable [Scalar α]

theorem slides_percentReturns : Slides (percentReturns : List α → List α) := by
  unfold percentReturns
  rw [tail_eq_drop]
  exact Slides.id.zipWith (Slides.drop 1) percentChange

/-- Indicators that slide. All do but the exponential mean and the relative strength. -/
theorem slides_values {f : Function} {window : Nat} (hw : 0 < window)
    (hmean : f ≠ .exponentialMovingAveragePrice) (hstrength : f ≠ .relativeStrengthIndex) :
    Slides (f.values window : List α → List α) := by
  have stretches : ∀ g : List α → α, Slides fun xs => (windows window xs).map g :=
    fun g => (Slides.map g).comp (Slides.windows hw)
  have overReturns : ∀ g : List α → α,
      Slides fun xs => (windows window (percentReturns xs)).map g :=
    fun g => (stretches g).comp slides_percentReturns
  cases f with
  | movingAveragePrice => exact stretches Scalar.mean
  | exponentialMovingAveragePrice => exact absurd rfl hmean
  | standardDeviationPrice => exact stretches deviation
  | cumulativeReturn => exact Slides.id.zipWith (Slides.drop window) percentChange
  | relativeStrengthIndex => exact absurd rfl hstrength
  | maxDrawdown => exact stretches drawdown
  | movingAverageReturn => exact overReturns Scalar.mean
  | standardDeviationReturn => exact overReturns deviation

end Indicator

end StrategyTree
