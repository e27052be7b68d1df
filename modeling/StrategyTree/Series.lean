/-!
# Series on the day axis

Trading days are numbered from zero on one axis that all series share. A `Series` is a run of
values on it that starts at some index and has no gaps.

* `Series.valueAt_eq_none_iff`: a series has a value exactly from its start up to its end.
-/

namespace StrategyTree

/-- Consecutive values, the first of which belongs to the axis index `start`. -/
structure Series (α : Type) where
  start : Nat
  values : List α
  deriving DecidableEq, Repr

namespace Series

variable {α : Type}

/-- The value at an axis index. -/
def valueAt (s : Series α) (index : Nat) : Option α :=
  if index < s.start then none else s.values[index - s.start]?

/-- One past the last index with a value. -/
def stop (s : Series α) : Nat := s.start + s.values.length

theorem valueAt_eq_none_iff (s : Series α) (index : Nat) :
    s.valueAt index = none ↔ index < s.start ∨ s.stop ≤ index := by
  unfold valueAt stop
  split
  · simp_all
  · rw [List.getElem?_eq_none_iff]
    omega

end Series

end StrategyTree
