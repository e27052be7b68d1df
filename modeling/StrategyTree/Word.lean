/-!
# Machine words

Windows are read from documents as words of 64 bits, and what is reckoned with them (the number of
closes a first value takes, the days to look back on, a place on the day axis) is reckoned in words
too. Nothing checks whether a result fits: one that does not is reduced modulo `2 ^ 64`.

* `Word.add_of_lt`, `Word.mul_of_lt`, `Word.sub_of_le`: results that fit are exact.
-/

namespace StrategyTree

namespace Word

/-- The number of words, `2 ^ 64`. -/
def size : Nat := Nat.pow 2 64

/-- The sum of two words. -/
def add (a b : Nat) : Nat := (a + b) % size

/-- The product of two words. -/
def mul (a b : Nat) : Nat := a * b % size

/-- The difference of two words. -/
def sub (a b : Nat) : Nat := (a + size - b) % size

theorem add_of_lt {a b : Nat} (h : a + b < size) : add a b = a + b := Nat.mod_eq_of_lt h

theorem mul_of_lt {a b : Nat} (h : a * b < size) : mul a b = a * b := Nat.mod_eq_of_lt h

theorem sub_of_le {a b : Nat} (h : b ≤ a) (ha : a < size) : sub a b = a - b := by
  unfold sub
  have shift : a + size - b = a - b + size := by omega
  rw [shift, Nat.add_mod_right, Nat.mod_eq_of_lt (by omega)]

theorem add_le (a b : Nat) : add a b ≤ a + b := Nat.mod_le _ _

end Word

end StrategyTree
