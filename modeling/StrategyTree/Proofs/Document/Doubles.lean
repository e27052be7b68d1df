import Mathlib.Algebra.Ring.Nat
import StrategyTree.Proofs.Document.Numbers

/-!
# Whole numbers that have a double

A whole number below `2⁶⁴` has a double: it is nowhere near too large for one. Doubles are worked
out in their unpacked form here, as a mantissa times a power of two; what is followed through
rounding, packing and multiplication is an upper bound on that power.

* `Number.Bounded`: zero, or a mantissa of 53 bits with a power of two up to a bound.
* `Number.isSome_toFloat?_whole`: a whole number below `2⁶⁴` has a double.
-/

namespace StrategyTree.Number

open Text
open Float.Model (UnpackedFloat Format totalExponent)
open Float.Model.UnpackedFloat

/-- Zero, or a mantissa of at most 53 bits with a power of two of at most `k`. -/
inductive Bounded (k : Int) : UnpackedFloat → Prop
  | zero (s : Sign) : Bounded k (.zero s)
  | finite {s : Sign} {m : Nat} {e : Int} {hm : 0 < m} (bits : m < 2 ^ 53) (power : e ≤ k) :
    Bounded k (.finite s m e hm)

theorem Bounded.isInf {k : Int} {u : UnpackedFloat} (h : Bounded k u) : u.isInf = false := by
  cases h <;> rfl

theorem Bounded.mono {k l : Int} {u : UnpackedFloat} (h : Bounded k u) (hkl : k ≤ l) :
    Bounded l u := by
  cases h with
  | zero s => exact .zero s
  | finite bits power => exact .finite bits (Int.le_trans power hkl)

/-- A mantissa that may be zero. -/
theorem Bounded.of_bits {k : Int} {s : Sign} {m : Nat} {e : Int} (bits : m < 2 ^ 53)
    (power : e ≤ k) :
    Bounded k (if h : m = 0 then .zero s else .finite s m e (Nat.pos_of_ne_zero h)) := by
  by_cases h : m = 0
  · rw [dif_pos h]
    exact .zero s
  · rw [dif_neg h]
    exact .finite bits power

/-! ## Rounding -/

theorem mantissa_shiftRight (m : ExtendedMantissa) (n : Nat) :
    (m >>> n).mantissa = m.mantissa / 2 ^ n := by
  induction n with
  | zero => exact (Nat.div_one _).symm
  | succ n ih =>
    change (m >>> n).mantissa / 2 = _
    rw [ih, Nat.div_div_eq_div_mul, Nat.pow_succ]

theorem roundedMantissa_le (m : ExtendedMantissa) : m.roundedMantissa ≤ m.mantissa + 1 := by
  obtain ⟨n, round, sticky⟩ := m
  -- an exact half goes to the even neighbour, which is at most one up
  have half : n + n % 2 ≤ n + 1 := by omega
  cases round <;> cases sticky
  · exact Nat.le_succ n
  · exact Nat.le_succ n
  · exact half
  · exact Nat.le_refl _

/-- A mantissa is shifted until 53 bits are left, and the power of two grows with it. -/
theorem shiftToTargetExponent_bounded {m j : Nat} {e k : Int} (hm : m < 2 ^ (53 + j))
    (he : e + j ≤ k) (hk : -1074 ≤ k) :
    (shiftToTargetExponent .binary64 m e .exact).1.mantissa < 2 ^ 53 ∧
      (shiftToTargetExponent .binary64 m e .exact).2 ≤ k := by
  have bits : m.log2 < 53 + j := by
    rcases Nat.eq_zero_or_pos m with rfl | h
    · rw [Nat.log2_zero]
      omega
    · exact (Nat.log2_lt (Nat.ne_of_gt h)).2 hm
  have target : Format.targetExponent .binary64 (totalExponent m e) =
      max (m.log2 + 1 + e - 53) (-1074) := rfl
  unfold shiftToTargetExponent shiftToExponent
  rw [target]
  dsimp only
  rw [mantissa_shiftRight, ExtendedMantissa.ofMantissaAndAccuracy]
  dsimp only
  generalize hs : (max ((m.log2 : Int) + 1 + e - 53) (-1074) - e).toNat = s
  refine ⟨?_, by omega⟩
  rw [Nat.div_lt_iff_lt_mul (Nat.two_pow_pos s), ← Nat.pow_add]
  exact Nat.lt_of_lt_of_le Nat.lt_log2_self (Nat.pow_le_pow_right (by omega) (by omega))

/-- Rounding to 53 bits may carry into one bit more, so that the power of two grows once again. -/
theorem roundWithAccuracy_bounded {m j : Nat} {e k : Int} (s : Sign) (hm : m < 2 ^ (53 + j))
    (he : e + j ≤ k) (hk : -1074 ≤ k) :
    Bounded (k + 1) (roundWithAccuracy .binary64 s m e .exact) := by
  obtain ⟨first, power⟩ := shiftToTargetExponent_bounded hm he hk
  have carried := roundedMantissa_le (shiftToTargetExponent .binary64 m e .exact).1
  have final := shiftToTargetExponent_bounded (j := 1) (k := k + 1)
    (Nat.lt_of_le_of_lt carried (by omega)) (Int.add_le_add_right power 1) (by omega)
  exact .of_bits final.1 final.2

/-! ## Packing -/

/-- The power of two is the exponent that is stored, less 1075; the least one counts as one more. -/
theorem unpack_bounded {k : Int} {b : BitVec Format.binary64.numBits} (hk : -1074 ≤ k)
    (he : ((unpackExponent b).toNat : Int) ≤ k + 1075) (hk' : k ≤ 970) :
    Bounded k (unpack .binary64 b) := by
  have stored : (unpackMantissa b).toNat < 2 ^ 52 := (unpackMantissa b).isLt
  have normal : (1#1 ++ unpackMantissa b).toNat < 2 ^ 53 := (1#1 ++ unpackMantissa b).isLt
  unfold unpack
  dsimp only
  by_cases infinite : unpackExponent b = -1#_
  · -- the largest exponent there is stands for no number, and is beyond the bound
    rw [infinite] at he
    change (2047 : Int) ≤ _ at he
    omega
  rw [if_neg infinite]
  by_cases least : unpackExponent b = 0#_
  · rw [if_pos least]
    by_cases empty : unpackMantissa b = 0#_
    · rw [dif_pos empty]
      exact .zero _
    · rw [dif_neg empty]
      refine .finite (by omega) ?_
      rw [least]
      exact hk
  · rw [if_neg least]
    exact .finite normal (Int.sub_right_le_of_le_add he)

/-- A bound below the largest power of two that can be stored is kept by packing. -/
theorem pack_bounded {k : Int} {u : UnpackedFloat} (h : Bounded k u) (hk : -1074 ≤ k)
    (hk' : k ≤ 970) : Bounded k (Float.Model.pack u).unpack := by
  refine unpack_bounded hk ?_ hk'
  change ((unpackExponent (pack .binary64 u)).toNat : Int) ≤ k + 1075
  have least : (0 : Int) ≤ k + 1075 := by omega
  cases h with
  | zero s =>
    change ((unpackExponent (packComponents .binary64 s 0 0)).toNat : Int) ≤ k + 1075
    rw [unpackExponent_packComponents]
    exact least
  | @finite s m e hm bits power =>
    have biased : ((e + 1023 + 52).toNat : Int) ≤ k + 1075 := by omega
    have packed : pack .binary64 (.finite s m e hm) =
        if 2 ^ 11 ≤ (e + 1023 + 52).toNat + 1 then packedInfinity .binary64 s
        else if m.log2 + 1 = 53 then
          packComponents .binary64 s (BitVec.ofNat _ (e + 1023 + 52).toNat) (BitVec.ofNat _ m)
        else packComponents .binary64 s 0 (BitVec.ofNat _ m) := rfl
    rw [packed]
    split
    · rename_i overflow
      omega
    split
    · rw [unpackExponent_packComponents]
      exact Int.le_trans (Int.ofNat_le.2 (Nat.mod_le _ _)) biased
    · rw [unpackExponent_packComponents]
      exact least

/-! ## Multiplication -/

theorem mul_finite (s s' : Sign) (m m' : Nat) (e e' : Int) (h : 0 < m) (h' : 0 < m') :
    mul .binary64 (.finite s m e h) (.finite s' m' e' h') =
      roundWithAccuracy .binary64 (s * s') (m * m') (e + e') .exact := rfl

theorem mul_bounded {x y : Float} {k l : Int} (hx : Bounded k x.toModel.unpack)
    (hy : Bounded l y.toModel.unpack) (hk : -1127 ≤ k + l) (hk' : k + l ≤ 916) :
    Bounded (k + l + 54) (x * y).toModel.unpack := by
  change Bounded _ (Float.Model.pack (mul .binary64 x.toModel.unpack y.toModel.unpack)).unpack
  refine pack_bounded ?_ (by omega) (by omega)
  generalize x.toModel.unpack = u at hx
  generalize y.toModel.unpack = v at hy
  cases hx with
  | zero s => cases hy <;> exact .zero _
  | @finite s m e h bits power =>
    cases hy with
    | zero s' => exact .zero _
    | @finite s' m' e' h' bits' power' =>
      have product : m * m' < 2 ^ (53 + 53) := by
        rw [Nat.pow_add]
        exact Nat.mul_lt_mul_of_lt_of_le bits (Nat.le_of_lt bits') (by decide)
      have rounded := roundWithAccuracy_bounded (e := e + e') (k := k + l + 53) (s * s') product
        (by omega) (by omega)
      rw [Int.add_assoc] at rounded
      rw [mul_finite]
      exact rounded

/-! ## Whole numbers -/

/-- A whole number below `2⁶⁴`, shifted to the left, is rounded to 53 bits. -/
theorem round_whole_bounded {n s : Nat} {e : Int} (h : n < 2 ^ 64) (he : e = -s) :
    Bounded 12 (roundWithAccuracy .binary64 .positive (n <<< s) e .exact) := by
  have shifted : n <<< s < 2 ^ (53 + (11 + s)) := by
    rw [Nat.shiftLeft_eq, ← Nat.add_assoc, Nat.pow_add]
    exact Nat.mul_lt_mul_of_pos_right h (Nat.two_pow_pos s)
  exact roundWithAccuracy_bounded (k := 11) _ shifted (by omega) (by omega)

theorem ofNat_bounded {n : Nat} (h : n < 2 ^ 64) :
    Bounded 12 (UnpackedFloat.ofNat .binary64 n) := by
  unfold UnpackedFloat.ofNat UnpackedFloat.ofInt UnpackedFloat.normalize
  split
  · rename_i negative
    rw [Int.compare_eq_lt] at negative
    omega
  · exact .zero _
  · exact round_whole_bounded h (Int.zero_sub _)

theorem ofScientific_bounded {n : Nat} (h : n < 2 ^ 64) :
    Bounded 12 (UnpackedFloat.ofScientific .binary64 n 0) := by
  have few : ¬(0 : Int) < -((2 ^ 11 : Int) + n.log2) := by omega
  unfold UnpackedFloat.ofScientific
  by_cases none : n = 0
  · rw [dif_pos none]
    exact .zero _
  · rw [dif_neg none, if_neg (by decide), if_neg few, if_pos (by decide)]
    rw [mul_finite, Int.toNat_zero, Nat.pow_zero, Nat.mul_one]
    exact round_whole_bounded h (Int.add_zero _)

/-- The double nearest to a whole number. A number of 53 bits is multiplied by one. -/
theorem toFloat_bounded {n : Nat} (h : n < 2 ^ 64) :
    Bounded 14 (Decimal.toFloat ⟨n, 0⟩).toModel.unpack := by
  have one : Bounded (-52)
      (getElem Float.exactlyRepresentablePowersOfTen 0 (by decide)).toModel.unpack :=
    .finite (by decide +kernel) (by decide +kernel)
  change Bounded 14 (Float.ofScientific n false 0).toModel.unpack
  unfold Float.ofScientific
  split
  · exact mul_bounded (k := 12) (l := -52)
      (pack_bounded (ofNat_bounded n.toUInt64.toNat_lt) (by omega) (by omega)) one
      (by omega) (by omega)
  · exact pack_bounded ((ofScientific_bounded h).mono (by omega)) (by omega) (by omega)

/-- A whole number below `2⁶⁴` has a double. -/
theorem isSome_toFloat?_whole {n : Nat} (h : n < 2 ^ 64) :
    (whole false n).toFloat?.isSome = true := by
  have leading : leading (whole false n).layout = ⟨n, 0⟩ := by
    have value : digitsToNat (toString n).toList = n := by
      rw [toList_toString, digitsToNat_toDigits]
    unfold leading layout
    dsimp only
    rw [takeDigits_of_lt (Nat.lt_of_le_of_lt (Nat.le_of_eq value) h)]
    change (⟨digitsToNat (toString n).toList, 0⟩ : Decimal) = _
    rw [value]
  have product := mul_bounded (toFloat_bounded h) (toFloat_bounded (n := 1) (by omega))
    (by omega) (by omega)
  have finite : (Decimal.toFloat ⟨n, 0⟩ * powerOfTen 0).isInf = false := product.isInf
  unfold toFloat?
  rw [leading, Option.isSome_map]
  dsimp only
  rw [scale?, if_pos (by decide), if_neg (by decide)]
  change (if (Decimal.toFloat ⟨n, 0⟩ * powerOfTen 0).isInf then none else _).isSome = true
  rw [finite]
  rfl

end StrategyTree.Number
