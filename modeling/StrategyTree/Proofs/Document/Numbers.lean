import Mathlib.Data.List.DropRight
import Mathlib.Data.List.TakeWhile
import StrategyTree.Document.Number

/-!
# Numbers that are written and read

What is written for a number is read as that number: digits without needless zeros in front, a point
with digits behind it, an exponent with its sign.

* `Number.WellFormed`: how a number may be written.
* `Number.read_render`: such a number is read as it is written.
* `Number.wellFormed_layout`: the written form of a numeral is of that kind.
-/

namespace StrategyTree

open Text

/-! ## Digits -/

namespace Text

theorem toList_toString (n : Nat) : (toString n).toList = Nat.toDigits 10 n := Nat.toList_repr

theorem digitsToNat_toDigits (n : Nat) : digitsToNat (Nat.toDigits 10 n) = n :=
  Nat.ofDigitChars_eq_foldl.symm.trans Nat.ofDigitChars_ten_toDigits

theorem isDigit_of_mem_toDigits {n : Nat} {c : Char} (h : c ∈ Nat.toDigits 10 n) :
    c.isDigit = true :=
  Nat.isDigit_of_mem_toDigits (by omega) (by omega) h

/-- The digits of a positive number do not start with a zero. -/
theorem exists_toDigits_eq_cons {n : Nat} (h : 0 < n) :
    ∃ c cs, Nat.toDigits 10 n = c :: cs ∧ c ≠ '0' := by
  induction n using Nat.strongRecOn with
  | ind n ih =>
    by_cases hn : n < 10
    · have digits : ∀ d < 10, 0 < d → d.digitChar ≠ '0' := by decide
      exact ⟨_, [], Nat.toDigits_of_lt_base hn, digits n hn h⟩
    · obtain ⟨c, cs, hc, hne⟩ := ih (n / 10) (by omega) (by omega)
      rw [Nat.toDigits_of_base_le (by omega) (by omega), hc]
      exact ⟨c, cs ++ [(n % 10).digitChar], rfl, hne⟩

theorem isDigits_toDigits (n : Nat) : isDigits (Nat.toDigits 10 n) = true := by
  rw [isDigits, Bool.and_eq_true, List.all_eq_true, Bool.not_eq_true', List.isEmpty_eq_false_iff]
  exact ⟨Nat.toDigits_ne_nil, fun c => isDigit_of_mem_toDigits⟩

end Text

namespace Number

theorem isWhole_cons {c : Char} (h : c ≠ '0') (cs : List Char) : isWhole (c :: cs) = true := by
  unfold isWhole
  split <;> simp_all

theorem isWhole_toDigits (n : Nat) : isWhole (Nat.toDigits 10 n) = true := by
  rcases Nat.eq_zero_or_pos n with rfl | h
  · rfl
  · obtain ⟨c, cs, e, hc⟩ := exists_toDigits_eq_cons h
    rw [e]
    exact isWhole_cons hc cs

/-! ## Well-formed numbers -/

/-- How a written form may look: digits without a needless zero in front, then a point with digits
or an exponent, or both. -/
structure WellFormedLayout (l : Decimal.Layout) : Prop where
  whole_digits : ∀ c ∈ l.whole, c.isDigit = true
  isWhole : isWhole l.whole = true
  places_digits : ∀ c ∈ l.places, c.isDigit = true
  ends : l.places ≠ [] ∨ l.exponent.isSome = true

/-- Whether a number may be written the way it is. -/
def WellFormed : Number → Prop
  | whole _ _ => True
  | fraction _ l => WellFormedLayout l

/-! ## Reading what is written -/

/-- What stands behind the digits of a written form. -/
def renderEnd : Option Int → List Char
  | none => []
  | some e => 'e' :: (if e < 0 then '-' else '+') :: (toString e.natAbs).toList

theorem readEnd_renderEnd (exponent : Option Int) :
    readEnd (renderEnd exponent) = some exponent := by
  cases exponent with
  | none => rfl
  | some e =>
    have digits := isDigits_toDigits e.natAbs
    have magnitude := digitsToNat_toDigits e.natAbs
    have written : ∀ c, readExponent ('e' :: c :: Nat.toDigits 10 e.natAbs) = some e →
        readEnd ('e' :: c :: Nat.toDigits 10 e.natAbs) = some (some e) := fun c h => by
      rw [readEnd, h]
      rfl
    rw [renderEnd, toList_toString]
    refine written _ ?_
    by_cases he : e < 0
    · have value : -(e.natAbs : Int) = e := by omega
      simp only [readExponent, he, digits, magnitude, value, if_true, beq_self_eq_true,
        Bool.true_or, Bool.true_and]
    · have value : (e.natAbs : Int) = e := by omega
      simp only [readExponent, he, digits, magnitude, value, if_true, if_false, beq_self_eq_true,
        Bool.true_or, Bool.true_and, Bool.false_eq_true]

/-- Reads a number without its sign. -/
def readUnsigned (negative : Bool) (s : List Char) : Option Number :=
  let digits := s.takeWhile Char.isDigit
  if !isWhole digits then none
  else
    match s.drop digits.length with
    | [] => return .whole negative (digitsToNat digits)
    | '.' :: rest =>
      let places := rest.takeWhile Char.isDigit
      if places.isEmpty then none
      else return .fraction negative ⟨digits, places, ← readEnd (rest.drop places.length)⟩
    | rest => return .fraction negative ⟨digits, [], ← readEnd rest⟩

theorem read_eq_readUnsigned {s : List Char} (h : s.head? ≠ some '-') (negative : Bool) :
    read ((if negative then ['-'] else []) ++ s) = readUnsigned negative s := by
  cases negative with
  | true => rfl
  | false =>
    change read s = readUnsigned false s
    unfold read
    split
    rename_i sign
    split at sign
    · exact (h rfl).elim
    · cases sign
      rfl

/-- Digits are taken up to the first character that is none. -/
theorem takeWhile_digits {ds s : List Char} (hd : ∀ c ∈ ds, c.isDigit = true)
    (hs : ∀ c ∈ s.head?, c.isDigit = false) : (ds ++ s).takeWhile Char.isDigit = ds := by
  rw [List.takeWhile_append_of_pos hd]
  cases s with
  | nil => exact List.append_nil ds
  | cons c cs => rw [List.takeWhile_cons_of_neg (by simp [hs c rfl]), List.append_nil]

theorem head?_renderEnd (exponent : Option Int) :
    ∀ c ∈ (renderEnd exponent).head?, c.isDigit = false := by
  cases exponent with
  | none => simp [renderEnd]
  | some e => simp [renderEnd]

theorem render_eq (l : Decimal.Layout) :
    l.render = l.whole ++ ((if l.places.isEmpty then [] else '.' :: l.places) ++
      renderEnd l.exponent) := by
  rw [Decimal.Layout.render, List.append_assoc]
  cases l.exponent <;> rfl

theorem readUnsigned_render {l : Decimal.Layout} (h : WellFormedLayout l) (negative : Bool) :
    readUnsigned negative l.render = some (.fraction negative l) := by
  obtain ⟨ds, places, exponent⟩ := l
  have ending := readEnd_renderEnd exponent
  rw [render_eq, readUnsigned]
  dsimp only
  cases places with
  | nil =>
    -- without places there is an exponent
    obtain ⟨e, rfl⟩ : ∃ e, exponent = some e := by
      simpa [Option.isSome_iff_exists] using h.ends
    rw [List.isEmpty_nil, if_pos rfl, List.nil_append,
      takeWhile_digits h.whole_digits (head?_renderEnd _), List.drop_left]
    simp only [h.isWhole, Bool.not_true, Bool.false_eq_true, if_false]
    -- an exponent starts neither with a point nor with a digit
    rw [renderEnd] at ending ⊢
    change (readEnd _ >>= fun exponent => some (fraction negative ⟨ds, [], exponent⟩)) = _
    rw [ending]
    rfl
  | cons p ps =>
    rw [List.isEmpty_cons, if_neg Bool.false_ne_true, takeWhile_digits h.whole_digits (by simp),
      List.drop_left]
    have places := takeWhile_digits h.places_digits (head?_renderEnd exponent)
    simp only [h.isWhole, Bool.not_true, Bool.false_eq_true, if_false, List.cons_append]
    rw [← List.cons_append, places, List.drop_left, ending]
    rfl

/-- Digits do not start with a sign. -/
theorem head?_ne_of_digits {ds s : List Char} (hd : ∀ c ∈ ds, c.isDigit = true) (hne : ds ≠ []) :
    (ds ++ s).head? ≠ some '-' := by
  cases ds with
  | nil => exact absurd rfl hne
  | cons c cs =>
    intro h
    have digit := hd c List.mem_cons_self
    cases h
    cases digit

theorem ne_nil_of_isWhole {ds : List Char} (h : isWhole ds = true) : ds ≠ [] := by
  rintro rfl
  cases h

/-- A number reads as it is written. -/
theorem read_render {n : Number} (h : n.WellFormed) : read n.render = some n := by
  cases n with
  | whole negative m =>
    have digits := fun c => isDigit_of_mem_toDigits (n := m) (c := c)
    have start := head?_ne_of_digits (s := []) digits Nat.toDigits_ne_nil
    rw [List.append_nil] at start
    have all := takeWhile_digits (s := []) digits (by simp)
    rw [List.append_nil] at all
    rw [render, toList_toString, read_eq_readUnsigned start, readUnsigned, all]
    simp [isWhole_toDigits, digitsToNat_toDigits]
  | fraction negative l =>
    have start := head?_ne_of_digits (s := (if l.places.isEmpty then [] else '.' :: l.places) ++
      renderEnd l.exponent) h.whole_digits (ne_nil_of_isWhole h.isWhole)
    rw [← render_eq] at start
    rw [render, read_eq_readUnsigned start, readUnsigned_render h]

/-! ## The written form of a numeral -/

/-- The digits of a positive number without the zeros at its end are digits, and they start with
none. -/
theorem exists_significant_eq_cons {n : Nat} (h : 0 < n) :
    ∃ c cs, Decimal.significant n = c :: cs ∧ c ≠ '0' ∧ ∀ d ∈ c :: cs, d.isDigit = true := by
  obtain ⟨c, cs, e, hc⟩ := exists_toDigits_eq_cons h
  have initial : Decimal.significant n <+: c :: cs := by
    rw [← e, ← toList_toString]
    exact List.rdropWhile_prefix (· == '0') _
  have some_left : Decimal.significant n ≠ [] := by
    intro hnil
    have zeros := List.rdropWhile_eq_nil_iff.1 hnil
    rw [toList_toString, e] at zeros
    exact hc (beq_iff_eq.1 (zeros c List.mem_cons_self))
  obtain ⟨c', cs', e'⟩ := List.exists_cons_of_ne_nil some_left
  rw [e'] at initial ⊢
  obtain ⟨rfl, -⟩ := List.cons_prefix_cons.1 initial
  exact ⟨c', cs', rfl, hc, fun d hd => isDigit_of_mem_toDigits (e ▸ initial.subset hd)⟩

theorem isDigit_of_mem_zeros {n : Nat} {c : Char} (h : c ∈ List.replicate n '0') :
    c.isDigit = true := by
  rw [List.eq_of_mem_replicate h]
  rfl

/-- The written form of a numeral is well-formed. -/
theorem wellFormed_layout (d : Decimal) : WellFormedLayout d.layout := by
  unfold Decimal.layout
  split
  · constructor <;> simp [isWhole]
  rename_i hd
  obtain ⟨c, cs, e, hc, digits⟩ := exists_significant_eq_cons (Nat.pos_of_ne_zero hd)
  rw [e]
  generalize d.exponent + ((toString d.mantissa).length : Int) - 1 = first
  dsimp only
  split
  · -- written plainly, with zeros where there are no digits
    refine ⟨?_, isWhole_cons hc _, fun x hx => ?_, ?_⟩
    · rw [List.forall_mem_append]
      exact ⟨fun x hx => digits x (List.mem_of_mem_take hx), fun x => isDigit_of_mem_zeros⟩
    · split at hx
      · rw [List.mem_singleton.1 hx]
        rfl
      · exact digits x (List.mem_of_mem_drop hx)
    · left
      split
      · exact List.cons_ne_nil _ _
      · rename_i more
        exact fun hnil => more (List.isEmpty_iff.2 hnil)
  split
  · -- written plainly, with zeros right behind the point
    refine ⟨by simp, rfl, ?_, .inl (by simp)⟩
    rw [List.forall_mem_append]
    exact ⟨fun x => isDigit_of_mem_zeros, digits⟩
  · -- written with a power of ten
    exact ⟨fun x hx => digits x (List.mem_of_mem_take hx), isWhole_cons hc _,
      fun x hx => digits x (List.mem_of_mem_drop hx), .inr rfl⟩

end Number

end StrategyTree
