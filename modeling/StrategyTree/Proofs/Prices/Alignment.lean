import StrategyTree.Proofs.Prices.Days

/-!
# The closes of an aligned series

An aligned series has a close on each day from the ticker's first close to its last one: the price
of the latest day of the axis on which the ticker has traded. So it has a close exactly if the
ticker has traded on a day of the axis up to then, and trades then or later. If both ends of the
axis are trading days of the ticker, the series has no gaps.

* `getElem?_align`: the closes of an aligned series.
* `isSome_align_iff`: where it has one.
* `isSome_of_mem_align`: a series that reaches over the whole axis.
-/

namespace StrategyTree

variable {α : Type} {closes : List (Close α)}

theorem isSome_priceOn_iff {d : Date} :
    (priceOn closes d).isSome = true ↔ d ∈ tradingDays closes := by
  unfold priceOn tradingDays
  rw [Option.isSome_map, List.find?_isSome, List.mem_map]
  constructor
  · rintro ⟨c, hc, e⟩
    exact ⟨c, List.mem_reverse.1 hc, beq_iff_eq.1 e⟩
  · rintro ⟨c, hc, e⟩
    exact ⟨c, List.mem_reverse.2 hc, beq_iff_eq.2 e⟩

/-! ## Carrying forward -/

/-- The latest of the values at some days, or else the one carried over from before. -/
theorem getLast?_filterMap_cons {β γ : Type} (f : β → Option γ) (b : β) (bs : List β)
    (carried : Option γ) : ((b :: bs).filterMap f).getLast?.or carried =
      (bs.filterMap f).getLast?.or ((f b).or carried) := by
  cases hb : f b with
  | none => rw [List.filterMap_cons_none hb, Option.none_or]
  | some c =>
    rw [List.filterMap_cons_some hb, List.getLast?_cons, Option.some_or]
    cases (bs.filterMap f).getLast? <;> rfl

/-- Between the first and the last close, the latest price on the axis is carried on. -/
theorem getElem?_carryForward {first last : Date} {dates : List Date}
    (hout : ∀ d ∈ dates, d < first ∨ last < d → priceOn closes d = none) :
    ∀ {carried : Option α} {i : Nat} {d : Date}, dates[i]? = some d →
      (carryForward first last closes carried dates)[i]?.join = if d < first ∨ last < d then none
        else ((dates.take (i + 1)).filterMap (priceOn closes)).getLast?.or carried := by
  induction dates with
  | nil =>
    intro carried i d hi
    cases hi
  | cons date dates ih =>
    rw [List.forall_mem_cons] at hout
    intro carried i d hi
    rw [List.take_succ_cons, getLast?_filterMap_cons, carryForward]
    cases i with
    | zero =>
      cases hi
      rw [List.take_zero, List.filterMap_nil, List.getLast?_nil, Option.none_or]
      split <;> rfl
    | succ i =>
      rw [List.getElem?_cons_succ] at hi
      split
      · rename_i hdate
        rw [List.getElem?_cons_succ, ih hout.2 hi, hout.1 hdate, Option.none_or]
      · rw [List.getElem?_cons_succ, ih hout.2 hi]

/-! ## Aligned series -/

section Ascending

variable {dates : List Date} (hdates : dates.Pairwise fun a b => a < b)
  (hcloses : (tradingDays closes).Pairwise fun a b => a < b) {i : Nat} {d : Date}
  (hi : dates[i]? = some d)

include hdates hcloses hi

/-- An aligned series. Up to the last close of the ticker, a day of the axis has the price of
the latest day of the axis, up to it, on which the ticker has traded. -/
theorem getElem?_align : (align dates closes)[i]?.join = if ∃ e ∈ tradingDays closes, d ≤ e
    then ((dates.take (i + 1)).filterMap (priceOn closes)).getLast? else none := by
  unfold align
  split
  · rename_i c₁ c₂ h₁ h₂
    have head : (tradingDays closes).head? = some c₁.date := by
      rw [tradingDays, List.head?_map, h₁, Option.map_some]
    have getLast : (tradingDays closes).getLast? = some c₂.date := by
      rw [tradingDays, List.getLast?_map, h₂, Option.map_some]
    have first_le := fun e he => Date.le_of_head? hcloses head (e := e) he
    have le_last := fun e he => Date.le_of_getLast? hcloses getLast (e := e) he
    have unpriced : ∀ e, e < c₁.date ∨ c₂.date < e → priceOn closes e = none := by
      intro e he
      rw [← Option.not_isSome_iff_eq_none, isSome_priceOn_iff]
      intro hmem
      have after := first_le e hmem
      have before := le_last e hmem
      rw [Date.le_iff] at after before
      rw [Date.lt_iff, Date.lt_iff] at he
      omega
    have goes_on : (∃ e ∈ tradingDays closes, d ≤ e) ↔ ¬ c₂.date < d := by
      constructor
      · rintro ⟨e, he, hle⟩ hlt
        exact Date.not_le_of_lt hlt (Date.le_trans hle (le_last e he))
      · intro hlt
        exact ⟨c₂.date, List.mem_of_getLast? getLast, Int.not_lt.1 hlt⟩
    rw [getElem?_carryForward (fun e _ => unpriced e) hi, Option.or_none, if_congr goes_on rfl rfl]
    by_cases late : c₂.date < d
    · rw [if_pos (.inr late), if_neg (not_not_intro late)]
    · rw [if_pos late]
      by_cases early : d < c₁.date
      · -- the days up to `d` are all before the first close
        have none_priced : (dates.take (i + 1)).filterMap (priceOn closes) = [] := by
          rw [List.filterMap_eq_nil_iff]
          intro e he
          have hle := ((Date.mem_take_iff hdates hi).1 he).2
          exact unpriced e (.inl (Int.lt_of_le_of_lt hle early))
        rw [if_pos (.inl early), none_priced]
        rfl
      · rw [if_neg (not_or.2 ⟨early, late⟩)]
  · rename_i hempty
    have no_closes : closes = [] := by
      cases closes with
      | nil => rfl
      | cons c cs => exact absurd List.getLast?_cons (hempty c _ rfl)
    subst no_closes
    rw [List.getElem?_map, hi, if_neg]
    · rfl
    · rintro ⟨e, he, -⟩
      cases he

/-- Where an aligned series has closes: on the days up to which the ticker has traded on the
axis, and on which it trades or after which it goes on to trade. -/
theorem isSome_align_iff : ((align dates closes)[i]?.join).isSome = true ↔
    (∃ e ∈ tradingDays closes, e ∈ dates ∧ e ≤ d) ∧ ∃ e ∈ tradingDays closes, d ≤ e := by
  have priced : ((dates.take (i + 1)).filterMap (priceOn closes)).getLast?.isSome = true ↔
      ∃ e ∈ tradingDays closes, e ∈ dates ∧ e ≤ d := by
    rw [List.getLast?_isSome]
    constructor
    · intro hne
      obtain ⟨p, hp⟩ := List.exists_mem_of_ne_nil _ hne
      obtain ⟨e, he, hprice⟩ := List.mem_filterMap.1 hp
      exact ⟨e, isSome_priceOn_iff.1 (Option.isSome_of_eq_some hprice),
        (Date.mem_take_iff hdates hi).1 he⟩
    · rintro ⟨e, he, hmem⟩
      obtain ⟨p, hp⟩ := Option.isSome_iff_exists.1 (isSome_priceOn_iff.2 he)
      exact List.ne_nil_of_mem
        (List.mem_filterMap.2 ⟨e, (Date.mem_take_iff hdates hi).2 hmem, hp⟩)
  rw [getElem?_align hdates hcloses hi]
  split
  · rename_i hlater
    rw [priced, and_iff_left hlater]
  · rename_i hlater
    constructor
    · intro h
      cases h
    · rintro ⟨-, h⟩
      exact absurd h hlater

end Ascending

/-- No gaps. If the first and the last day of an axis are trading days of a ticker, its series
has a close on every day of the axis. -/
theorem isSome_of_mem_align {dates : List Date} {first last : Date}
    (hdates : dates.Pairwise fun a b => a < b) (hfirst : dates.head? = some first)
    (hlast : dates.getLast? = some last)
    (hcloses : (tradingDays closes).Pairwise fun a b => a < b)
    (mem_first : first ∈ tradingDays closes) (mem_last : last ∈ tradingDays closes) :
    ∀ c ∈ align dates closes, c.isSome = true := by
  intro c hc
  obtain ⟨i, hi⟩ := List.mem_iff_getElem?.1 hc
  obtain ⟨hlt, -⟩ := List.getElem?_eq_some_iff.1 hi
  rw [length_align] at hlt
  have hday := List.getElem?_eq_getElem hlt
  have here := List.mem_of_getElem? hday
  have some := (isSome_align_iff hdates hcloses hday).2
    ⟨⟨first, mem_first, List.mem_of_head? hfirst, Date.le_of_head? hdates hfirst here⟩,
      last, mem_last, Date.le_of_getLast? hdates hlast here⟩
  rwa [hi, Option.join_some] at some

end StrategyTree
