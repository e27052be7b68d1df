import StrategyTree.Proofs.Prices.Closes
import StrategyTree.Proofs.Scaling.Statistics
import StrategyTree.Proofs.Simulation.Tables

/-!
# Scaled prices

A split of a share multiplies all closes of a ticker by a constant. The days on which there are
closes stay the same, and so do the indicators that are made of ratios; where an indicator starts
does not depend on the closes at all, only on where they are.

* `PriceTable.scaled`: a table with the closes of each ticker multiplied by a factor of its own.
* `IndicatorTable.Resembles`: tables of indicators that start alike and agree on some of them.
* `IndicatorTable.load_scaled`: the indicators over scaled prices.
-/

namespace StrategyTree

variable {K : Type} [Field K]

/-! ## Price tables -/

namespace PriceTable

/-- The table with the closes of each ticker multiplied by a factor of its own. -/
def scaled (factor : String → K) (t : PriceTable K) : PriceTable K where
  dates := t.dates
  series := t.series.mapValues fun x closes => closes.map (Option.map (factor x * ·))
  tradeableStart := t.tradeableStart
  aligned e he := by
    obtain ⟨entry, hentry, rfl⟩ := List.mem_map.1 he
    simpa using t.aligned entry hentry

variable (factor : String → K) (t : PriceTable K) (x : String) (i : ℕ)

theorem closes_scaled : (t.scaled factor).closes x =
    t.closes x >>= fun closes => .ok (closes.map (Option.map (factor x * ·))) := by
  simp only [closes, scaled, SortedMap.get?_mapValues]
  cases t.series.get? x <;> rfl

@[simp] theorem closeAt?_scaled :
    (t.scaled factor).closeAt? x i = (t.closeAt? x i).map (factor x * ·) := by
  simp only [closeAt?, scaled, SortedMap.get?_mapValues]
  cases t.series.get? x with
  | none => rfl
  | some closes => cases h : closes[i]? <;> simp [h]

theorem close_scaled : (t.scaled factor).close x i =
    t.close x i >>= fun close => .ok (close.map (factor x * ·)) := by
  simp only [close, closes_scaled, bind_assoc]
  congr 1
  funext closes
  cases h : closes[i]? <;> simp [h]

@[simp] theorem isLoaded_scaled : (t.scaled factor).isLoaded x = t.isLoaded x :=
  SortedMap.contains_mapValues _ _ _

@[simp] theorem hasCloses_scaled : (t.scaled factor).hasCloses = t.hasCloses := by
  funext i
  rw [Bool.eq_iff_iff, hasCloses_iff, hasCloses_iff]
  simp

@[simp] theorem daysFrom_scaled : (t.scaled factor).daysFrom i = t.daysFrom i := by
  unfold daysFrom
  rw [hasCloses_scaled]
  rfl

@[simp] theorem firstIndex?_scaled : (t.scaled factor).firstIndex? x = t.firstIndex? x := by
  simp only [firstIndex?, scaled, SortedMap.get?_mapValues]
  cases t.series.get? x with
  | none => rfl
  | some closes => simp [List.findIdx?_map, Function.comp_def]

/-- The factor one changes nothing. -/
@[simp] theorem scaled_one : t.scaled (fun _ => 1) = t := by
  have same : (t.series.mapValues fun _ closes => closes.map (Option.map ((1 : K) * ·))) =
      t.series := by
    apply SortedMap.ext_get?
    intro x
    simp [SortedMap.get?_mapValues]
  cases t
  simp only [scaled, mk.injEq, and_true, true_and]
  exact same

end PriceTable

/-! ## Indicators -/

/-- Stretches of the images of closes. -/
theorem IndicatorTable.firstStretch_map {β γ : Type} (f : β → γ) (closes : List (Option β)) :
    firstStretch (closes.map (Option.map f)) =
      ⟨(firstStretch closes).start, (firstStretch closes).values.map f⟩ := by
  have none : Option.isNone ∘ Option.map f = Option.isNone := by
    funext c
    simp
  have some : Option.isSome ∘ Option.map f = Option.isSome := by
    funext c
    simp
  simp only [firstStretch, List.takeWhile_map, List.dropWhile_map, none, some, List.length_map,
    List.filterMap_map, List.map_filterMap]
  rfl

/-- Whether an indicator can be computed does not depend on the prices. -/
theorem Indicator.Function.compute_map {α : Type} [Scalar α] (f : Function) (g : α → α)
    (closes : List α) (window : ℕ) :
    f.compute (closes.map g) window =
      f.compute closes window >>= fun _ => .ok (f.values window (closes.map g)) := by
  simp only [compute, List.length_map, bind_assoc]
  rfl

namespace IndicatorTable

/-- Where an indicator starts depends on its values only by how many there are. -/
theorem firstIndex_congr {α : Type} {first offset : ℕ} {values values' : List α}
    (h : values.length = values'.length) :
    firstIndex first offset values = firstIndex first offset values' := by
  simp only [firstIndex, List.isEmpty_iff_length_eq_zero, h]

/-- Two tables of indicators have the same keys and the same starts, and for the keys of a kind the
same values. -/
structure Resembles {α : Type} (kind : Indicator.Key → Prop) (t₁ t₂ : IndicatorTable α) : Prop where
  starts : ∀ key, (t₁.series.get? key).map Series.start = (t₂.series.get? key).map Series.start
  series : ∀ key, kind key → t₁.series.get? key = t₂.series.get? key

namespace Resembles

variable {α : Type} {kind : Indicator.Key → Prop} {t₁ t₂ : IndicatorTable α}

theorem value (h : Resembles kind t₁ t₂) {key : Indicator.Key} (hk : kind key) (i : ℕ) :
    t₁.value key i = t₂.value key i := by
  unfold IndicatorTable.value
  rw [h.series key hk]

theorem firstComplete (h : Resembles kind t₁ t₂) : t₁.firstComplete = t₂.firstComplete := by
  apply eq_of_le_iff
  intro m
  rw [firstComplete_le_iff, firstComplete_le_iff]
  refine forall_congr' fun key => ?_
  have starts := h.starts key
  cases h₁ : t₁.series.get? key <;> cases h₂ : t₂.series.get? key <;> simp_all

end Resembles

variable [LinearOrder K] [Roots K] [IsStrictOrderedRing K] {factor : String → K}
  (hfactor : ∀ x, 0 < factor x)

include hfactor

/-- One indicator over scaled prices. It fails as before or starts as before, with the same
values if it is made of ratios or if its ticker keeps its prices. -/
theorem compute_scaled (table : PriceTable K) (key : Indicator.Key) :
    Alike (fun s t => s.start = t.start ∧
        (key.function.ScaleFree ∨ factor key.ticker = 1 → s = t))
      (compute table key) (compute (table.scaled factor) key) := by
  unfold compute
  rw [PriceTable.closes_scaled, bind_assoc]
  refine Alike.bind (Alike.refl (fun _ => rfl) _) ?_
  rintro closes _ - - rfl
  simp only [Except.ok_bind, firstStretch_map, Indicator.Function.compute_map]
  cases hc : key.function.compute (firstStretch closes).values key.window with
  | error e => cases e <;> exact Alike.error _
  | ok values =>
    obtain ⟨hw, rfl, -⟩ := Indicator.Function.of_compute_eq_ok hc
    have count : (key.function.values key.window (firstStretch closes).values).length =
        (key.function.values key.window
          ((firstStretch closes).values.map (factor key.ticker * ·))).length := by
      simp only [Indicator.length_values _ hw, List.length_map]
    refine Alike.ok ⟨firstIndex_congr count, fun hkind => ?_⟩
    rcases hkind with hfree | hone
    · rw [Indicator.Function.values_scaled (hfactor key.ticker) hfree]
    · simp [hone]

/-- Indicators over scaled prices. -/
theorem load_scaled (table : PriceTable K) (keys : List Indicator.Key) :
    Alike (Resembles fun key => key.function.ScaleFree ∨ factor key.ticker = 1)
      (load table keys) (load (table.scaled factor) keys) := by
  have each : ∀ key ∈ keys, Alike
      (fun e₁ e₂ : Indicator.Key × Series K => e₁.1 = e₂.1 ∧ e₁.2.start = e₂.2.start ∧
        (e₁.1.function.ScaleFree ∨ factor e₁.1.ticker = 1 → e₁.2 = e₂.2))
      (compute table key >>= fun s => .ok (key, s))
      (compute (table.scaled factor) key >>= fun s => .ok (key, s)) := by
    intro key _
    refine Alike.bind (compute_scaled hfactor table key) ?_
    rintro s t - - ⟨start, same⟩
    exact Alike.ok ⟨rfl, start, same⟩
  refine Alike.bind (Alike.mapM each) fun es₁ es₂ _ _ hes => ?_
  refine Alike.ok ⟨fun key => ?_, fun key hk => ?_⟩
  · exact SortedMap.map_get?_insertAll (hes.imp fun _ _ he => ⟨he.1, fun _ => he.2.1⟩) rfl
  · have whole : ((SortedMap.ofList es₁).get? key).map id = ((SortedMap.ofList es₂).get? key).map id :=
      SortedMap.map_get?_insertAll (hes.imp fun _ _ he => ⟨he.1, fun e => he.2.2 (e ▸ hk)⟩) rfl
    rwa [Option.map_id, id, id] at whole

end IndicatorTable

end StrategyTree
