import StrategyTree.Evaluation
import StrategyTree.Proofs.Outcome
import StrategyTree.Proofs.Tree.Contents

/-!
# What an evaluation reads and allocates

An evaluation of a tree on a day reads the indicators of its conditions and the statistics of the
children it ranks, at that day, and nothing else. What it allocates goes to the tickers it may
trade or holds.

* `Evaluator.visit_agrees`, `Evaluator.evaluate_agrees`: evaluations that read the same agree.
* `Evaluator.mem_keys_evaluate`: the tickers of an allocation.
-/

namespace StrategyTree

variable {α β γ : Type} [Scalar α]

/-! ## Shares of a split -/

namespace Rule

variable {floor : α} {statistic : β → Except Error α} {children : List β} {weight : α}

omit [Scalar α] in
theorem mem_of_mem_evenly {mode : Weighting} {share : Share β α}
    (h : share ∈ evenly children mode weight) : share.child ∈ children := by
  obtain ⟨c, hc, rfl⟩ := List.mem_map.1 h
  exact hc

theorem mem_of_mem_keep {s : Selection} {count : Nat} {ranked : List β} {b : β}
    (h : b ∈ s.keep count ranked) : b ∈ ranked := by
  cases s with
  | bottom => exact List.mem_of_mem_take h
  | top => exact List.mem_of_mem_drop h

theorem mem_of_mem_zipWith {δ : Type} {f : β → γ → Share β δ} (hf : ∀ b c, (f b c).child = b)
    {bs : List β} {cs : List γ} {share : Share β δ} (h : share ∈ List.zipWith f bs cs) :
    share.child ∈ bs := by
  have pairs : List.zipWith f bs cs = (bs.zip cs).map fun p => f p.1 p.2 :=
    (List.map_zip_eq_zipWith (f := fun p => f p.1 p.2)).symm
  rw [pairs] at h
  obtain ⟨⟨b, c⟩, hbc, rfl⟩ := List.mem_map.1 h
  rw [hf]
  exact (List.of_mem_zip hbc).1

/-- Shares go to children. -/
theorem mem_of_mem_shares {rule : Rule} {shares : List (Share β α)}
    (h : rule.shares floor statistic children weight = .ok shares) {share : Share β α}
    (hs : share ∈ shares) : share.child ∈ children := by
  cases rule with
  | root | group _ | equal | specified =>
    cases h
    exact mem_of_mem_evenly hs
  | inverseVolatility window =>
    obtain ⟨values, -, h⟩ := Except.bind_eq_ok.1 h
    cases h
    exact mem_of_mem_zipWith (fun _ _ => rfl) hs
  | filter ranking select count =>
    obtain ⟨values, -, h⟩ := Except.bind_eq_ok.1 h
    dsimp only at h
    split at h
    · cases h
      cases hs
    · cases h
      obtain ⟨p, hp, e⟩ := List.mem_map.1 (mem_of_mem_evenly hs)
      have hp := List.mem_mergeSort.1 (mem_of_mem_keep hp)
      exact e ▸ (List.of_mem_zip hp).2

/-- The same share for the image of its child. -/
def mapShare (f : β → γ) (share : Share β α) : Share γ α :=
  ⟨f share.child, share.mode, share.weight⟩

omit [Scalar α] in
theorem evenly_map (f : β → γ) (children : List β) (mode : Weighting) (weight : α) :
    evenly (children.map f) mode weight = (evenly children mode weight).map (mapShare f) := by
  unfold evenly
  rw [List.map_map, List.map_map]
  rfl

theorem rankAscending_map (f : β → γ) (values : List α) (children : List β) :
    rankAscending (values.zip (children.map f)) =
      (rankAscending (values.zip children)).map (Prod.map id f) := by
  unfold rankAscending
  rw [List.zip_map_right]
  exact (List.map_mergeSort (f := Prod.map id f) fun _ _ _ _ => rfl).symm

theorem keep_map (s : Selection) (count : Nat) (f : β → γ) (ranked : List β) :
    s.keep count (ranked.map f) = (s.keep count ranked).map f := by
  cases s with
  | bottom => exact List.map_take.symm
  | top =>
    unfold Selection.keep
    rw [List.length_map, List.map_drop]

/-- A split shares in the same way whatever its children are called by. -/
theorem shares_map (rule : Rule) (f : β → γ) (statistic : γ → Except Error α) (children : List β) :
    rule.shares floor statistic (children.map f) weight =
      rule.shares floor (fun c => statistic (f c)) children weight >>= fun shares =>
        .ok (shares.map (mapShare f)) := by
  cases rule with
  | root | group _ | specified =>
    exact congrArg Except.ok (evenly_map f children _ _)
  | equal =>
    refine congrArg Except.ok ?_
    rw [List.length_map]
    exact evenly_map f children _ _
  | inverseVolatility window =>
    simp only [shares, List.mapM_map, bind_assoc]
    congr 1
    funext values
    rw [Except.pure_eq_ok, Except.pure_eq_ok, Except.ok_bind, List.zipWith_map_left,
      List.map_zipWith]
    rfl
  | filter ranking select count =>
    simp only [shares, List.mapM_map, bind_assoc]
    congr 1
    funext values
    have hsnd : Prod.snd ∘ Prod.map (id : α → α) f = f ∘ Prod.snd := rfl
    rw [rankAscending_map, List.length_map, keep_map, List.map_map, hsnd, ← List.map_map,
      List.isEmpty_map, List.length_map, evenly_map]
    split <;> rfl

/-- Splits agree on their shares where they agree on the statistics of their children. -/
theorem shares_agrees (R : Agreement) (rule : Rule) {statistic' : β → Except Error α}
    (h : rule.ranking?.isSome → ∀ c ∈ children, R.holds (statistic c) (statistic' c)) :
    R.holds (rule.shares floor statistic children weight)
      (rule.shares floor statistic' children weight) := by
  cases rule with
  | root | group _ | equal | specified => exact R.ok _
  | inverseVolatility window =>
    exact R.bind (R.mapM (h rfl)) fun values _ _ => R.ok _
  | filter ranking select count =>
    refine R.bind (R.mapM (h rfl)) fun values _ _ => ?_
    dsimp only
    split
    · exact R.ok _
    · exact R.ok _

end Rule

/-! ## The walk -/

namespace Evaluator

variable {e e₁ e₂ : Evaluator α} {index : Nat}

theorem visitors_eq_map (children : List (Node α)) :
    e.visitors index children = children.map fun c => ⟨c.id, e.visit index c⟩ := by
  induction children with
  | nil => rfl
  | cons c cs ih => rw [visitors, ih, List.map_cons]

/-- A split reads the statistics of its children, then visits those that get a share. -/
theorem visit_split (id : String) (own : Option Fraction) (rule : Rule) (children : List (Node α))
    (mode : Weighting) (passed : α) (s : Evaluation α) :
    e.visit index (.split id own rule children) mode passed s =
      withWeight own mode passed s fun weight =>
        rule.shares e.settings.volatilityFloor
          (fun c : Node α => e.statistics.value c.id index) children weight >>= fun shares =>
        shares.foldlM (fun s share => e.visit index share.child share.mode share.weight s) s := by
  rw [visit]
  dsimp only
  congr 1
  funext weight
  rw [visitors_eq_map, Rule.shares_map, bind_assoc]
  congr 1
  funext shares
  rw [Except.ok_bind, visitShares, List.foldlM_map]
  rfl

/-! ## Evaluations that read the same -/

section Agrees

variable (R : Agreement)

theorem withWeight_agrees {own : Option Fraction} {mode : Weighting} {passed : α}
    {s : Evaluation α} {go₁ go₂ : α → Except Error (Evaluation α)}
    (h : ∀ weight, R.holds (go₁ weight) (go₂ weight)) :
    R.holds (withWeight own mode passed s go₁) (withWeight own mode passed s go₂) := by
  unfold withWeight
  split
  · exact h _
  · exact R.ok s

omit [Scalar α] in
theorem reading_agrees {key : Indicator.Key}
    (h : R.holds (e₁.indicators.value key index) (e₂.indicators.value key index))
    (s : Evaluation α) : R.holds (e₁.reading index key s) (e₂.reading index key s) := by
  unfold reading
  split
  · exact R.ok _
  · exact R.bind h fun x _ _ => R.ok _

theorem holds_agrees {c : Condition α}
    (h : ∀ key ∈ c.keys,
      R.holds (e₁.indicators.value key index) (e₂.indicators.value key index))
    (s : Evaluation α) : R.holds (e₁.holds index c s) (e₂.holds index c s) := by
  obtain ⟨lhs, comparator, rhs⟩ := c
  cases rhs with
  | fixed y =>
    exact R.bind (reading_agrees R (h lhs (by simp [Condition.keys])) s) fun p _ _ => R.ok _
  | indicator key =>
    refine R.bind (reading_agrees R (h lhs (by simp [Condition.keys])) s) fun p _ _ => ?_
    exact R.bind (reading_agrees R (h key (by simp [Condition.keys])) p.2) fun q _ _ => R.ok _

theorem decided_agrees {mode : Quantifier} {cs : List (Condition α)}
    (h : ∀ key ∈ cs.flatMap Condition.keys,
      R.holds (e₁.indicators.value key index) (e₂.indicators.value key index)) :
    ∀ s, R.holds (e₁.decided index mode cs s) (e₂.decided index mode cs s) := by
  induction cs with
  | nil =>
    intro s
    exact R.ok _
  | cons c cs ih =>
    intro s
    rw [List.flatMap_cons, List.forall_mem_append] at h
    rw [decided, decided]
    refine R.bind (holds_agrees R h.1 s) fun p _ _ => ?_
    obtain ⟨b, s⟩ := p
    cases mode <;> cases b
    · exact R.ok _
    · exact ih h.2 s
    · exact ih h.2 s
    · exact R.ok _

/-- Reads of a visit. Visits of a tree agree where its indicators and its ranked nodes do. -/
theorem visit_agrees (hf : e₁.settings.volatilityFloor = e₂.settings.volatilityFloor)
    {n : Node α}
    (hr : ∀ key ∈ n.readings,
      R.holds (e₁.indicators.value key index) (e₂.indicators.value key index))
    (hs : ∀ id ∈ n.ranked,
      R.holds (e₁.statistics.value id index) (e₂.statistics.value id index)) :
    ∀ mode passed s, R.holds (e₁.visit index n mode passed s) (e₂.visit index n mode passed s) := by
  induction n using Node.induction_on_children with
  | h n ih =>
    -- a child reads a part of what its parent reads
    have below : ∀ c ∈ n.children, ∀ mode passed s,
        R.holds (e₁.visit index c mode passed s) (e₂.visit index c mode passed s) := by
      intro c hc
      have hc' := Node.child_mem_nodes hc
      exact ih c hc (fun key hk => hr key (Node.collect_subset hc' hk))
        (fun id hid => hs id (Node.collect_subset hc' hid))
    intro mode passed s
    cases n with
    | asset id own ticker => exact withWeight_agrees R fun weight => R.ok _
    | unknown id own => exact R.ok s
    | choice id own conditions yes no =>
      refine withWeight_agrees R fun weight => ?_
      refine R.bind (decided_agrees R (fun key hk => hr key ?_) s) fun p _ _ => ?_
      · exact Node.own_subset_collect Node.ownReadings _ hk
      · dsimp only
        split
        · exact below yes (by simp [Node.children]) _ _ _
        · exact below no (by simp [Node.children]) _ _ _
    | split id own rule children =>
      rw [visit_split, visit_split, hf]
      refine withWeight_agrees R fun weight => ?_
      refine R.bind (Rule.shares_agrees R rule ?_) fun shares hshares _ => ?_
      · intro hrank c hc
        refine hs c.id (Node.own_subset_collect Node.ownRanked _ ?_)
        obtain ⟨ranking, hrank⟩ := Option.isSome_iff_exists.1 hrank
        simp only [Node.ownRanked, Node.ranking?, hrank]
        exact List.mem_map_of_mem hc
      · exact R.foldlM (fun share hshare s =>
          below share.child (Rule.mem_of_mem_shares hshares hshare) _ _ s) s

/-- Reads of an evaluation. Evaluations over the same tickers agree where the indicators and
the ranked nodes of the tree do. -/
theorem evaluate_agrees (ht : e₁.tradeable = e₂.tradeable)
    (hf : e₁.settings.volatilityFloor = e₂.settings.volatilityFloor) {n : Node α}
    (hr : ∀ key ∈ n.readings,
      R.holds (e₁.indicators.value key index) (e₂.indicators.value key index))
    (hs : ∀ id ∈ n.ranked,
      R.holds (e₁.statistics.value id index) (e₂.statistics.value id index)) :
    R.holds (e₁.evaluate index n) (e₂.evaluate index n) := by
  rw [evaluate, evaluate, ht]
  refine R.bind ?_ fun reached _ _ => R.ok _
  exact R.bind (visit_agrees R hf hr hs _ _ _) fun s _ _ => R.ok _

end Agrees

/-! ## The tickers of an allocation -/

omit [Scalar α] in
theorem received_of_reading {key : Indicator.Key} {s s' : Evaluation α} {x : α}
    (h : e.reading index key s = .ok (x, s')) : s'.received = s.received := by
  unfold reading at h
  split at h
  · cases h
    rfl
  · obtain ⟨y, -, h⟩ := Except.bind_eq_ok.1 h
    cases h
    rfl

theorem received_of_holds {c : Condition α} {s s' : Evaluation α} {b : Bool}
    (h : e.holds index c s = .ok (b, s')) : s'.received = s.received := by
  obtain ⟨lhs, comparator, rhs⟩ := c
  cases rhs with
  | fixed y =>
    obtain ⟨⟨x, s₁⟩, h₁, h⟩ := Except.bind_eq_ok.1 h
    cases h
    exact received_of_reading h₁
  | indicator key =>
    obtain ⟨⟨x, s₁⟩, h₁, h⟩ := Except.bind_eq_ok.1 h
    obtain ⟨⟨y, s₂⟩, h₂, h⟩ := Except.bind_eq_ok.1 h
    cases h
    exact (received_of_reading h₂).trans (received_of_reading h₁)

theorem received_of_decided {mode : Quantifier} {cs : List (Condition α)} :
    ∀ {s s' : Evaluation α} {b : Bool}, e.decided index mode cs s = .ok (b, s') →
      s'.received = s.received := by
  induction cs with
  | nil =>
    intro s s' b h
    cases h
    rfl
  | cons c cs ih =>
    intro s s' b h
    rw [decided] at h
    obtain ⟨⟨b₁, s₁⟩, h₁, h⟩ := Except.bind_eq_ok.1 h
    rw [← received_of_holds h₁]
    cases mode <;> cases b₁
    · cases h
      rfl
    · exact ih h
    · exact ih h
    · cases h
      rfl

theorem withWeight_eq_ok {own : Option Fraction} {mode : Weighting} {passed : α}
    {s s' : Evaluation α} {go : α → Except Error (Evaluation α)}
    (h : withWeight own mode passed s go = .ok s') :
    (mode.take own passed = none ∧ s' = s) ∨
      ∃ weight, mode.take own passed = some weight ∧ go weight = .ok s' := by
  unfold withWeight at h
  split at h
  · rename_i weight hweight
    exact .inr ⟨weight, hweight, h⟩
  · rename_i hnone
    cases h
    exact .inl ⟨hnone, rfl⟩

/-- A visit adds to what the tickers held below it have received, and to nothing else. -/
theorem mem_received_of_visit {x : String} {n : Node α} :
    ∀ {mode : Weighting} {passed : α} {s s' : Evaluation α},
      e.visit index n mode passed s = .ok s' → x ∈ s'.received.keys →
        x ∈ n.held ∨ x ∈ s.received.keys := by
  induction n using Node.induction_on_children with
  | h n ih =>
    have below : ∀ c ∈ n.children, ∀ {mode : Weighting} {passed : α} {s s' : Evaluation α},
        e.visit index c mode passed s = .ok s' → x ∈ s'.received.keys →
          x ∈ n.held ∨ x ∈ s.received.keys := by
      intro c hc mode passed s s' h hx
      exact (ih c hc h hx).imp (fun hx => Node.collect_subset (Node.child_mem_nodes hc) hx) id
    intro mode passed s s' h hx
    cases n with
    | asset id own ticker =>
      rcases withWeight_eq_ok h with ⟨-, rfl⟩ | ⟨weight, -, h⟩
      · exact .inr hx
      · cases h
        rcases SortedMap.mem_keys_insert.1 hx with rfl | hx
        · exact .inl (Node.own_subset_collect Node.ownTickers _ List.mem_cons_self)
        · exact .inr hx
    | unknown id own =>
      cases h
      exact .inr hx
    | choice id own conditions yes no =>
      rcases withWeight_eq_ok h with ⟨-, rfl⟩ | ⟨weight, -, h⟩
      · exact .inr hx
      · obtain ⟨⟨passes, s₁⟩, h₁, h⟩ := Except.bind_eq_ok.1 h
        rw [← received_of_decided h₁]
        dsimp only at h
        split at h
        · exact below yes (by simp [Node.children]) h hx
        · exact below no (by simp [Node.children]) h hx
    | split id own rule children =>
      rw [visit_split] at h
      rcases withWeight_eq_ok h with ⟨-, rfl⟩ | ⟨weight, -, h⟩
      · exact .inr hx
      · obtain ⟨shares, hshares, h⟩ := Except.bind_eq_ok.1 h
        refine Outcome.foldlM_eq_ok_of_step
          (P := fun t : Evaluation α => x ∈ t.received.keys →
            x ∈ (Node.split id own rule children).held ∨ x ∈ s.received.keys) h ?_ .inr hx
        intro share hshare s₁ s₂ h₁ hs hx
        exact (below share.child (Rule.mem_of_mem_shares hshares hshare) h₁ hx).elim .inl hs

/-- Tickers of an allocation. An allocation names the tickers that may be traded, and beyond
them at most tickers the tree holds. -/
theorem mem_keys_evaluate {n : Node α} {a : Allocation α} (h : e.evaluate index n = .ok a)
    {x : String} :
    (e.tradeable.contains x = true → x ∈ a.keys) ∧
      (x ∈ a.keys → e.tradeable.contains x = true ∨ x ∈ n.held) := by
  obtain ⟨reached, h₁, h⟩ := Except.bind_eq_ok.1 h
  obtain ⟨s, h₂, h₁⟩ := Except.bind_eq_ok.1 h₁
  cases h₁
  cases h
  have hk : ∀ y, y ∈ List.map Prod.fst (s.received.mapValues fun _ w => some w).entries →
      y ∈ n.held := by
    intro y hy
    change y ∈ (s.received.mapValues fun _ w => some w).keys at hy
    rw [SortedMap.keys_mapValues] at hy
    rcases mem_received_of_visit h₂ hy with hy | hy
    · exact hy
    · cases hy
  rw [SortedMap.mem_keys_insertAll, SortedMap.keys_mapValues, ← SortedMap.contains_iff_mem_keys]
  exact ⟨.inr, fun hx => hx.elim (fun hx => .inr (hk x hx)) .inl⟩

/-- An allocation names just the tickers that may be traded, if these are the ones the tree
holds. -/
theorem keys_evaluate {n : Node α} {a : Allocation α} (h : e.evaluate index n = .ok a)
    (he : ∀ x ∈ n.held, e.tradeable.contains x = true) : a.keys = e.tradeable.keys := by
  apply SortedMap.keys_eq_of_mem_iff
  intro x
  obtain ⟨named, names⟩ := mem_keys_evaluate h (x := x)
  rw [← SortedMap.contains_iff_mem_keys (m := e.tradeable)]
  exact ⟨fun hx => (names hx).elim id (he x), named⟩

end Evaluator

end StrategyTree
