import Mathlib.Algebra.BigOperators.Ring.List
import Mathlib.Algebra.Order.BigOperators.Group.List
import Mathlib.Data.List.ReduceOption
import Mathlib.Tactic.LinearCombination
import StrategyTree.Proofs.Evaluation.Reads
import StrategyTree.Proofs.Exact

/-!
# The weight that an evaluation gives out

In exact arithmetic, what the children of a split take together is a multiple of the weight of the
split: as many times the weight as a root or a group has children, the sum of the parts that are
specified, and otherwise the whole weight, or nothing if no child gets a share. If none of these
multiples exceeds one, a tree gives out no more than it takes; if all of them are one, exactly that.
Both are the same induction over the tree, for one `Bound` or the other.

* `Rule.spent`, `Rule.sum_taken`: what the children of a split take.
* `Bound`: a relation between what is given out and what there is to give.
* `Evaluator.accounts_of_visit`: a visit gives out what its bound allows.
* `Allocation.percentages`: the percentages of an allocation.
-/

namespace StrategyTree

variable {K : Type} [Field K] [LinearOrder K] [Roots K]

/-! ## Weights that nodes take -/

namespace Node

/-- The part that a node's own weight says; nothing where it has none. -/
def part (n : Node K) : K := (n.weight.map Fraction.ratio).getD 0

/-- What a node takes of what its parent passes to it. -/
def taken (n : Node K) (mode : Weighting) (passed : K) : K :=
  match mode with
  | .equal => passed
  | .specified => n.part * passed

theorem taken_eq (n : Node K) (mode : Weighting) (passed : K) :
    n.taken mode passed = (mode.take n.weight passed).getD 0 := by
  cases mode with
  | equal => rfl
  | specified =>
    unfold taken Weighting.take part
    cases n.weight with
    | none => exact zero_mul passed
    | some f => rfl

theorem taken_of_take_eq_none {n : Node K} {mode : Weighting} {passed : K}
    (h : mode.take n.weight passed = none) : n.taken mode passed = 0 := by
  rw [taken_eq, h]
  rfl

theorem taken_of_take_eq_some {n : Node K} {mode : Weighting} {passed weight : K}
    (h : mode.take n.weight passed = some weight) : n.taken mode passed = weight := by
  rw [taken_eq, h]
  rfl

variable [IsStrictOrderedRing K]

theorem part_nonneg (n : Node K) : 0 ≤ n.part := by
  unfold part
  cases n.weight with
  | none => exact le_refl 0
  | some f => exact div_nonneg (Nat.cast_nonneg f.numerator) (Nat.cast_nonneg f.denominator)

theorem taken_nonneg (n : Node K) (mode : Weighting) {passed : K} (h : 0 ≤ passed) :
    0 ≤ n.taken mode passed := by
  cases mode with
  | equal => exact h
  | specified => exact mul_nonneg n.part_nonneg h

end Node

/-- What the child of a share takes of it. -/
def Share.taken (share : Share (Node K) K) : K := share.child.taken share.mode share.weight

/-! ## Weights that splits spend -/

namespace Rule

/-- The multiple of its weight that a split spends on its children. -/
def spent (rule : Rule) (children : List (Node K)) : K :=
  match rule with
  | .root | .group _ => children.length
  | .specified => (children.map Node.part).sum
  | .equal | .inverseVolatility _ => (min children.length 1 : ℕ)
  | .filter _ _ count => (min (min count children.length) 1 : ℕ)

theorem sum_taken_evenly_equal (children : List (Node K)) (weight : K) :
    ((evenly children .equal weight).map Share.taken).sum = children.length * weight := by
  have each : (evenly children .equal weight).map Share.taken = children.map fun _ => weight := by
    unfold evenly
    rw [List.map_map]
    rfl
  rw [each, List.map_const', List.sum_replicate, nsmul_eq_mul]

theorem sum_taken_evenly_specified (children : List (Node K)) (weight : K) :
    ((evenly children .specified weight).map Share.taken).sum =
      (children.map Node.part).sum * weight := by
  unfold evenly
  rw [List.map_map, ← List.sum_map_mul_right]
  rfl

theorem effectiveVolatility_pos {floor : K} (hf : 0 < floor) (v : K) :
    0 < effectiveVolatility floor v := by
  unfold effectiveVolatility
  split
  · rename_i h
    exact Exact.zero_lt_iff.1 h.1
  · exact hf

omit [Field K] [LinearOrder K] [Roots K] in
/-- Shares side by side with the children they go to, read off in a way that ignores the
children. -/
theorem map_zipWith_share {f : Share (Node K) K → K} (hf : ∀ c w, f ⟨c, .equal, w⟩ = w)
    {children : List (Node K)} {xs : List K} (hn : xs.length = children.length) (g : K → K) :
    (List.zipWith (fun c x => ⟨c, .equal, g x⟩) children xs).map f = xs.map g := by
  apply List.ext_getElem
  · rw [List.length_map, List.length_zipWith, List.length_map, hn, Nat.min_self]
  · intro i hi hi'
    rw [List.getElem_map, List.getElem_zipWith, List.getElem_map, hf]

/-- A filter keeps as many children as it is asked to. -/
theorem length_keep {β : Type} (s : Selection) {count : ℕ} {ranked : List β}
    (h : count ≤ ranked.length) : (s.keep count ranked).length = count := by
  cases s with
  | bottom => exact List.length_take_of_le h
  | top =>
    unfold Selection.keep
    rw [List.length_drop]
    omega

variable [IsStrictOrderedRing K]

/-- Parts of a weight in a number make up the weight, unless there are none. -/
theorem count_mul_div (n : ℕ) (weight : K) :
    (n : K) * (weight / (max n 1 : ℕ)) = (min n 1 : ℕ) * weight := by
  rcases Nat.eq_zero_or_pos n with rfl | hn
  · rw [Nat.zero_min, Nat.cast_zero, zero_mul, zero_mul]
  · rw [Nat.max_eq_left hn, Nat.min_eq_right hn, Nat.cast_one, one_mul]
    exact mul_div_cancel₀ weight (Nat.cast_ne_zero.2 hn.ne')

/-- Parts of a weight in proportion to positive numbers make up the weight, unless there are
none. -/
theorem sum_proportions {xs : List K} (hx : ∀ x ∈ xs, 0 < x) (weight : K) :
    (xs.map fun x => x / xs.sum * weight).sum = (min xs.length 1 : ℕ) * weight := by
  rcases eq_or_ne xs [] with rfl | hne
  · rw [List.map_nil, List.sum_nil, List.length_nil, Nat.zero_min, Nat.cast_zero, zero_mul]
  · have some_one : 1 ≤ xs.length := List.length_pos_of_ne_nil hne
    have total : 0 < xs.sum := List.sum_pos xs hx hne
    rw [List.sum_map_mul_right]
    simp only [div_eq_mul_inv]
    rw [List.sum_map_mul_right, List.map_id', mul_inv_cancel₀ total.ne', Nat.min_eq_right some_one,
      Nat.cast_one]

section Shares

variable {rule : Rule} {floor weight : K} {statistic : Node K → Except Error K}
  {children : List (Node K)} {shares : List (Share (Node K) K)}

omit [IsStrictOrderedRing K] in
theorem length_inverses {values : List K} (hvalues : children.mapM statistic = .ok values) :
    (values.map fun v => Scalar.one / effectiveVolatility floor v).length = children.length := by
  rw [List.length_map, (Outcome.mapM_eq_ok.1 hvalues).length_eq]

theorem inverses_pos (hf : 0 < floor) (values : List K) :
    ∀ x ∈ values.map fun v => Scalar.one / effectiveVolatility floor v, 0 < x := by
  intro x hx
  obtain ⟨v, -, rfl⟩ := List.mem_map.1 hx
  rw [Exact.one_eq]
  exact one_div_pos.2 (effectiveVolatility_pos hf v)

/-- Shares are not negative. -/
theorem weight_nonneg (hf : 0 < floor) (hw : 0 ≤ weight)
    (h : rule.shares floor statistic children weight = .ok shares) :
    ∀ share ∈ shares, 0 ≤ share.weight := by
  have even : ∀ (cs : List (Node K)) (mode : Weighting) {w : K}, 0 ≤ w →
      ∀ share ∈ evenly cs mode w, 0 ≤ share.weight := by
    intro cs mode w hw share hs
    obtain ⟨c, -, rfl⟩ := List.mem_map.1 hs
    exact hw
  cases rule with
  | root | group _ | specified =>
    cases h
    exact even children _ hw
  | equal =>
    cases h
    exact even children _ (div_nonneg hw (Nat.cast_nonneg _))
  | inverseVolatility window =>
    obtain ⟨values, hvalues, h⟩ := Except.bind_eq_ok.1 h
    cases h
    intro share hs
    have weights := List.mem_map_of_mem (f := Share.weight) hs
    rw [Exact.sum_eq, map_zipWith_share (fun _ _ => rfl) (length_inverses hvalues)
      fun x => x / _ * weight] at weights
    obtain ⟨x, hx, e⟩ := List.mem_map.1 weights
    have total := List.sum_nonneg fun x hx => (inverses_pos hf values x hx).le
    rw [← e]
    exact mul_nonneg (div_nonneg (inverses_pos hf values x hx).le total) hw
  | filter ranking select count =>
    obtain ⟨values, -, h⟩ := Except.bind_eq_ok.1 h
    dsimp only at h
    split at h
    · cases h
      exact fun share hs => absurd hs List.not_mem_nil
    · cases h
      exact even _ _ (div_nonneg hw (Nat.cast_nonneg _))

/-- Shares of a split. Together the children take the multiple of the weight that the split
spends. -/
theorem sum_taken (hf : 0 < floor)
    (h : rule.shares floor statistic children weight = .ok shares) :
    (shares.map Share.taken).sum = rule.spent children * weight := by
  cases rule with
  | root | group _ =>
    cases h
    exact sum_taken_evenly_equal children weight
  | equal =>
    cases h
    rw [sum_taken_evenly_equal]
    exact count_mul_div children.length weight
  | specified =>
    cases h
    exact sum_taken_evenly_specified children weight
  | inverseVolatility window =>
    obtain ⟨values, hvalues, h⟩ := Except.bind_eq_ok.1 h
    cases h
    rw [Exact.sum_eq, map_zipWith_share (fun _ _ => rfl) (length_inverses hvalues)
      fun x => x / _ * weight, sum_proportions (inverses_pos hf values), length_inverses hvalues]
    rfl
  | filter ranking select count =>
    obtain ⟨values, hvalues, h⟩ := Except.bind_eq_ok.1 h
    dsimp only at h
    have ranked : (rankAscending (values.zip children)).length = children.length := by
      rw [rankAscending, List.length_mergeSort, List.length_zip,
        ← (Outcome.mapM_eq_ok.1 hvalues).length_eq, Nat.min_self]
    have kept : ((select.keep (min count (rankAscending (values.zip children)).length)
        (rankAscending (values.zip children))).map Prod.snd).length =
          min count children.length := by
      rw [List.length_map, length_keep _ (Nat.min_le_right _ _), ranked]
    rw [spent]
    split at h
    · rename_i hkept
      cases h
      rw [List.isEmpty_iff.1 hkept, List.length_nil] at kept
      rw [← kept, Nat.zero_min, Nat.cast_zero, zero_mul]
      rfl
    · rename_i hkept
      cases h
      rw [List.isEmpty_iff, ← List.length_eq_zero_iff, kept] at hkept
      rw [sum_taken_evenly_equal, kept, ← count_mul_div, Nat.max_eq_left (by omega)]
      rfl

end Shares

end Rule

/-! ## Bounds -/

/-- How what is given out stands to what there is to give: a relation that holds of equal amounts,
is transitive, and survives adding to and scaling both sides. -/
structure Bound (K : Type) [Field K] [LinearOrder K] where
  keeps : K → K → Prop
  refl : ∀ x, keeps x x
  trans : ∀ {x y z}, keeps x y → keeps y z → keeps x z
  add_left : ∀ {x y} z, keeps x y → keeps (z + x) (z + y)
  mul_right : ∀ {x y z}, keeps x y → 0 ≤ z → keeps (x * z) (y * z)

namespace Bound

theorem add_right (bound : Bound K) {x y : K} (h : bound.keeps x y) (z : K) :
    bound.keeps (x + z) (y + z) := by
  rw [add_comm x, add_comm y]
  exact bound.add_left z h

/-- Nothing is asked. -/
def free : Bound K where
  keeps _ _ := True
  refl _ := trivial
  trans _ _ := trivial
  add_left _ _ := trivial
  mul_right _ _ := trivial

/-- Exactly what there is to give is given out. -/
def exactly : Bound K where
  keeps x y := x = y
  refl _ := rfl
  trans := Eq.trans
  add_left z h := congrArg (z + ·) h
  mul_right h _ := congrArg (· * _) h

/-- No more is given out than there is to give. -/
def atMost [IsStrictOrderedRing K] : Bound K where
  keeps x y := x ≤ y
  refl := le_refl
  trans := le_trans
  add_left z h := add_le_add_right h z
  mul_right h hz := mul_le_mul_of_nonneg_right h hz

end Bound

/-- What a node by itself gives out, or spends on its children, keeps to what it has. -/
def Node.SpendsWithin (bound : Bound K) : Node K → Prop
  | .asset .. | .choice .. => True
  | .unknown .. => bound.keeps 0 1
  | .split _ _ rule children => bound.keeps (rule.spent children) 1

/-! ## The walk -/

/-- No ticker has received a negative weight, and what all of them have received keeps to what
there was to give. -/
structure Evaluation.Accounts (bound : Bound K) (s : Evaluation K) (given : K) : Prop where
  nonneg : ∀ w ∈ s.received.values, 0 ≤ w
  total : bound.keeps s.received.values.sum given

namespace Evaluator

variable {e : Evaluator K} {index : ℕ} {bound : Bound K}

theorem accounts_empty (bound : Bound K) : Evaluation.Accounts bound ({} : Evaluation K) 0 where
  nonneg _ hw := absurd hw List.not_mem_nil
  total := bound.refl 0

/-- What a ticker receives adds to what all have received. -/
theorem sum_receive (x : String) (w : K) (s : Evaluation K) :
    (receive x w s).received.values.sum = s.received.values.sum + w := by
  have sum := SortedMap.sum_values_insert id s.received x
    ((s.received.get? x).getD Scalar.zero + w)
  have before : SortedMap.part id s.received x = (s.received.get? x).getD Scalar.zero := by
    rw [SortedMap.part, Option.map_id, Exact.zero_eq]
    rfl
  rw [before, List.map_id, List.map_id, id] at sum
  show (s.received.insert x _).values.sum = _
  linear_combination sum

variable [IsStrictOrderedRing K]

/-- What a ticker receives counts as given. -/
theorem accounts_receive {s : Evaluation K} {given w : K} (h : s.Accounts bound given)
    (hw : 0 ≤ w) (x : String) : (receive x w s).Accounts bound (given + w) where
  nonneg v hv := by
    have before : 0 ≤ (s.received.get? x).getD Scalar.zero := by
      rw [Exact.zero_eq]
      cases hx : s.received.get? x with
      | none => exact le_refl 0
      | some v => exact h.nonneg v (SortedMap.mem_values.2 ⟨x, hx⟩)
    obtain ⟨y, hy⟩ := SortedMap.mem_values.1 hv
    rw [receive, SortedMap.get?_insert] at hy
    split at hy
    · cases hy
      exact add_nonneg before hw
    · exact h.nonneg v (SortedMap.mem_values.2 ⟨y, hy⟩)
  total := by
    rw [sum_receive]
    exact bound.add_right h.total w

omit [IsStrictOrderedRing K] in
/-- The shares of a split count as given one after the other. -/
theorem accounts_of_shares {shares : List (Share (Node K) K)}
    (hvisit : ∀ share ∈ shares, ∀ {s s' : Evaluation K} {given : K},
      e.visit index share.child share.mode share.weight s = .ok s' → s.Accounts bound given →
        s'.Accounts bound (given + share.taken)) :
    ∀ {s s' : Evaluation K} {given : K},
      shares.foldlM (fun s share => e.visit index share.child share.mode share.weight s) s =
        .ok s' → s.Accounts bound given →
          s'.Accounts bound (given + (shares.map Share.taken).sum) := by
  induction shares with
  | nil =>
    intro s s' given h hs
    cases h
    rw [List.map_nil, List.sum_nil, add_zero]
    exact hs
  | cons share shares ih =>
    intro s s' given h hs
    rw [List.foldlM_cons] at h
    obtain ⟨s₁, h₁, h⟩ := Except.bind_eq_ok.1 h
    rw [List.map_cons, List.sum_cons, ← add_assoc]
    exact ih (fun share hshare => hvisit share (List.mem_cons_of_mem _ hshare)) h
      (hvisit share List.mem_cons_self h₁ hs)

/-- A visit. A tree all of whose nodes spend within a bound gives out what the bound allows of
what the tree takes. -/
theorem accounts_of_visit (bound : Bound K) (hf : 0 < e.settings.volatilityFloor) {n : Node K}
    (hn : ∀ m ∈ n.nodes, m.SpendsWithin bound) :
    ∀ {mode : Weighting} {passed : K} {s s' : Evaluation K} {given : K},
      e.visit index n mode passed s = .ok s' → 0 ≤ passed → s.Accounts bound given →
        s'.Accounts bound (given + n.taken mode passed) := by
  induction n using Node.induction_on_children with
  | h n ih =>
    have below : ∀ c ∈ n.children, ∀ {mode : Weighting} {passed : K} {s s' : Evaluation K}
        {given : K}, e.visit index c mode passed s = .ok s' → 0 ≤ passed →
          s.Accounts bound given → s'.Accounts bound (given + c.taken mode passed) :=
      fun c hc => ih c hc fun m hm => hn m (Node.nodes_subset (Node.child_mem_nodes hc) hm)
    have spends := hn n (Node.self_mem_nodes n)
    intro mode passed s s' given h hpassed hs
    have nonneg := n.taken_nonneg mode hpassed
    -- a node that takes nothing leaves everything as it was
    have untouched : mode.take n.weight passed = none →
        s.Accounts bound (given + n.taken mode passed) := by
      intro htake
      rw [Node.taken_of_take_eq_none htake, add_zero]
      exact hs
    cases n with
    | asset id own ticker =>
      rcases withWeight_eq_ok h with ⟨htake, rfl⟩ | ⟨weight, htake, h⟩
      · exact untouched htake
      · cases h
        rw [Node.taken_of_take_eq_some htake] at nonneg ⊢
        exact accounts_receive hs nonneg ticker
    | unknown id own =>
      cases h
      have nothing := bound.mul_right spends nonneg
      rw [zero_mul, one_mul] at nothing
      have total := bound.add_left given nothing
      rw [add_zero] at total
      exact ⟨hs.nonneg, bound.trans hs.total total⟩
    | choice id own conditions yes no =>
      rcases withWeight_eq_ok h with ⟨htake, rfl⟩ | ⟨weight, htake, h⟩
      · exact untouched htake
      · rw [Node.taken_of_take_eq_some htake] at nonneg ⊢
        obtain ⟨⟨passes, s₁⟩, h₁, h⟩ := Except.bind_eq_ok.1 h
        have hs₁ : s₁.Accounts bound given := by
          have same := received_of_decided h₁
          exact ⟨same ▸ hs.nonneg, same ▸ hs.total⟩
        dsimp only at h
        split at h
        · exact below yes (by simp [Node.children]) h nonneg hs₁
        · exact below no (by simp [Node.children]) h nonneg hs₁
    | split id own rule children =>
      rw [visit_split] at h
      rcases withWeight_eq_ok h with ⟨htake, rfl⟩ | ⟨weight, htake, h⟩
      · exact untouched htake
      · rw [Node.taken_of_take_eq_some htake] at nonneg ⊢
        obtain ⟨shares, hshares, h⟩ := Except.bind_eq_ok.1 h
        have weights := Rule.weight_nonneg hf nonneg hshares
        have passedOn := accounts_of_shares (fun share hshare s s' given h hs =>
          below share.child (Rule.mem_of_mem_shares hshares hshare) h (weights share hshare) hs)
          h hs
        have kept := bound.mul_right spends nonneg
        rw [← Rule.sum_taken hf hshares, one_mul] at kept
        exact ⟨passedOn.nonneg, bound.trans passedOn.total (bound.add_left given kept)⟩

end Evaluator

/-! ## Percentages -/

/-- The percentages of an allocation. -/
def Allocation.percentages (a : Allocation K) : List K := a.values.reduceOption

end StrategyTree
