import StrategyTree.Proofs.Outcome
import StrategyTree.Proofs.Tree.Contents

/-!
# What the requirements of a tree gather

`Requirements.visit` goes through a tree recursively. It is the same as taking in the nodes of the
walk one after the other, and so what it gathers is read off the walk.

* `Requirements.visit_eq_foldlM`: the recursion is a loop over the walk.
* `Requirements.Gathers`: what a list of nodes adds to the requirements gathered before.
* `Requirements.gathers_of_ofTree`: the requirements of an accepted tree.
* `Requirements.statisticOf_of_ofTree`: of the rankings of an id, the first one counts.
* `Requirements.statistics_of_ofTree`: with distinct ids, every ranked node has its own statistic.
* `Requirements.requiredLookback_eq`: the look-back, where it fits into a word.
-/

namespace StrategyTree

namespace Requirements

variable {α : Type}

/-! ## The look-back -/

/-- The days that a strategy looks back on, be they more than fit into a word. -/
def exactLookback (r : Requirements) : Nat := r.indicatorWindow + r.statisticWindow * r.nesting

theorem requiredLookback_eq {r : Requirements} (h : r.exactLookback < Word.size) :
    r.requiredLookback = r.exactLookback := by
  unfold exactLookback at h
  have product : r.statisticWindow * r.nesting < Word.size := by omega
  rw [requiredLookback, Word.mul_of_lt product, Word.add_of_lt h, exactLookback]

/-! ## The recursion as a loop -/

/-- Takes in what a node at a depth asks for itself. -/
def enter (r : Requirements) (p : Nat × Node α) : Except Error Requirements :=
  match p.2 with
  | .asset id weight ticker => do
    checkWeight id weight
    return r.addTicker p.1 ticker
  | .unknown id weight => do
    checkWeight id weight
    return r
  | .choice id weight conditions _ _ => do
    checkWeight id weight
    (conditions.items.flatMap Condition.keys).foldlM addIndicator r
  | .split id weight rule children => do
    checkWeight id weight
    let (_, r) ← enterSplit p.1 id rule (children.map Node.id) r
    return r

theorem visitAll_eq_foldlM (depth : Nat) (cs : List (Node α)) :
    ∀ r, visitAll depth r cs = cs.foldlM (visit depth) r := by
  induction cs with
  | nil => intro r; rfl
  | cons c cs ih =>
    intro r
    rw [visitAll, List.foldlM_cons]
    congr 1
    funext r
    exact ih r

theorem childDepth_of_enterSplit {depth d : Nat} {id : String} {rule : Rule} {keys : List String}
    {r r' : Requirements} (h : enterSplit depth id rule keys r = .ok (d, r'))
    (weight : Option Fraction) (children : List (Node α)) :
    (Node.split id weight rule children).childDepth depth = d := by
  obtain ⟨_, _, h⟩ := Except.bind_eq_ok.1 h
  rw [Node.childDepth, Node.ranking?]
  cases hr : rule.ranking? with
  | none =>
    rw [hr] at h
    cases h
    rfl
  | some ranking =>
    rw [hr] at h
    obtain ⟨_, _, h⟩ := Except.bind_eq_ok.1 h
    cases h
    rfl

/-- A visit enters the node, then visits its children at their depth. -/
theorem visit_eq (depth : Nat) (r : Requirements) (n : Node α) :
    visit depth r n = enter r (depth, n) >>= fun r =>
      n.children.foldlM (visit (n.childDepth depth)) r := by
  cases n with
  | asset id weight ticker =>
    simp only [visit, enter]
    cases checkWeight id weight <;> rfl
  | unknown id weight =>
    simp only [visit, enter]
    cases checkWeight id weight <;> rfl
  | choice id weight conditions yes no =>
    simp only [visit, enter, bind_assoc, Node.children, Node.childDepth, Node.ranking?,
      List.foldlM_cons, List.foldlM_nil, bind_pure]
  | split id weight rule children =>
    simp only [visit, enter, bind_assoc]
    congr 1
    funext _
    cases h : enterSplit depth id rule (children.map Node.id) r with
    | error e => rfl
    | ok p =>
      obtain ⟨d, r'⟩ := p
      rw [childDepth_of_enterSplit h]
      exact visitAll_eq_foldlM _ children r'

/-- The recursion is a loop. Visiting a tree takes in the nodes of its walk one by one. -/
theorem visit_eq_foldlM (n : Node α) :
    ∀ depth r, visit depth r n = (n.walk depth).foldlM enter r := by
  induction n using Node.induction_on_children with
  | h n ih =>
    intro depth r
    rw [visit_eq, Node.walk_eq, List.foldlM_cons]
    congr 1
    funext r
    rw [Outcome.foldlM_flatMap]
    exact Outcome.foldlM_congr fun c hc r => ih c hc _ r

/-! ## What a list of nodes adds -/

/-- The tickers a node mentions. -/
def mentioned (n : Node α) : List String := n.ownTickers ++ n.ownReadings.map Indicator.Key.ticker

/-- The tickers whose past a node at a depth looks at. -/
def lookedBack (depth : Nat) (n : Node α) : List String :=
  (if 0 < depth then n.ownTickers else []) ++ n.ownReadings.map Indicator.Key.ticker

/-- Appends a statistic unless one is known for its node. -/
def appendNew (known : List NodeStatistic) (s : NodeStatistic) : List NodeStatistic :=
  if (known.find? fun t => t.node == s.node).isSome then known else known ++ [s]

/-- `r'` are the requirements `r` with what the nodes of a list with their depths ask for. -/
structure Gathers (ps : List (Nat × Node α)) (r r' : Requirements) : Prop where
  tickers : ∀ x, r'.tickers.contains x = true ↔
    x ∈ ps.flatMap (fun p => mentioned p.2) ∨ r.tickers.contains x = true
  tradeable : ∀ x, r'.tradeable.contains x = true ↔
    x ∈ ps.flatMap (fun p => p.2.ownTickers) ∨ r.tradeable.contains x = true
  lookback : ∀ x, r'.lookback.contains x = true ↔
    x ∈ ps.flatMap (fun p => lookedBack p.1 p.2) ∨ r.lookback.contains x = true
  indicators : ∀ key, key ∈ r'.indicators.keys ↔
    key ∈ ps.flatMap (fun p => p.2.ownReadings) ∨ key ∈ r.indicators.keys
  indicatorWindow : ∀ m, r'.indicatorWindow ≤ m ↔
    (∀ key ∈ ps.flatMap fun p => p.2.ownReadings, key.window ≤ m) ∧ r.indicatorWindow ≤ m
  statistics : r'.statistics =
    (ps.flatMap fun p => p.2.ownStatistics p.1).foldl appendNew r.statistics
  statisticWindow : ∀ m, r'.statisticWindow ≤ m ↔
    (∀ p ∈ ps, ∀ k ∈ p.2.ranking?, k.window ≤ m) ∧ r.statisticWindow ≤ m
  nesting : ∀ m, r'.nesting ≤ m ↔
    (∀ p ∈ ps, ∀ k ∈ p.2.ranking?, p.1 + 1 ≤ m) ∧ r.nesting ≤ m
  readings_pos : ∀ key ∈ ps.flatMap fun p => p.2.ownReadings, 0 < key.window
  rankings_pos : ∀ p ∈ ps, ∀ k ∈ p.2.ranking?, 0 < k.window

theorem Gathers.nil (r : Requirements) : Gathers ([] : List (Nat × Node α)) r r := by
  constructor <;> simp

theorem Gathers.append {ps qs : List (Nat × Node α)} {r₁ r₂ r₃ : Requirements}
    (h : Gathers ps r₁ r₂) (g : Gathers qs r₂ r₃) : Gathers (ps ++ qs) r₁ r₃ where
  tickers x := by
    rw [g.tickers, h.tickers, List.flatMap_append, List.mem_append, or_left_comm, or_assoc]
  tradeable x := by
    rw [g.tradeable, h.tradeable, List.flatMap_append, List.mem_append, or_left_comm, or_assoc]
  lookback x := by
    rw [g.lookback, h.lookback, List.flatMap_append, List.mem_append, or_left_comm, or_assoc]
  indicators key := by
    rw [g.indicators, h.indicators, List.flatMap_append, List.mem_append, or_left_comm, or_assoc]
  indicatorWindow m := by
    rw [g.indicatorWindow, h.indicatorWindow, List.flatMap_append, List.forall_mem_append,
      and_left_comm, and_assoc]
  statistics := by
    rw [g.statistics, h.statistics, List.flatMap_append, List.foldl_append]
  statisticWindow m := by
    rw [g.statisticWindow, h.statisticWindow, List.forall_mem_append, and_left_comm, and_assoc]
  nesting m := by
    rw [g.nesting, h.nesting, List.forall_mem_append, and_left_comm, and_assoc]
  readings_pos := by
    rw [List.flatMap_append, List.forall_mem_append]
    exact ⟨h.readings_pos, g.readings_pos⟩
  rankings_pos := by
    rw [List.forall_mem_append]
    exact ⟨h.rankings_pos, g.rankings_pos⟩

/-! ## What one node adds -/

theorem addIndicator_eq_ok {r r' : Requirements} {key : Indicator.Key}
    (h : addIndicator r key = .ok r') :
    0 < key.window ∧ r' =
      { r with
        tickers := r.tickers.add key.ticker
        lookback := r.lookback.add key.ticker
        indicators := r.indicators.add key
        indicatorWindow := max r.indicatorWindow key.window } := by
  unfold addIndicator at h
  split at h
  · cases h
  · cases h
    exact ⟨by omega, rfl⟩

theorem mem_keys_add {κ : Type} [KeyOrder κ] {t : SortedSet κ} {k j : κ} :
    j ∈ (t.add k).keys ↔ k = j ∨ j ∈ t.keys := by
  rw [SortedSet.add, SortedMap.mem_keys_insert, eq_comm]

/-- The indicators of a node's conditions, taken in one after the other. -/
theorem addIndicators_eq_ok {keys : List Indicator.Key} :
    ∀ {r r' : Requirements}, keys.foldlM addIndicator r = .ok r' →
      (∀ x, r'.tickers.contains x = true ↔
        x ∈ keys.map Indicator.Key.ticker ∨ r.tickers.contains x = true) ∧
      (∀ x, r'.lookback.contains x = true ↔
        x ∈ keys.map Indicator.Key.ticker ∨ r.lookback.contains x = true) ∧
      (∀ key, key ∈ r'.indicators.keys ↔ key ∈ keys ∨ key ∈ r.indicators.keys) ∧
      (∀ m, r'.indicatorWindow ≤ m ↔
        (∀ key ∈ keys, key.window ≤ m) ∧ r.indicatorWindow ≤ m) ∧
      (∀ key ∈ keys, 0 < key.window) ∧
      r'.tradeable = r.tradeable ∧ r'.statistics = r.statistics ∧
      r'.statisticWindow = r.statisticWindow ∧ r'.nesting = r.nesting := by
  induction keys with
  | nil =>
    intro r r' h
    cases h
    simp
  | cons key keys ih =>
    intro r r' h
    rw [List.foldlM_cons] at h
    obtain ⟨r₁, h₁, h⟩ := Except.bind_eq_ok.1 h
    obtain ⟨hpos, rfl⟩ := addIndicator_eq_ok h₁
    obtain ⟨i₁, i₂, i₃, i₄, i₅, i₆⟩ := ih h
    refine ⟨fun x => ?_, fun x => ?_, fun k => ?_, fun m => ?_, ?_, i₆⟩
    · rw [i₁, SortedSet.contains_add, List.map_cons, List.mem_cons, or_left_comm, or_assoc, eq_comm]
    · rw [i₂, SortedSet.contains_add, List.map_cons, List.mem_cons, or_left_comm, or_assoc, eq_comm]
    · rw [i₃, mem_keys_add, List.mem_cons, or_left_comm, or_assoc, eq_comm]
    · rw [i₄, List.forall_mem_cons, Nat.max_le]
      tauto
    · rw [List.forall_mem_cons]
      exact ⟨hpos, i₅⟩

/-- The statistics of a node's children, taken in one after the other. -/
theorem foldl_addStatistic (ranking : Ranking) (depth : Nat) (ids : List String) :
    ∀ r : Requirements, ids.foldl (addStatistic ranking depth) r =
      { r with
        statistics := (ids.map fun id => ⟨id, ranking, depth⟩).foldl appendNew r.statistics } := by
  induction ids with
  | nil => intro r; rfl
  | cons id ids ih =>
    intro r
    rw [List.foldl_cons, ih, List.map_cons, List.foldl_cons]
    unfold addStatistic appendNew statisticOf
    split <;> rfl

theorem gathers_addTicker (r : Requirements) (depth : Nat) (id : String) (weight : Option Fraction)
    (ticker : String) :
    Gathers [(depth, (Node.asset id weight ticker : Node α))] r (r.addTicker depth ticker) := by
  have add : ∀ (s : SortedSet String) (x : String),
      (s.add ticker).contains x = true ↔ x ∈ [ticker] ∨ s.contains x = true := by
    intro s x
    rw [SortedSet.contains_add, List.mem_singleton, eq_comm]
  refine ⟨add r.tickers, add r.tradeable, fun x => ?_, ?_, ?_, rfl, ?_, ?_, ?_, ?_⟩
  · show SortedMap.contains (if 0 < depth then r.lookback.add ticker else r.lookback) x = true ↔
      x ∈ (if 0 < depth then [ticker] else []) ++ [] ++ [] ∨ _
    split
    · exact add r.lookback x
    · simp
  all_goals simp [Node.ownReadings, Node.ranking?, addTicker]

theorem gathers_addIndicators {r r' : Requirements} {id : String} {weight : Option Fraction}
    {conditions : Conditions α} {yes no : Node α} {depth : Nat}
    (h : (conditions.items.flatMap Condition.keys).foldlM addIndicator r = .ok r') :
    Gathers [(depth, Node.choice id weight conditions yes no)] r r' := by
  obtain ⟨i₁, i₂, i₃, i₄, i₅, i₆, i₇, i₈, i₉⟩ := addIndicators_eq_ok h
  refine ⟨?_, ?_, ?_, ?_, ?_, ?_, ?_, ?_, ?_, ?_⟩
  · simpa [mentioned, Node.ownTickers, Node.ownReadings] using i₁
  · simp [Node.ownTickers, i₆]
  · simpa [lookedBack, Node.ownTickers, Node.ownReadings] using i₂
  · simpa [Node.ownReadings] using i₃
  · simpa [Node.ownReadings] using i₄
  · simpa [Node.ownStatistics, Node.ranking?] using i₇
  · simp [Node.ranking?, i₈]
  · simp [Node.ranking?, i₉]
  · simpa [Node.ownReadings] using i₅
  · simp [Node.ranking?]

theorem gathers_enterSplit {r r' : Requirements} {id : String} {weight : Option Fraction}
    {rule : Rule} {children : List (Node α)} {depth d : Nat}
    (h : enterSplit depth id rule (children.map Node.id) r = .ok (d, r')) :
    Gathers [(depth, Node.split id weight rule children)] r r' := by
  obtain ⟨_, _, h⟩ := Except.bind_eq_ok.1 h
  cases hr : rule.ranking? with
  | none =>
    rw [hr] at h
    cases h
    constructor <;> simp [mentioned, lookedBack, Node.ownTickers, Node.ownReadings,
      Node.ownStatistics, Node.ranking?, hr]
  | some ranking =>
    rw [hr] at h
    obtain ⟨r₁, h₁, h⟩ := Except.bind_eq_ok.1 h
    cases h
    unfold addRanking at h₁
    split at h₁
    · cases h₁
    · dsimp only at h₁
      rw [foldl_addStatistic] at h₁
      cases h₁
      constructor
      case statisticWindow =>
        intro m
        rw [Nat.max_le, and_comm]
        simp [Node.ranking?, hr]
      case nesting =>
        intro m
        rw [Nat.max_le, and_comm]
        simp [Node.ranking?, hr]
      case rankings_pos =>
        simp only [Node.ranking?, hr, List.forall_mem_singleton, Option.mem_def,
          Option.some.injEq, forall_eq']
        omega
      all_goals simp [mentioned, lookedBack, Node.ownTickers, Node.ownReadings,
        Node.ownStatistics, Node.ranking?, Node.children, hr, Function.comp_def]

/-- One node. Entering a node adds what that node asks for. -/
theorem gathers_of_enter {r r' : Requirements} {p : Nat × Node α} (h : enter r p = .ok r') :
    Gathers [p] r r' := by
  obtain ⟨depth, n⟩ := p
  cases n with
  | asset id weight ticker =>
    obtain ⟨_, _, h⟩ := Except.bind_eq_ok.1 h
    cases h
    exact gathers_addTicker r depth id weight ticker
  | unknown id weight =>
    obtain ⟨_, _, h⟩ := Except.bind_eq_ok.1 h
    cases h
    constructor <;> simp [mentioned, lookedBack, Node.ownTickers, Node.ownReadings,
      Node.ownStatistics, Node.ranking?]
  | choice id weight conditions yes no =>
    obtain ⟨_, _, h⟩ := Except.bind_eq_ok.1 h
    exact gathers_addIndicators h
  | split id weight rule children =>
    obtain ⟨_, _, h⟩ := Except.bind_eq_ok.1 h
    obtain ⟨⟨d, r₁⟩, h₁, h⟩ := Except.bind_eq_ok.1 h
    cases h
    exact gathers_enterSplit h₁

/-! ## What a tree adds -/

theorem gathers_of_foldlM {ps : List (Nat × Node α)} :
    ∀ {r r' : Requirements}, ps.foldlM enter r = .ok r' → Gathers ps r r' := by
  induction ps with
  | nil =>
    intro r r' h
    cases h
    exact Gathers.nil r
  | cons p ps ih =>
    intro r r' h
    rw [List.foldlM_cons] at h
    obtain ⟨r₁, h₁, h⟩ := Except.bind_eq_ok.1 h
    exact (gathers_of_enter h₁).append (ih h)

/-- A tree. The requirements of an accepted tree are what the nodes of its walk ask for. -/
theorem gathers_of_ofTree {tree : Node α} {r : Requirements} (h : ofTree tree = .ok r) :
    Gathers (tree.walk 0) {} r := by
  rw [ofTree, visit_eq_foldlM] at h
  exact gathers_of_foldlM h

/-- Of the statistics of a node, the first one is taken in. -/
theorem find?_foldl_appendNew (node : String) {new : List NodeStatistic} :
    ∀ {known : List NodeStatistic}, (new.foldl appendNew known).find? (fun s => s.node == node) =
      (known ++ new).find? fun s => s.node == node := by
  induction new with
  | nil =>
    intro known
    rw [List.foldl_nil, List.append_nil]
  | cons s new ih =>
    intro known
    rw [List.foldl_cons, ih, appendNew]
    split
    · rename_i hknown
      rw [List.find?_append, List.find?_append, List.find?_cons]
      cases hnode : known.find? fun s => s.node == node with
      | some t => rfl
      | none =>
        -- the node of `s` is known, so it is another one
        have other : (s.node == node) = false := by
          rw [beq_eq_false_iff_ne]
          rintro rfl
          rw [hnode] at hknown
          cases hknown
        rw [other]
    · rw [List.append_assoc, List.singleton_append]

/-- No node has two statistics. -/
theorem nodup_foldl_appendNew {new : List NodeStatistic} :
    ∀ {known : List NodeStatistic}, (known.map NodeStatistic.node).Nodup →
      ((new.foldl appendNew known).map NodeStatistic.node).Nodup := by
  induction new with
  | nil => exact fun hn => hn
  | cons s new ih =>
    intro known hn
    apply ih
    unfold appendNew
    split
    · exact hn
    · rename_i hfresh
      rw [List.map_append, List.nodup_append']
      refine ⟨hn, List.nodup_singleton _, fun node hnode hs => hfresh ?_⟩
      obtain ⟨t, ht, rfl⟩ := List.mem_map.1 hnode
      rw [List.find?_isSome]
      exact ⟨t, ht, beq_iff_eq.2 (List.mem_singleton.1 hs)⟩

/-- Only new statistics are taken in. -/
theorem mem_of_mem_foldl_appendNew {s : NodeStatistic} {new : List NodeStatistic} :
    ∀ {known : List NodeStatistic}, s ∈ new.foldl appendNew known → s ∈ known ∨ s ∈ new := by
  induction new with
  | nil => exact fun h => .inl h
  | cons t new ih =>
    intro known h
    rcases ih h with h | h
    · unfold appendNew at h
      split at h
      · exact .inl h
      · rcases List.mem_append.1 h with h | h
        · exact .inl h
        · exact .inr (List.mem_singleton.1 h ▸ List.mem_cons_self)
    · exact .inr (List.mem_cons_of_mem _ h)

/-- Statistics of distinct nodes are all taken in. -/
theorem foldl_appendNew_of_nodup {new : List NodeStatistic} :
    ∀ {known : List NodeStatistic}, ((known ++ new).map NodeStatistic.node).Nodup →
      new.foldl appendNew known = known ++ new := by
  induction new with
  | nil => intro known _; simp
  | cons s new ih =>
    intro known hn
    have fresh : (known.find? fun t => t.node == s.node).isSome = false := by
      rw [List.map_append, List.nodup_append'] at hn
      rw [← Bool.not_eq_true, List.find?_isSome]
      rintro ⟨t, ht, e⟩
      exact hn.2.2 (List.mem_map_of_mem ht) (by simp [beq_iff_eq.1 e])
    rw [List.foldl_cons, appendNew, fresh]
    rw [List.append_cons] at hn
    simpa using ih hn

section Tree

variable {tree : Node α} {r : Requirements} (h : ofTree tree = .ok r)

include h

theorem tradeable_iff_of_ofTree {x : String} : r.tradeable.contains x = true ↔ x ∈ tree.held := by
  rw [(gathers_of_ofTree h).tradeable, Node.flatMap_walk]
  exact or_iff_left (by simp [SortedSet.contains_empty])

theorem indicators_iff_of_ofTree {key : Indicator.Key} :
    key ∈ r.indicators.toList ↔ key ∈ tree.readings := by
  show key ∈ r.indicators.keys ↔ _
  rw [(gathers_of_ofTree h).indicators, Node.flatMap_walk]
  exact or_iff_left List.not_mem_nil

theorem window_pos_of_readings {key : Indicator.Key} (hk : key ∈ tree.readings) :
    0 < key.window := by
  have pos := (gathers_of_ofTree h).readings_pos
  rw [Node.flatMap_walk] at pos
  exact pos key hk

theorem window_le_of_readings {key : Indicator.Key} (hk : key ∈ tree.readings) :
    key.window ≤ r.indicatorWindow := by
  have bound := ((gathers_of_ofTree h).indicatorWindow _).1 (Nat.le_refl _)
  rw [Node.flatMap_walk] at bound
  exact bound.1 key hk

/-- The ticker of an indicator is looked back on. -/
theorem lookback_of_readings {key : Indicator.Key} (hk : key ∈ tree.readings) :
    r.lookback.contains key.ticker = true := by
  rw [(gathers_of_ofTree h).lookback]
  rw [Node.readings, ← Node.flatMap_walk Node.ownReadings 0] at hk
  obtain ⟨p, hp, hk⟩ := List.mem_flatMap.1 hk
  refine .inl (List.mem_flatMap.2 ⟨p, hp, ?_⟩)
  exact List.mem_append_right _ (List.mem_map_of_mem hk)

/-- A ticker held below a node that ranks is looked back on. -/
theorem lookback_of_held {m : Node α} {d : Nat} (hm : (d, m) ∈ tree.walk 0) (hd : 0 < d)
    {x : String} (hx : x ∈ m.held) : r.lookback.contains x = true := by
  rw [(gathers_of_ofTree h).lookback]
  rw [Node.held, ← Node.flatMap_walk Node.ownTickers d] at hx
  obtain ⟨p, hp, hx⟩ := List.mem_flatMap.1 hx
  have hle := Node.depth_le_of_mem_walk (d := p.1) (m := p.2) hp
  refine .inl (List.mem_flatMap.2 ⟨p, Node.walk_subset hm hp, ?_⟩)
  rw [lookedBack, if_pos (by omega)]
  exact List.mem_append_left _ hx

/-- Whatever is held or looked back on is mentioned. -/
theorem tickers_of_lookback {x : String} (hx : r.lookback.contains x = true) :
    r.tickers.contains x = true := by
  rw [(gathers_of_ofTree h).lookback] at hx
  rw [(gathers_of_ofTree h).tickers]
  refine hx.imp (fun hx => ?_) id
  obtain ⟨p, hp, hx⟩ := List.mem_flatMap.1 hx
  refine List.mem_flatMap.2 ⟨p, hp, ?_⟩
  rw [lookedBack, List.mem_append] at hx
  rw [mentioned, List.mem_append]
  refine hx.imp (fun hx => ?_) id
  split at hx
  · exact hx
  · cases hx

theorem tickers_of_tradeable {x : String} (hx : r.tradeable.contains x = true) :
    r.tickers.contains x = true := by
  rw [(gathers_of_ofTree h).tradeable] at hx
  rw [(gathers_of_ofTree h).tickers]
  refine hx.imp (fun hx => ?_) id
  obtain ⟨p, hp, hx⟩ := List.mem_flatMap.1 hx
  exact List.mem_flatMap.2 ⟨p, hp, List.mem_append_left _ hx⟩

/-- Every window of a ranking is positive and within the largest one. -/
theorem ranking_bounds {o : Node α} {d : Nat} (ho : (d, o) ∈ tree.walk 0) {ranking : Ranking}
    (hr : o.ranking? = some ranking) :
    0 < ranking.window ∧ ranking.window ≤ r.statisticWindow ∧ d + 1 ≤ r.nesting := by
  have g := gathers_of_ofTree h
  refine ⟨g.rankings_pos _ ho _ hr, ?_, ?_⟩
  · exact ((g.statisticWindow _).1 (Nat.le_refl _)).1 _ ho _ hr
  · exact ((g.nesting _).1 (Nat.le_refl _)).1 _ ho _ hr

/-- The statistic of an id is the first by which the tree ranks a node with that id. -/
theorem statisticOf_of_ofTree (node : String) :
    r.statisticOf node = (tree.statistics 0).find? fun s => s.node == node := by
  rw [statisticOf, (gathers_of_ofTree h).statistics]
  exact find?_foldl_appendNew node

theorem nodup_statistics_of_ofTree : (r.statistics.map NodeStatistic.node).Nodup := by
  rw [(gathers_of_ofTree h).statistics]
  exact nodup_foldl_appendNew List.nodup_nil

theorem statistics_subset_of_ofTree : r.statistics ⊆ tree.statistics 0 := by
  intro s hs
  rw [(gathers_of_ofTree h).statistics] at hs
  exact (mem_of_mem_foldl_appendNew hs).resolve_left List.not_mem_nil

/-- With distinct ids, every ranked node has its own statistic, and there are no others. -/
theorem statistics_of_ofTree (hd : tree.DistinctIds) : r.statistics = tree.statistics 0 := by
  rw [(gathers_of_ofTree h).statistics]
  refine (foldl_appendNew_of_nodup ?_).trans (List.nil_append _)
  show ((tree.statistics 0).map NodeStatistic.node).Nodup
  rw [Node.map_node_statistics]
  exact hd.nodup_ranked

end Tree

end Requirements

end StrategyTree
