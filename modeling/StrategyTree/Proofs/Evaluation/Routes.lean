import StrategyTree.Proofs.Evaluation.Reads

/-!
# Evaluation by routes

A walk carries two things along: the indicator readings taken so far, which it does not take twice,
and the weight each ticker has received so far. Neither is needed to say what the walk computes. The
*routes* of a tree on a day lead from its root to the assets that are reached, in the order of the
walk, and each knows the factors that a weight meets on its way down. A ticker receives, from zero
on and from the first route to the last, the weights that the routes to it carry.

* `Evaluator.routes`: the routes of a tree on a day, or the first failing lookup.
* `received`: what a ticker receives over routes.
* `Evaluator.routes_of_evaluate`: an evaluation fails as the routes do, and otherwise allocates what
  the tickers receive over them.

Nothing here depends on the number type: on doubles, the two ways to evaluate agree bit for bit.
-/

namespace StrategyTree

open Scalar

variable {α β γ : Type} [Scalar α]

/-! ## Routes -/

/-- What becomes of a weight at one point of its way down a tree: it is passed on as it is, a node
takes the part that its own weight says, or it is shared, evenly among so many children or in
proportion to numbers with the given total. -/
inductive Factor (α : Type) where
  | whole
  | part (own : Fraction)
  | oneOf (count : Nat)
  | proportion (number total : α)

/-- The weight behind a factor. -/
def Factor.apply : Factor α → α → α
  | whole, weight => weight
  | part own, weight => own.ratio * weight
  | oneOf count, weight => weight / ofNat count
  | proportion number total, weight => number / total * weight

/-- A way from a node down to an asset. -/
structure Route (α : Type) where
  ticker : String
  factors : List (Factor α)

namespace Route

/-- The weight that arrives at the end of a route. -/
def weight (r : Route α) (start : α) : α := r.factors.foldl (fun w f => f.apply w) start

/-- The route that meets one more factor first. -/
def through (f : Factor α) (r : Route α) : Route α := { r with factors := f :: r.factors }

end Route

/-- What a ticker receives over a list of routes. -/
def received (start : α) (routes : List (Route α)) (ticker : String) : α :=
  ((routes.filter fun r => r.ticker == ticker).map fun r => r.weight start).foldl (· + ·) zero

/-- What a node's own weight makes of the weight passed to it; nothing, where own weights count and
it has none. -/
def Weighting.factor (mode : Weighting) (own : Option Fraction) : Option (Factor α) :=
  match mode with
  | .equal => some .whole
  | .specified => own.map .part

/-- A branch of a split: the child it leads to, whether the child's own weight counts, and the
factor of the split. -/
structure Branch (β α : Type) where
  child : β
  mode : Weighting
  factor : Factor α

/-- The branches of a split, in the order of the walk. -/
def Rule.branches (rule : Rule) (floor : α) (statistic : β → Except Error α)
    (children : List β) : Except Error (List (Branch β α)) :=
  match rule with
  | .root | .group _ => .ok (children.map fun c => ⟨c, .equal, .whole⟩)
  | .equal => .ok (children.map fun c => ⟨c, .equal, .oneOf (max children.length 1)⟩)
  | .specified => .ok (children.map fun c => ⟨c, .specified, .whole⟩)
  | .inverseVolatility _ => do
    let inverses := (← children.mapM statistic).map fun v => one / effectiveVolatility floor v
    return List.zipWith (fun c x => ⟨c, .equal, .proportion x (sum inverses)⟩) children inverses
  | .filter _ select count => do
    let ranked := rankAscending ((← children.mapM statistic).zip children)
    let kept := (select.keep (min count ranked.length) ranked).map Prod.snd
    return kept.map fun c => ⟨c, .equal, .oneOf kept.length⟩

/-- A subtree by its id and its routes. -/
structure Subtree (α : Type) where
  id : String
  routes : Weighting → Except Error (List (Route α))

/-- The routes behind the own weight of a node, from the routes that its kind makes. -/
def behind (own : Option (Factor α)) (routes : Except Error (List (Route α))) :
    Except Error (List (Route α)) :=
  match own with
  | some f => do return (← routes).map (Route.through f)
  | none => .ok []

namespace Evaluator

variable (e : Evaluator α) (index : Nat)

/-- Whether a condition holds. -/
def verdict (c : Condition α) : Except Error Bool := do
  let x ← e.indicators.value c.lhs index
  match c.rhs with
  | .fixed y => return c.comparator.test x y
  | .indicator key => return c.comparator.test x (← e.indicators.value key index)

/-- Whether as many conditions hold as a quantifier asks for; the first that decides is the last
that is read. -/
def passes (conditions : Conditions α) : Except Error Bool :=
  match conditions.mode with
  | .all => conditions.items.allM (e.verdict index)
  | .any => conditions.items.anyM (e.verdict index)

mutual

/-- The routes of a tree on a day, in the order of the walk. -/
def routes : Node α → Weighting → Except Error (List (Route α))
  | .asset _ own ticker => fun mode => behind (mode.factor own) (.ok [⟨ticker, []⟩])
  | .unknown _ _ => fun _ => .ok []
  | .choice _ own conditions yes no => fun mode => behind (mode.factor own) do
    if ← e.passes index conditions then routes yes .equal else routes no .equal
  | .split _ own rule children => fun mode => behind (mode.factor own) do
    let branches ← rule.branches e.settings.volatilityFloor
      (fun t => e.statistics.value t.id index) (subtrees children)
    let below ← branches.mapM fun b => do return (← b.child.routes b.mode).map (.through b.factor)
    return below.flatten

/-- The subtrees of a list. -/
def subtrees : List (Node α) → List (Subtree α)
  | [] => []
  | c :: cs => ⟨c.id, routes c⟩ :: subtrees cs

end

end Evaluator

/-! ## What the accumulator holds -/

/-- Adds to an accumulator what routes carry. -/
def gather (routes : List (Route α)) (start : α) (m : SortedMap String α) : SortedMap String α :=
  routes.foldl (fun m r => m.insert r.ticker ((m.get? r.ticker).getD zero + r.weight start)) m

theorem gather_append (rs ts : List (Route α)) (start : α) (m : SortedMap String α) :
    gather (rs ++ ts) start m = gather ts start (gather rs start m) := List.foldl_append

theorem gather_through (f : Factor α) (rs : List (Route α)) (start : α) (m : SortedMap String α) :
    gather (rs.map (Route.through f)) start m = gather rs (f.apply start) m := List.foldl_map

theorem get?_gather (start : α) (x : String) :
    ∀ (rs : List (Route α)) (m : SortedMap String α),
      (gather rs start m).get? x = if x ∈ rs.map Route.ticker then
        some (((rs.filter fun r => r.ticker == x).map fun r => r.weight start).foldl (· + ·)
          ((m.get? x).getD zero)) else m.get? x := by
  intro rs
  induction rs with
  | nil => intro m; simp [gather]
  | cons r rs ih =>
    intro m
    show (gather rs start (m.insert r.ticker _)).get? x = _
    rw [ih]
    by_cases h : r.ticker = x
    · subst h
      by_cases hrs : r.ticker ∈ rs.map Route.ticker
      · simp [hrs]
      · have none : rs.filter (fun t => t.ticker == r.ticker) = [] := by
          rw [List.filter_eq_nil_iff]
          intro t ht
          simp only [beq_iff_eq]
          intro ticker
          exact hrs (List.mem_map.2 ⟨t, ht, ticker⟩)
        simp [hrs, none]
    · rw [SortedMap.get?_insert_of_ne m _ h]
      simp [h, Ne.symm h]

/-! ## Shares and branches -/

/-- The share of a branch. -/
def Branch.share (weight : α) (b : Branch β α) : Share β α :=
  ⟨b.child, b.mode, b.factor.apply weight⟩

namespace Rule

variable {floor : α} {statistic : β → Except Error α} {children : List β} {weight : α}

/-- A split shares a weight by the factors of its branches. -/
theorem shares_eq_branches (rule : Rule) :
    rule.shares floor statistic children weight =
      rule.branches floor statistic children >>= fun bs => .ok (bs.map (Branch.share weight)) := by
  cases rule with
  | root | group _ | equal | specified =>
    simp [shares, branches, evenly, Branch.share, Factor.apply]
  | inverseVolatility window =>
    simp only [shares, branches, bind_assoc]
    congr 1
    funext values
    simp [Branch.share, Factor.apply, List.map_zipWith]
  | filter ranking select count =>
    simp only [shares, branches, bind_assoc]
    congr 1
    funext values
    split
    · rename_i h
      rw [List.isEmpty_iff] at h
      simp [h]
    · simp [evenly, Branch.share, Factor.apply]

/-- A split branches in the same way whatever its children are called by. -/
theorem branches_map (rule : Rule) (f : β → γ) (statistic : γ → Except Error α)
    (children : List β) :
    rule.branches floor statistic (children.map f) =
      rule.branches floor (fun c => statistic (f c)) children >>= fun bs =>
        .ok (bs.map fun b => ⟨f b.child, b.mode, b.factor⟩) := by
  cases rule with
  | root | group _ | equal | specified => simp [branches]
  | inverseVolatility window =>
    simp only [branches, List.mapM_map, bind_assoc]
    congr 1
    funext values
    simp [List.zipWith_map_left, List.map_zipWith]
  | filter ranking select count =>
    simp only [branches, List.mapM_map, bind_assoc]
    congr 1
    funext values
    rw [rankAscending_map, List.length_map, keep_map]
    simp

/-- Branches lead to children. -/
theorem mem_of_mem_branches {rule : Rule} {bs : List (Branch β α)}
    (h : rule.branches floor statistic children = .ok bs) {b : Branch β α} (hb : b ∈ bs) :
    b.child ∈ children := by
  have hs : rule.shares floor statistic children zero = .ok (bs.map (Branch.share zero)) := by
    rw [shares_eq_branches, h, Except.ok_bind]
  exact mem_of_mem_shares hs (List.mem_map_of_mem hb)

end Rule

/-! ## The memo and the accumulator along a walk -/

namespace Evaluator

variable {e : Evaluator α} {index : Nat}

/-- The readings taken so far are those that would be taken now. -/
def Recalls (e : Evaluator α) (index : Nat) (s : Evaluation α) : Prop :=
  ∀ key x, s.readings.get? key = some x → e.indicators.value key index = .ok x

omit [Scalar α] in
theorem reading_alike {s : Evaluation α} (hs : Recalls e index s) (key : Indicator.Key) :
    Alike (fun p x => p.1 = x ∧ p.2.received = s.received ∧ Recalls e index p.2)
      (e.reading index key s) (e.indicators.value key index) := by
  unfold reading
  split
  · rename_i x hx
    rw [hs key x hx]
    exact Alike.ok ⟨rfl, rfl, hs⟩
  · cases hv : e.indicators.value key index with
    | error err => exact Alike.error err
    | ok x =>
      refine Alike.ok ⟨rfl, rfl, fun key' y h => ?_⟩
      dsimp only at h
      by_cases hk : key = key'
      · subst hk
        rw [SortedMap.get?_insert_self, Option.some.injEq] at h
        rw [hv, h]
      · rw [SortedMap.get?_insert_of_ne _ _ hk] at h
        exact hs key' y h

theorem holds_alike {s : Evaluation α} (hs : Recalls e index s) (c : Condition α) :
    Alike (fun p b => p.1 = b ∧ p.2.received = s.received ∧ Recalls e index p.2)
      (e.holds index c s) (e.verdict index c) := by
  obtain ⟨lhs, comparator, rhs⟩ := c
  refine Alike.bind (reading_alike hs lhs) ?_
  rintro ⟨x, s₁⟩ _ - - ⟨rfl, hr, hs⟩
  cases rhs with
  | fixed y => exact Alike.ok ⟨rfl, hr, hs⟩
  | indicator key =>
    refine Alike.bind (reading_alike hs key) ?_
    rintro ⟨y, s₂⟩ _ - - ⟨rfl, hr', hs⟩
    exact Alike.ok ⟨rfl, hr'.trans hr, hs⟩

theorem decided_alike (conditions : Conditions α) {s : Evaluation α} (hs : Recalls e index s) :
    Alike (fun p b => p.1 = b ∧ p.2.received = s.received ∧ Recalls e index p.2)
      (e.decided index conditions.mode conditions.items s) (e.passes index conditions) := by
  obtain ⟨mode, items⟩ := conditions
  induction items generalizing s with
  | nil => cases mode <;> exact Alike.ok ⟨rfl, rfl, hs⟩
  | cons c cs ih =>
    have rest : ∀ s₁ : Evaluation α, s₁.received = s.received → Recalls e index s₁ →
        Alike (fun p b => p.1 = b ∧ p.2.received = s.received ∧ Recalls e index p.2)
          (e.decided index mode cs s₁) (e.passes index ⟨mode, cs⟩) := by
      intro s₁ hr hs₁
      rw [← hr]
      exact ih hs₁
    rw [decided]
    -- a condition decides alone where it fails to hold among all, or holds where one is enough
    cases mode with
    | all =>
      simp only [passes, List.allM]
      refine Alike.bind (holds_alike hs c) ?_
      rintro ⟨b, s₁⟩ _ - - ⟨rfl, hr, hs₁⟩
      cases b with
      | true => exact rest s₁ hr hs₁
      | false => exact Alike.ok ⟨rfl, hr, hs₁⟩
    | any =>
      simp only [passes, List.anyM]
      refine Alike.bind (holds_alike hs c) ?_
      rintro ⟨b, s₁⟩ _ - - ⟨rfl, hr, hs₁⟩
      cases b with
      | true => exact Alike.ok ⟨rfl, hr, hs₁⟩
      | false => exact rest s₁ hr hs₁

theorem subtrees_eq_map (children : List (Node α)) :
    e.subtrees index children = children.map fun c => ⟨c.id, e.routes index c⟩ := by
  induction children with
  | nil => rfl
  | cons c cs ih => rw [subtrees, ih, List.map_cons]

/-- The routes of a split are those of its branches. -/
theorem routes_split (id : String) (own : Option Fraction) (rule : Rule) (children : List (Node α))
    (mode : Weighting) :
    e.routes index (.split id own rule children) mode = behind (mode.factor own)
      (rule.branches e.settings.volatilityFloor
        (fun c : Node α => e.statistics.value c.id index) children >>= fun bs =>
        (bs.mapM fun b => e.routes index b.child b.mode >>= fun rs =>
          .ok (rs.map (Route.through b.factor))) >>= fun below => .ok below.flatten) := by
  rw [routes]
  dsimp only
  congr 1
  rw [subtrees_eq_map, Rule.branches_map, bind_assoc]
  congr 1
  funext bs
  rw [Except.ok_bind, List.mapM_map]
  rfl

/-- A visit with a weight ends as the routes do: it has added what they carry to the accumulator,
and the memo still holds true readings. -/
def Follows (e : Evaluator α) (index : Nat) (s : Evaluation α) (weight : α)
    (visited : Except Error (Evaluation α)) (routes : Except Error (List (Route α))) : Prop :=
  Alike (fun s' rs => s'.received = gather rs weight s.received ∧ Recalls e index s') visited routes

/-- A node that takes a part of the weight passed to it goes on as its kind does. -/
theorem follows_behind {own : Option Fraction} {mode : Weighting} {passed : α} {s : Evaluation α}
    (hs : Recalls e index s) {go : α → Except Error (Evaluation α)}
    {rs : Except Error (List (Route α))} (h : ∀ weight, Follows e index s weight (go weight) rs) :
    Follows e index s passed (withWeight own mode passed s go) (behind (mode.factor own) rs) := by
  have taking : ∀ f : Factor α, Follows e index s passed (go (f.apply passed))
      (rs >>= fun rs => .ok (rs.map (Route.through f))) := by
    intro f
    refine (h (f.apply passed)).map_right _ fun s' rs hrs => ?_
    rw [gather_through]
    exact hrs
  cases mode with
  | equal => exact taking .whole
  | specified =>
    cases own with
    | none => exact Alike.ok ⟨rfl, hs⟩
    | some f => exact taking (.part f)

/-- The visits of the branches of a split follow the routes of its branches. -/
theorem follows_branches {weight : α} {bs : List (Branch (Node α) α)}
    (h : ∀ b ∈ bs, ∀ passed s, Recalls e index s →
      Follows e index s passed (e.visit index b.child b.mode passed s)
        (e.routes index b.child b.mode)) :
    ∀ {s : Evaluation α}, Recalls e index s →
      Follows e index s weight
        ((bs.map (Branch.share weight)).foldlM
          (fun s share => e.visit index share.child share.mode share.weight s) s)
        ((bs.mapM fun b => e.routes index b.child b.mode >>= fun rs =>
          .ok (rs.map (Route.through b.factor))) >>= fun below => .ok below.flatten) := by
  induction bs with
  | nil =>
    intro s hs
    exact Alike.ok ⟨rfl, hs⟩
  | cons b bs ih =>
    intro s hs
    rw [List.map_cons, List.foldlM_cons, List.mapM_cons, bind_assoc, bind_assoc]
    refine Alike.bind (h b (by simp) (b.factor.apply weight) s hs) ?_
    rintro s₁ rs - - ⟨hr, hs₁⟩
    have rest := ih (fun b hb => h b (List.mem_cons_of_mem _ hb)) hs₁
    rw [Except.ok_bind, bind_assoc]
    simp only [Except.pure_eq_ok, Except.ok_bind, List.flatten_cons]
    -- the rest of the routes comes after those of the first branch
    rw [show (fun below : List (List (Route α)) =>
        (Except.ok (rs.map (Route.through b.factor) ++ below.flatten) : Except Error _)) =
      fun below => (Except.ok below.flatten : Except Error (List (Route α))) >>= fun ts =>
        .ok (rs.map (Route.through b.factor) ++ ts) from rfl, ← bind_assoc]
    refine rest.map_right _ fun s₂ ts hts => ?_
    rw [gather_append, gather_through, ← hr]
    exact hts

/-- A visit follows the routes. Whatever true readings its memo starts with, a visit fails as
the routes of the node do, and otherwise adds to the accumulator what the routes carry. -/
theorem visit_follows {n : Node α} :
    ∀ mode passed s, Recalls e index s →
      Follows e index s passed (e.visit index n mode passed s) (e.routes index n mode) := by
  induction n using Node.induction_on_children with
  | h n ih =>
    intro mode passed s hs
    cases n with
    | asset id own ticker =>
      exact follows_behind hs fun weight => Alike.ok ⟨rfl, hs⟩
    | unknown id own => exact Alike.ok ⟨rfl, hs⟩
    | choice id own conditions yes no =>
      refine follows_behind hs fun weight => ?_
      refine Alike.bind (decided_alike conditions hs) ?_
      rintro ⟨passes, s₁⟩ _ - - ⟨rfl, hr, hs₁⟩
      rw [← hr]
      dsimp only
      split
      · exact ih yes (by simp [Node.children]) .equal weight s₁ hs₁
      · exact ih no (by simp [Node.children]) .equal weight s₁ hs₁
    | split id own rule children =>
      rw [visit_split, routes_split]
      refine follows_behind hs fun weight => ?_
      rw [Rule.shares_eq_branches, bind_assoc]
      refine Alike.bind (Alike.refl (fun _ => rfl) _) ?_
      rintro bs _ hbs - rfl
      refine follows_branches (fun b hb passed s hs => ?_) hs
      exact ih b.child (Rule.mem_of_mem_branches hbs hb) b.mode passed s hs

/-! ## Evaluations -/

/-- **Evaluation by routes.** An evaluation fails with the first failing lookup of the routes.
Otherwise it allocates to each ticker that some route leads to what the ticker receives over the
routes, from zero on and in the order of the walk; of a single node there is nothing else in the
allocation, and of a whole strategy there are besides, without a weight, the tickers that may be
traded and that no route leads to. -/
theorem routes_of_evaluate (e : Evaluator α) (index : Nat) (node : Node α) :
    (∀ mode weight, Alike (fun a rs => ∀ x, a.get? x =
        if x ∈ rs.map Route.ticker then some (some (received weight rs x)) else none)
      (e.evaluateNode index node mode weight) (e.routes index node mode)) ∧
    Alike (fun a rs => ∀ x, a.get? x =
        if x ∈ rs.map Route.ticker then some (some (received hundred rs x))
        else if e.tradeable.contains x then some none else none)
      (e.evaluate index node) (e.routes index node .equal) := by
  have ofNode : ∀ mode weight, Alike (fun a rs => ∀ x, a.get? x =
      if x ∈ rs.map Route.ticker then some (some (received weight rs x)) else none)
      (e.evaluateNode index node mode weight) (e.routes index node mode) := by
    intro mode weight
    have start : Recalls e index {} := fun key x h => by cases h
    refine (visit_follows mode weight {} start).map_left _ ?_
    rintro s rs ⟨hr, -⟩ x
    rw [SortedMap.get?_mapValues, hr, get?_gather]
    split <;> rfl
  refine ⟨ofNode, (ofNode .equal hundred).map_left _ fun reached rs h x => ?_⟩
  by_cases hx : x ∈ rs.map Route.ticker
  · rw [if_pos hx]
    have hget := h x
    rw [if_pos hx, SortedMap.get?_eq_some_iff] at hget
    exact SortedMap.get?_insertAll_of_mem reached.nodup_keys hget
  · have hget := h x
    rw [if_neg hx, SortedMap.get?_eq_none_iff] at hget
    rw [if_neg hx, SortedMap.get?_insertAll_of_not_mem hget, SortedMap.get?_mapValues]
    cases ht : e.tradeable.get? x with
    | none => simp [SortedMap.contains, ht]
    | some u => simp [SortedMap.contains, ht]

end Evaluator

end StrategyTree
