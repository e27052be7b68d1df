import StrategyTree.Proofs.Evaluation.Reads

/-!
# Evaluation with a trace

An evaluation ends in an allocation or an error, which says nothing of the divisions made on the way
and of the weights that nodes were handed. A traced evaluation is the same walk which also notes
these, and which keeps what it has noted when it fails.

* `Traced`: a computation with what it does on its way; `Traced.Does` says that all of it is of a
  kind.
* `Evaluator.trace`, `Evaluator.traceEvaluate`: the traced walk.
* `Evaluator.outcome_trace`, `Evaluator.outcome_traceEvaluate`: without its trace, a traced
  evaluation is the evaluation.
-/

namespace StrategyTree

open Scalar

variable {α β γ σ : Type}

/-! ## Traced computations -/

/-- What an evaluation does on its way. -/
inductive Event (α : Type) where
  | divides (divisor : α)
  | hands (node : String) (weight : α)
  deriving DecidableEq, Repr

/-- A computation with what it does on its way, be it to a result or to an error. -/
structure Traced (α β : Type) where
  events : List (Event α)
  outcome : Except Error β

namespace Traced

/-- After an error nothing more is done; what was done before it stays. -/
instance : Monad (Traced α) where
  pure b := ⟨[], .ok b⟩
  bind x f :=
    match x.outcome with
    | .ok b => ⟨x.events ++ (f b).events, (f b).outcome⟩
    | .error e => ⟨x.events, .error e⟩

/-- A computation that does nothing to be noted. -/
def quiet (x : Except Error β) : Traced α β := ⟨[], x⟩

/-- A quotient. -/
def divide [Div α] (x y : α) : Traced α α := ⟨[.divides y], .ok (x / y)⟩

/-- Hands a weight to a node. -/
def hand (node : String) (weight : α) : Traced α Unit := ⟨[.hands node weight], .ok ()⟩

theorem pure_eq (b : β) : (pure b : Traced α β) = ⟨[], .ok b⟩ := rfl

theorem mk_ok_bind (events : List (Event α)) (b : β) (f : β → Traced α γ) :
    Traced.mk events (.ok b) >>= f = ⟨events ++ (f b).events, (f b).outcome⟩ := rfl

instance : LawfulMonad (Traced α) := LawfulMonad.mk' (Traced α)
  (fun ⟨events, x⟩ => by
    cases x with
    | error e => rfl
    | ok b => exact congrArg (Traced.mk · _) (List.append_nil events))
  (fun b f => by rw [pure_eq, mk_ok_bind, List.nil_append])
  (fun ⟨events, x⟩ f g => by
    cases x with
    | error e => rfl
    | ok b =>
      rw [mk_ok_bind, mk_ok_bind]
      cases h : f b with
      | mk more y =>
        cases y with
        | error e => rfl
        | ok c => rw [mk_ok_bind, mk_ok_bind, List.append_assoc])

/-! ### How they end -/

@[simp] theorem outcome_pure (b : β) : (pure b : Traced α β).outcome = .ok b := rfl

@[simp] theorem outcome_quiet (x : Except Error β) : (quiet x : Traced α β).outcome = x := rfl

@[simp] theorem outcome_divide [Div α] (x y : α) : (divide x y).outcome = .ok (x / y) := rfl

@[simp] theorem outcome_hand (node : String) (weight : α) :
    (hand node weight).outcome = .ok () := rfl

@[simp] theorem outcome_bind (x : Traced α β) (f : β → Traced α γ) :
    (x >>= f).outcome = x.outcome >>= fun b => (f b).outcome := by
  obtain ⟨events, outcome⟩ := x
  cases outcome <;> rfl

theorem outcome_mapM (f : β → Traced α γ) (bs : List β) :
    (bs.mapM f).outcome = bs.mapM fun b => (f b).outcome := by
  induction bs with
  | nil => rfl
  | cons b bs ih => simp only [List.mapM_cons, outcome_bind, ih, outcome_pure, Except.pure_eq_ok]

theorem outcome_foldlM (f : σ → β → Traced α σ) (bs : List β) :
    ∀ s, (bs.foldlM f s).outcome = bs.foldlM (fun s b => (f s b).outcome) s := by
  induction bs with
  | nil => exact fun s => rfl
  | cons b bs ih => simp only [List.foldlM_cons, outcome_bind, ih, implies_true]

/-! ### What they do -/

/-- A computation does only what is allowed, and its result, if it has one, is as expected. -/
structure Does (x : Traced α β) (allowed : Event α → Prop) (expected : β → Prop) : Prop where
  events : ∀ event ∈ x.events, allowed event
  result : ∀ b, x.outcome = .ok b → expected b

namespace Does

variable {allowed : Event α → Prop} {P : β → Prop} {Q : γ → Prop}

theorem pure {b : β} (h : P b) : Does (pure b) allowed P where
  events _ h := absurd h List.not_mem_nil
  result c e := by
    cases e
    exact h

theorem quiet (x : Except Error β) : Does (Traced.quiet x) allowed fun _ => True where
  events _ h := absurd h List.not_mem_nil
  result _ _ := trivial

theorem divide [Div α] {x y : α} {P : α → Prop} (h : allowed (.divides y)) (hP : P (x / y)) :
    Does (Traced.divide x y) allowed P where
  events event hevent := by
    rw [List.mem_singleton.1 hevent]
    exact h
  result c e := by
    cases e
    exact hP

theorem hand {node : String} {weight : α} (h : allowed (.hands node weight)) :
    Does (Traced.hand node weight) allowed fun _ => True where
  events event hevent := by
    rw [List.mem_singleton.1 hevent]
    exact h
  result _ _ := trivial

theorem bind {x : Traced α β} {f : β → Traced α γ} (hx : Does x allowed P)
    (hf : ∀ b, P b → Does (f b) allowed Q) : Does (x >>= f) allowed Q := by
  obtain ⟨events, outcome⟩ := x
  cases outcome with
  | error e => exact ⟨hx.events, fun c h => nomatch h⟩
  | ok b =>
    have rest := hf b (hx.result b rfl)
    refine ⟨fun event h => ?_, rest.result⟩
    rcases List.mem_append.1 h with h | h
    · exact hx.events event h
    · exact rest.events event h

/-- What every one of a list of computations expects, the list of their results has throughout. -/
theorem mapM {f : β → Traced α γ} {bs : List β} (h : ∀ b ∈ bs, Does (f b) allowed Q) :
    Does (bs.mapM f) allowed fun cs => ∀ c ∈ cs, Q c := by
  induction bs with
  | nil => exact pure fun c hc => absurd hc List.not_mem_nil
  | cons b bs ih =>
    rw [List.mapM_cons]
    refine bind (h b List.mem_cons_self) fun c hc => ?_
    refine bind (ih fun b hb => h b (List.mem_cons_of_mem _ hb)) fun cs hcs => pure ?_
    exact List.forall_mem_cons.2 ⟨hc, hcs⟩

/-- A fold whose steps do only what is allowed does only what is allowed. -/
theorem foldlM {f : σ → β → Traced α σ} {bs : List β}
    (h : ∀ b ∈ bs, ∀ s, Does (f s b) allowed fun _ => True) :
    ∀ s, Does (bs.foldlM f s) allowed fun _ => True := by
  induction bs with
  | nil => exact fun s => pure trivial
  | cons b bs ih =>
    intro s
    rw [List.foldlM_cons]
    exact bind (h b List.mem_cons_self s) fun t _ =>
      ih (fun b hb => h b (List.mem_cons_of_mem _ hb)) t

end Does

end Traced

/-! ## The traced walk -/

variable [Scalar α]

/-- Traced `Weighting.take`: the value of a fraction is a quotient. -/
def Weighting.traceTake (mode : Weighting) (own : Option Fraction) (passed : α) :
    Traced α (Option α) :=
  match mode, own with
  | .equal, _ => pure (some passed)
  | .specified, none => pure none
  | .specified, some f => do
    let ratio ← Traced.divide (Scalar.ofNat f.numerator) (Scalar.ofNat f.denominator)
    return some (ratio * passed)

/-- Traced `Rule.shares`. A volatility is inverted as soon as it is read, so that an error does not
hide the quotients before it. -/
def Rule.traceShares (rule : Rule) (floor : α) (statistic : β → Except Error α)
    (children : List β) (weight : α) : Traced α (List (Share β α)) :=
  match rule with
  | .root | .group _ => pure (evenly children .equal weight)
  | .equal => do
    let part ← Traced.divide weight (ofNat (max children.length 1))
    return evenly children .equal part
  | .specified => pure (evenly children .specified weight)
  | .inverseVolatility _ => do
    let inverses ← children.mapM fun c => do
      let volatility ← Traced.quiet (statistic c)
      Traced.divide one (effectiveVolatility floor volatility)
    let total := sum inverses
    (children.zip inverses).mapM fun (c, inverse) => do
      let part ← Traced.divide inverse total
      return ⟨c, .equal, part * weight⟩
  | .filter _ select count => do
    let values ← Traced.quiet (children.mapM statistic)
    let ranked := rankAscending (values.zip children)
    let kept := (select.keep (min count ranked.length) ranked).map Prod.snd
    if kept.isEmpty then return []
    else do
      let part ← Traced.divide weight (ofNat kept.length)
      return evenly kept .equal part

/-- Traced `Visitor`. -/
structure Tracer (α : Type) where
  id : String
  visit : Weighting → α → Evaluation α → Traced α (Evaluation α)

namespace Evaluator

variable (e : Evaluator α) (index : Nat)

/-- Hands a weight to a node and goes on with what the node takes of it. -/
def traceWeight (id : String) (own : Option Fraction) (mode : Weighting) (passed : α)
    (s : Evaluation α) (go : α → Traced α (Evaluation α)) : Traced α (Evaluation α) := do
  Traced.hand id passed
  match ← mode.traceTake own passed with
  | some weight => go weight
  | none => return s

mutual

/-- Traced `Evaluator.visit`. A node that holds nothing takes its weight all the same. -/
def trace : Node α → Weighting → α → Evaluation α → Traced α (Evaluation α)
  | .asset id own ticker => fun mode passed s =>
    traceWeight id own mode passed s fun weight => return receive ticker weight s
  | .unknown id own => fun mode passed s =>
    traceWeight id own mode passed s fun _ => return s
  | .choice id own conditions yes no => fun mode passed s =>
    traceWeight id own mode passed s fun weight => do
      let (passes, s) ← Traced.quiet (e.decided index conditions.mode conditions.items s)
      if passes then trace yes .equal weight s else trace no .equal weight s
  | .split id own rule children => fun mode passed s =>
    traceWeight id own mode passed s fun weight => do
      let shares ← rule.traceShares e.settings.volatilityFloor
        (fun v => e.statistics.value v.id index) (tracers children) weight
      shares.foldlM (fun s share => share.child.visit share.mode share.weight s) s

/-- Traced `Evaluator.visitors`. -/
def tracers : List (Node α) → List (Tracer α)
  | [] => []
  | c :: cs => ⟨c.id, trace c⟩ :: tracers cs

end

/-- Traced `Evaluator.evaluate`. -/
def traceEvaluate (tree : Node α) : Traced α (Allocation α) := do
  let s ← e.trace index tree .equal hundred {}
  let reached := s.received.mapValues fun _ w => some w
  return (e.tradeable.mapValues fun _ _ => none).insertAll reached.entries

end Evaluator

/-! ## Erasure -/

/-- Results that are changed one by one are changed together. -/
theorem Outcome.mapM_bind_ok {δ : Type} (f : β → Except Error γ) (g : γ → δ) (bs : List β) :
    (bs.mapM fun b => f b >>= fun c => .ok (g c)) = bs.mapM f >>= fun cs => .ok (cs.map g) := by
  induction bs with
  | nil => rfl
  | cons b bs ih =>
    simp only [List.mapM_cons, ih, bind_assoc, Except.pure_eq_ok, Except.ok_bind, List.map_cons]

theorem Weighting.outcome_traceTake (mode : Weighting) (own : Option Fraction) (passed : α) :
    (mode.traceTake own passed).outcome = .ok (mode.take own passed) := by
  cases mode with
  | equal => rfl
  | specified => cases own <;> rfl

/-- Without its trace, the sharing of a split is its sharing. -/
theorem Rule.outcome_traceShares (rule : Rule) (floor : α) (statistic : β → Except Error α)
    (children : List β) (weight : α) :
    (rule.traceShares floor statistic children weight).outcome =
      rule.shares floor statistic children weight := by
  cases rule with
  | root | group _ | equal | specified => rfl
  | inverseVolatility window =>
    unfold traceShares shares
    rw [Traced.outcome_bind, Traced.outcome_mapM]
    simp only [Traced.outcome_bind, Traced.outcome_quiet, Traced.outcome_divide,
      Outcome.mapM_bind_ok, bind_assoc, Except.ok_bind]
    congr 1
    funext values
    rw [Traced.outcome_mapM]
    simp only [Traced.outcome_bind, Traced.outcome_divide, Except.ok_bind, Traced.outcome_pure]
    rw [Outcome.mapM_eq_map fun _ _ => rfl]
    exact congrArg Except.ok List.map_zip_eq_zipWith
  | filter ranking select count =>
    unfold traceShares shares
    rw [Traced.outcome_bind, Traced.outcome_quiet]
    congr 1
    funext values
    dsimp only
    split <;> rfl

namespace Evaluator

variable {e : Evaluator α} {index : Nat}

theorem tracers_eq_map (children : List (Node α)) :
    e.tracers index children = children.map fun c => ⟨c.id, e.trace index c⟩ := by
  induction children with
  | nil => rfl
  | cons c cs ih => rw [tracers, ih, List.map_cons]

theorem outcome_traceWeight (id : String) (own : Option Fraction) (mode : Weighting) (passed : α)
    (s : Evaluation α) (go : α → Traced α (Evaluation α)) :
    (traceWeight id own mode passed s go).outcome =
      withWeight own mode passed s fun weight => (go weight).outcome := by
  unfold traceWeight withWeight
  rw [Traced.outcome_bind, Traced.outcome_hand, Except.ok_bind, Traced.outcome_bind,
    Weighting.outcome_traceTake, Except.ok_bind]
  cases mode.take own passed <;> rfl

/-- One walk. Without its trace, a traced visit is the visit. -/
theorem outcome_trace (n : Node α) :
    ∀ mode passed s, (e.trace index n mode passed s).outcome = e.visit index n mode passed s := by
  induction n using Node.induction with
  | asset id own ticker =>
    intro mode passed s
    rw [trace, outcome_traceWeight, visit]
    rfl
  | unknown id own =>
    intro mode passed s
    rw [trace, outcome_traceWeight, visit]
    unfold withWeight
    split <;> rfl
  | choice id own conditions yes no hy hn =>
    intro mode passed s
    rw [trace, outcome_traceWeight, visit]
    dsimp only
    congr 1
    funext weight
    rw [Traced.outcome_bind, Traced.outcome_quiet]
    congr 1
    funext decided
    obtain ⟨passes, s⟩ := decided
    cases passes with
    | false => exact hn _ _ _
    | true => exact hy _ _ _
  | split id own rule children ih =>
    intro mode passed s
    rw [trace, outcome_traceWeight, visit_split]
    congr 1
    funext weight
    rw [Traced.outcome_bind, Rule.outcome_traceShares, tracers_eq_map, Rule.shares_map, bind_assoc]
    cases h : rule.shares e.settings.volatilityFloor
      (fun c : Node α => e.statistics.value c.id index) children weight with
    | error fault => rfl
    | ok shares =>
      rw [Except.ok_bind, Except.ok_bind, Except.ok_bind, Traced.outcome_foldlM, List.foldlM_map]
      exact Outcome.foldlM_congr fun share hs s => ih _ (Rule.mem_of_mem_shares h hs) _ _ s

/-- The allocation. Without its trace, a traced evaluation is the evaluation. -/
theorem outcome_traceEvaluate (tree : Node α) :
    (e.traceEvaluate index tree).outcome = e.evaluate index tree := by
  unfold traceEvaluate evaluate evaluateNode
  rw [Traced.outcome_bind, outcome_trace, bind_assoc]
  rfl

end Evaluator

end StrategyTree
