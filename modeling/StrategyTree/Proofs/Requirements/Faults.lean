import StrategyTree.Proofs.Requirements.Gathered

/-!
# The faults of a tree

A node can be at fault in itself: by a weight over zero, by keeping nothing as a filter, by an empty
window of its ranking or of one of its conditions. The faults of a tree are those of its nodes in
the order of the walk, and the first one of them is what `Requirements.ofTree` fails with.

* `Node.faults`: the faults of a tree; `Node.faults_ne_nil_iff` says when there are any.
* `Reports`: a computation fails with the first one of some faults, or succeeds without any.
* `Requirements.reports_ofTree`: what a tree requires is refused with its first fault.
-/

namespace StrategyTree

/-! ## Computations that report faults -/

/-- A computation fails with the first one of some faults, and succeeds if there are none. -/
def Reports {β : Type} (faults : List Error) (x : Except Error β) : Prop :=
  match faults with
  | [] => ∃ b, x = .ok b
  | fault :: _ => x = .error fault

namespace Reports

variable {β γ σ : Type} {es fs : List Error}

theorem ok (b : β) : Reports [] (.ok b) := ⟨b, rfl⟩

theorem error (e : Error) : Reports [e] (.error e : Except Error β) := rfl

/-- A check without a result fails with its fault, if it has one. -/
theorem ite {c : Prop} [Decidable c] {e : Error} {b : β} :
    Reports (if c then [e] else []) (if c then .error e else .ok b) := by
  split
  · exact error e
  · exact ok b

/-- Of a sequence, the faults of the first part come first. -/
theorem bind {x : Except Error β} {f : β → Except Error γ} (h : Reports es x)
    (hf : ∀ b, x = .ok b → Reports fs (f b)) : Reports (es ++ fs) (x >>= f) := by
  cases es with
  | nil =>
    obtain ⟨b, rfl⟩ := h
    exact hf b rfl
  | cons e es =>
    rw [Reports] at h
    subst h
    rfl

/-- A sequence whose second part cannot fail has the faults of the first part. -/
theorem bind_ok {x : Except Error β} {f : β → γ} (h : Reports es x) :
    Reports es (x >>= fun b => .ok (f b)) := by
  have sequence := bind h fun b _ => ok (f b)
  rwa [List.append_nil] at sequence

/-- A loop has the faults of its steps, one after the other. -/
theorem foldlM {faults : β → List Error} {f : σ → β → Except Error σ}
    (h : ∀ b s, Reports (faults b) (f s b)) (bs : List β) :
    ∀ s, Reports (bs.flatMap faults) (bs.foldlM f s) := by
  induction bs with
  | nil =>
    intro s
    exact ok s
  | cons b bs ih =>
    intro s
    rw [List.flatMap_cons, List.foldlM_cons]
    exact bind (h b s) fun t _ => ih t

end Reports

/-! ## Faults -/

namespace Node

variable {α : Type}

/-- The fault of a weight over zero. -/
def weightFaults (id : String) (weight : Option Fraction) : List Error :=
  match weight with
  | some ⟨_, 0⟩ => [.invalidWeight id "denominator must be > 0"]
  | _ => []

/-- The fault of a filter that keeps nothing. -/
def countFaults (id : String) (rule : Rule) : List Error :=
  match rule with
  | .filter _ _ 0 => [.invalidNode id "filter count must be > 0"]
  | _ => []

/-- The fault of an empty window of a ranking. -/
def rankingFaults (id : String) (rule : Rule) : List Error :=
  match rule.ranking? with
  | some ranking =>
    if ranking.window = 0 then [.zeroWindow (ranking.statistic.name ++ " on node " ++ id)] else []
  | none => []

/-- The fault of an empty window of an indicator. -/
def readingFaults (key : Indicator.Key) : List Error :=
  if key.window = 0 then [.zeroWindow key.function.name] else []

/-- The faults of a node in itself: of its weight, of its count, of its window or those of its
conditions. -/
def ownFaults : Node α → List Error
  | asset id weight _ | unknown id weight => weightFaults id weight
  | choice id weight conditions _ _ =>
    weightFaults id weight ++ (conditions.items.flatMap Condition.keys).flatMap readingFaults
  | split id weight rule _ =>
    weightFaults id weight ++ (countFaults id rule ++ rankingFaults id rule)

/-- The faults of a tree, those of a node before those of the nodes below it. -/
def faults (n : Node α) : List Error := n.collect ownFaults

/-- A node is at fault: its weight has the denominator 0, it is a filter with the count 0, the
window of its ranking is 0, or one of its conditions reads an indicator with the window 0. -/
def Faulty (n : Node α) : Prop :=
  (∃ w, n.weight = some w ∧ w.denominator = 0) ∨
  (∃ id weight ranking select children, n = split id weight (.filter ranking select 0) children) ∨
  (∃ ranking, n.ranking? = some ranking ∧ ranking.window = 0) ∨
  ∃ key ∈ n.ownReadings, key.window = 0

theorem weightFaults_ne_nil_iff {id : String} {weight : Option Fraction} :
    weightFaults id weight ≠ [] ↔ ∃ w, weight = some w ∧ w.denominator = 0 := by
  unfold weightFaults
  split
  · simp
  · rename_i hother
    simp only [ne_eq, not_true_eq_false, false_iff, not_exists, not_and]
    rintro ⟨numerator, denominator⟩ hweight hzero
    obtain rfl : denominator = 0 := hzero
    exact hother numerator hweight

theorem countFaults_ne_nil_iff {id : String} {rule : Rule} :
    countFaults id rule ≠ [] ↔ ∃ ranking select, rule = .filter ranking select 0 := by
  unfold countFaults
  split
  · simp
  · rename_i hother
    simp only [ne_eq, not_true_eq_false, false_iff, not_exists]
    exact hother

theorem rankingFaults_ne_nil_iff {id : String} {rule : Rule} :
    rankingFaults id rule ≠ [] ↔ ∃ ranking, rule.ranking? = some ranking ∧ ranking.window = 0 := by
  unfold rankingFaults
  cases rule.ranking? <;> simp

theorem readingFaults_ne_nil_iff {key : Indicator.Key} :
    readingFaults key ≠ [] ↔ key.window = 0 := by
  simp [readingFaults]

/-- A node has faults of its own exactly if it is at fault. -/
theorem ownFaults_ne_nil_iff {n : Node α} : n.ownFaults ≠ [] ↔ n.Faulty := by
  cases n with
  | asset id weight ticker =>
    rw [ownFaults, weightFaults_ne_nil_iff]
    simp [Faulty, Node.weight, ranking?, ownReadings]
  | unknown id weight =>
    rw [ownFaults, weightFaults_ne_nil_iff]
    simp [Faulty, Node.weight, ranking?, ownReadings]
  | choice id weight conditions yes no =>
    have readings : (conditions.items.flatMap Condition.keys).flatMap readingFaults ≠ [] ↔
        ∃ key ∈ conditions.items.flatMap Condition.keys, key.window = 0 := by
      rw [ne_eq, List.flatMap_eq_nil_iff]
      push Not
      simp only [readingFaults_ne_nil_iff]
    rw [ownFaults, ne_eq, List.append_eq_nil_iff, not_and_or, ← ne_eq, ← ne_eq,
      weightFaults_ne_nil_iff, readings]
    simp [Faulty, Node.weight, ranking?, ownReadings]
  | split id weight rule children =>
    rw [ownFaults, ne_eq, List.append_eq_nil_iff, List.append_eq_nil_iff, not_and_or, not_and_or,
      ← ne_eq, ← ne_eq, ← ne_eq, weightFaults_ne_nil_iff, countFaults_ne_nil_iff,
      rankingFaults_ne_nil_iff]
    simp [Faulty, Node.weight, ranking?, ownReadings]

/-- When a tree has faults. It has some exactly if one of its nodes is at fault. -/
theorem faults_ne_nil_iff {n : Node α} : n.faults ≠ [] ↔ ∃ m ∈ n.nodes, m.Faulty := by
  rw [faults, collect, ne_eq, List.flatMap_eq_nil_iff]
  push Not
  simp only [ne_eq, ← ownFaults_ne_nil_iff]

end Node

/-! ## What a tree is refused for -/

namespace Requirements

open Node

variable {α : Type}

theorem reports_checkWeight (id : String) (weight : Option Fraction) :
    Reports (weightFaults id weight) (checkWeight id weight) := by
  match weight with
  | none | some ⟨_, _ + 1⟩ => exact Reports.ok ()
  | some ⟨_, 0⟩ => exact Reports.error _

theorem reports_checkRule (id : String) (rule : Rule) :
    Reports (countFaults id rule) (checkRule id rule) := by
  match rule with
  | .root | .group _ | .equal | .specified | .inverseVolatility _ => exact Reports.ok ()
  | .filter _ _ 0 => exact Reports.error _
  | .filter _ _ (_ + 1) => exact Reports.ok ()

theorem reports_addIndicator (key : Indicator.Key) (r : Requirements) :
    Reports (readingFaults key) (addIndicator r key) :=
  Reports.ite

theorem reports_enterSplit (depth : Nat) (id : String) (rule : Rule) (children : List String)
    (r : Requirements) :
    Reports (countFaults id rule ++ rankingFaults id rule)
      (enterSplit depth id rule children r) := by
  refine Reports.bind (reports_checkRule id rule) fun _ _ => ?_
  unfold rankingFaults
  cases rule.ranking? with
  | none => exact Reports.ok _
  | some ranking => exact Reports.bind_ok Reports.ite

/-- One node. Entering a node fails with the first of its own faults. -/
theorem reports_enter (p : Nat × Node α) (r : Requirements) :
    Reports p.2.ownFaults (enter r p) := by
  obtain ⟨depth, n⟩ := p
  cases n with
  | asset id weight ticker => exact Reports.bind_ok (reports_checkWeight id weight)
  | unknown id weight => exact Reports.bind_ok (reports_checkWeight id weight)
  | choice id weight conditions yes no =>
    exact Reports.bind (reports_checkWeight id weight) fun _ _ =>
      Reports.foldlM reports_addIndicator _ r
  | split id weight rule children =>
    exact Reports.bind (reports_checkWeight id weight) fun _ _ =>
      Reports.bind_ok (reports_enterSplit depth id rule (children.map Node.id) r)

/-- A tree. Gathering what a tree requires fails with the first fault of the tree. -/
theorem reports_ofTree (tree : Node α) : Reports tree.faults (ofTree tree) := by
  rw [ofTree, visit_eq_foldlM, faults, ← flatMap_walk ownFaults 0]
  exact Reports.foldlM reports_enter _ _

end Requirements

end StrategyTree
