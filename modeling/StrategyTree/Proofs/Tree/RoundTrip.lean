import StrategyTree.Proofs.Document.Doubles
import StrategyTree.Proofs.Document.Records
import StrategyTree.Proofs.Tree.Contents
import StrategyTree.Tree.ToDocument

/-!
# Trees that are written and read

What is written for a tree is read as that tree. Window lengths, counts and the parts of weights
must be in the range in which they are read. The number on the right side of a condition must read
back: the reader finds a double quickly rather than exactly, so that not every double does.

* `Node.Fits`: a tree whose whole numbers are in the range in which they are read.
* `Document.ReadsBack`: a double whose text is read as that double.
* `Node.read_compact`: such a tree, nested no deeper than allowed, is read as it is written.
-/

namespace StrategyTree

open Document

/-! ## Doubles -/

/-- The text that is written for a double is read as that double. -/
def Document.ReadsBack (x : Float) : Prop :=
  (Number.read (ofFloat x).compactChars).bind Number.toFloat? = some x

instance (x : Float) : Decidable (ReadsBack x) :=
  inferInstanceAs (Decidable (_ = some x))

/-- A double is written as the numeral of its digits, or else as `null`. -/
theorem Document.ofFloat_eq (x : Float) : ofFloat x = .null ∨
    ∃ d : Text.Decimal, ofFloat x = .number (.fraction (Text.isNegative x) d.layout) := by
  unfold ofFloat
  split
  · split
    · exact .inr ⟨_, rfl⟩
    · split
      · exact .inr ⟨_, rfl⟩
      · exact .inl rfl
  · exact .inl rfl

/-- Only what is written as a number reads back. -/
theorem Document.ReadsBack.exists_number {x : Float} (h : ReadsBack x) :
    ∃ n : Number, ofFloat x = .number n ∧ n.WellFormed ∧ n.toFloat? = some x := by
  obtain e | ⟨d, e⟩ := ofFloat_eq x
  · rw [ReadsBack, e] at h
    cases h
  · generalize hn : Number.fraction (Text.isNegative x) d.layout = n at e
    have wellFormed : n.WellFormed := hn ▸ Number.wellFormed_layout d
    refine ⟨n, e, wellFormed, ?_⟩
    rw [ReadsBack, e] at h
    change (Number.read n.render).bind Number.toFloat? = some x at h
    rwa [Number.read_render wellFormed] at h

/-! ## What a tree writes -/

/-- Both parts are below their bound. -/
def Fraction.Fits (f : Fraction) : Prop :=
  f.numerator < fractionLimit ∧ f.denominator < fractionLimit

instance (f : Fraction) : Decidable f.Fits := inferInstanceAs (Decidable (_ ∧ _))

/-- The window lengths and counts of a rule. -/
def Rule.counts : Rule → List Nat
  | .inverseVolatility window => [window]
  | .filter ranking _ count => [ranking.window, count]
  | .root | .group _ | .equal | .specified => []

/-- The number on the right side of a condition, if there is one. -/
def Condition.fixed? {α : Type} (c : Condition α) : Option α :=
  match c.rhs with
  | .fixed x => some x
  | .indicator _ => none

namespace Node

variable {α : Type}

/-- The window lengths and counts of a node. -/
def ownCounts : Node α → List Nat
  | choice _ _ conditions _ _ => (conditions.items.flatMap Condition.keys).map (·.window)
  | split _ _ rule _ => rule.counts
  | asset .. | unknown .. => []

/-- The numbers in the conditions of a node. -/
def ownOperands : Node α → List α
  | choice _ _ conditions _ _ => conditions.items.filterMap Condition.fixed?
  | asset .. | unknown .. | split .. => []

/-- Every window length and count of a tree, and both parts of every weight, are below their
bounds. -/
structure Fits (n : Node α) : Prop where
  counts : ∀ k ∈ n.collect ownCounts, k < countLimit
  weights : ∀ m ∈ n.nodes, ∀ f ∈ m.weight, f.Fits

instance (n : Node α) : Decidable n.Fits :=
  decidable_of_iff ((∀ k ∈ n.collect ownCounts, k < countLimit) ∧
    ∀ m ∈ n.nodes, ∀ f ∈ m.weight, f.Fits) ⟨fun h => ⟨h.1, h.2⟩, fun h => ⟨h.1, h.2⟩⟩

theorem Fits.child {n c : Node α} (h : n.Fits) (hc : c ∈ n.children) : c.Fits :=
  have hc := child_mem_nodes hc
  ⟨fun k hk => h.counts k (collect_subset hc hk), fun m hm => h.weights m (nodes_subset hc hm)⟩

end Node

/-! ## Parts of a node -/

/-- A document that is legible, and read as a value. -/
structure Document.Stores {β : Type} (read : Document → Option β) (d : Document) (b : β) :
    Prop where
  legible : d.Legible
  reads : read d = some b

theorem stores_nat {n limit : Nat} (h : n < limit) (hl : limit ≤ countLimit) :
    Stores (toNat? limit) (nat n) n :=
  ⟨.number trivial (Number.isSome_toFloat?_whole (Nat.lt_of_lt_of_le h hl)), toNat?_nat h⟩

theorem stores_text (s : String) : Stores toText? (text s) s := ⟨.text s, rfl⟩

theorem Fraction.Fits.stores {f : Fraction} (h : f.Fits) :
    Stores Fraction.ofDocument f.toDocument f := by
  have numerator := stores_nat h.1 (by decide)
  have denominator := stores_nat h.2 (by decide)
  have parts : f.toDocument.parts ["numerator", "denominator"] =
      some [nat f.numerator, nat f.denominator] := parts_record rfl (by decide)
  refine ⟨.record (by simp [numerator.legible, denominator.legible]), ?_⟩
  simp [Fraction.ofDocument, parts, numerator.reads, denominator.reads]

theorem ReturnStatistic.stores (f : ReturnStatistic) :
    Stores ReturnStatistic.ofDocument (text f.name) f := by
  refine ⟨.text _, ?_⟩
  change (ReturnStatistic.ofName f.name).toOption = some f
  rw [ReturnStatistic.ofName_name]
  rfl

theorem Indicator.Function.stores (f : Indicator.Function) :
    Stores Indicator.Function.ofDocument (Document.text f.name) f := by
  refine ⟨.text _, ?_⟩
  change (Indicator.Function.ofName f.name).toOption = some f
  rw [Indicator.Function.ofName_name]
  rfl

theorem Ranking.stores {r : Ranking} (h : r.window < countLimit) :
    Stores Ranking.ofDocument r.toDocument r := by
  have statistic := r.statistic.stores
  have window := stores_nat h (Nat.le_refl _)
  have parts : r.toDocument.parts ["function", "window"] =
      some [text r.statistic.name, nat r.window] := parts_record rfl (by decide)
  refine ⟨.record (by simp [statistic.legible, window.legible]), ?_⟩
  simp [Ranking.ofDocument, parts, statistic.reads, window.reads]

theorem Indicator.Key.stores {k : Indicator.Key} (h : k.window < countLimit) :
    Stores Indicator.Key.ofDocument k.toDocument k := by
  have ticker := stores_text k.ticker
  have function := k.function.stores
  have window := stores_nat h (Nat.le_refl _)
  have parts : k.toDocument.parts ["ticker", "function", "window"] =
      some [Document.text k.ticker, Document.text k.function.name, nat k.window] :=
    parts_record rfl (by decide)
  refine ⟨.record (by simp [ticker.legible, function.legible, window.legible]), ?_⟩
  simp [Indicator.Key.ofDocument, parts, ticker.reads, function.reads, window.reads]

theorem Selection.stores (s : Selection) : Stores Selection.ofDocument (text s.word) s :=
  ⟨.text _, by cases s <;> rfl⟩

theorem Comparator.stores (c : Comparator) : Stores Comparator.ofDocument (text c.word) c :=
  ⟨.text _, by cases c <;> rfl⟩

theorem Quantifier.stores (q : Quantifier) : Stores Quantifier.ofDocument (text q.word) q :=
  ⟨.text _, by cases q <;> rfl⟩

theorem Document.ReadsBack.stores {x : Float} (h : ReadsBack x) :
    Stores Operand.ofDocument (ofFloat x) (.fixed x) := by
  obtain ⟨n, e, wellFormed, value⟩ := h.exists_number
  rw [e]
  exact ⟨.number wellFormed (by rw [value]; rfl), by rw [Operand.ofDocument, value]; rfl⟩

/-- The right side of a condition: what is written for an indicator is no number. -/
theorem Operand.stores {o : Operand Float} (fixed : ∀ x, o = .fixed x → ReadsBack x)
    (indicator : ∀ k, o = .indicator k → k.window < countLimit) :
    Stores Operand.ofDocument o.toDocument o := by
  cases o with
  | fixed x => exact (fixed x rfl).stores
  | indicator k =>
    have key := Indicator.Key.stores (indicator k rfl)
    refine ⟨key.legible, ?_⟩
    change (Indicator.Key.ofDocument k.toDocument).map Operand.indicator = _
    rw [key.reads]
    rfl

theorem Condition.stores {c : Condition Float} (keys : ∀ k ∈ c.keys, k.window < countLimit)
    (fixed : ∀ x ∈ c.fixed?, ReadsBack x) : Stores Condition.ofDocument c.toDocument c := by
  obtain ⟨l, comparator, r⟩ := c
  have lhs : Stores Indicator.Key.ofDocument l.toDocument l :=
    Indicator.Key.stores (keys l (by cases r <;> exact List.mem_cons_self))
  have word := comparator.stores
  have rhs : Stores Operand.ofDocument r.toDocument r := by
    refine Operand.stores (fun x e => fixed x ?_) fun k e => keys k ?_
    · rw [e]
      rfl
    · rw [e]
      exact List.mem_cons_of_mem _ List.mem_cons_self
  have parts : Document.parts ["lhs", "comparator", "rhs"]
      (Condition.toDocument ⟨l, comparator, r⟩) =
      some [l.toDocument, text comparator.word, r.toDocument] := parts_record rfl (by decide)
  refine ⟨.record (by simp [lhs.legible, word.legible, rhs.legible]), ?_⟩
  simp [Condition.ofDocument, parts, lhs.reads, word.reads, rhs.reads]

theorem Conditions.stores {c : Conditions Float}
    (keys : ∀ k ∈ c.items.flatMap Condition.keys, k.window < countLimit)
    (fixed : ∀ x ∈ c.items.filterMap Condition.fixed?, ReadsBack x) :
    Stores Conditions.ofDocument c.toDocument c := by
  have mode := c.mode.stores
  have item : ∀ i ∈ c.items, Stores Condition.ofDocument i.toDocument i := fun i hi =>
    Condition.stores (fun k hk => keys k (List.mem_flatMap.2 ⟨i, hi, hk⟩))
      fun x hx => fixed x (List.mem_filterMap.2 ⟨i, hi, hx⟩)
  have items : (c.items.map Condition.toDocument).mapM Condition.ofDocument = some c.items := by
    rw [mapM_map_eq_some fun i hi => (item i hi).reads, List.map_id']
  have legible : (array (c.items.map Condition.toDocument)).Legible := by
    refine .array fun d hd => ?_
    obtain ⟨i, hi, rfl⟩ := List.mem_map.1 hd
    exact (item i hi).legible
  have parts : c.toDocument.parts ["mode", "items"] =
      some [text c.mode.word, array (c.items.map Condition.toDocument)] :=
    parts_record rfl (by decide)
  refine ⟨.record (by simp [mode.legible, legible]), ?_⟩
  simp [Conditions.ofDocument, parts, mode.reads, items]

/-! ## The members of a node -/

namespace Node

section Members

variable {id : String} {weight : Option Fraction} {kind : String}
  {rest : List (String × Document)}

/-- The members that are written for a node, as they are read: those that every node starts with,
and the rest. -/
def members (id : String) (weight : Option Fraction) (kind : String)
    (rest : List (String × Document)) : List NodeMember :=
  (headMembers id weight kind ++ rest).map NodeMember.of

theorem names_sublist : ((members id weight kind rest).map NodeMember.name).Sublist
    (["id", "weight", "type"] ++ rest.map Prod.fst) := by
  rw [members, List.map_map, List.map_append]
  refine List.Sublist.append_right ?_ _
  cases weight with
  | none => exact show ["id", "type"].Sublist ["id", "weight", "type"] by decide
  | some f => exact List.Sublist.refl _

/-- The names of what a node's kind needs are distinct, and none is a name that every node uses. -/
def DistinctNames (rest : List (String × Document)) : Prop :=
  (["id", "weight", "type"] ++ rest.map Prod.fst).Nodup

namespace DistinctNames

variable (distinct : DistinctNames rest)

include distinct

theorem nodup_members : ((members id weight kind rest).map NodeMember.name).Nodup :=
  List.Nodup.sublist names_sublist distinct

/-- A member that is written is found by its name. -/
theorem required_of_mem {name : String} {d : Document}
    (h : (name, d) ∈ headMembers id weight kind ++ rest) :
    NodeMember.required name (members id weight kind rest) = some (.of (name, d)) :=
  NodeMember.required_of_mem (m := .of (name, d)) distinct.nodup_members (List.mem_map_of_mem h)

theorem required_id :
    NodeMember.required "id" (members id weight kind rest) = some (.of ("id", text id)) :=
  distinct.required_of_mem (by simp [headMembers])

theorem required_type :
    NodeMember.required "type" (members id weight kind rest) = some (.of ("type", text kind)) :=
  distinct.required_of_mem (by simp [headMembers])

theorem required_rest (id : String) (weight : Option Fraction) (kind name : String) (d : Document)
    (h : (name, d) ∈ rest) :
    NodeMember.required name (members id weight kind rest) = some (.of (name, d)) :=
  distinct.required_of_mem (List.mem_append_right _ h)

theorem nullable_of_mem {β : Type} {read : Document → Option β} {name : String} {d : Document}
    (h : (name, d) ∈ headMembers id weight kind ++ rest) (hd : d ≠ .null) :
    NodeMember.nullable read name (members id weight kind rest) = (read d).map some :=
  NodeMember.nullable_of_mem (m := .of (name, d)) distinct.nodup_members (List.mem_map_of_mem h) hd

theorem nullable_weight (fits : ∀ f ∈ weight, f.Fits) :
    NodeMember.nullable Fraction.ofDocument "weight" (members id weight kind rest) =
      some weight := by
  cases weight with
  | none =>
    refine NodeMember.nullable_of_not_mem _ ?_
    rw [members, List.map_map, List.map_append, List.mem_append, not_or]
    exact ⟨show "weight" ∉ ["id", "type"] by decide,
      List.disjoint_of_nodup_append distinct (by decide)⟩
  | some f =>
    rw [distinct.nullable_of_mem (d := f.toDocument) (by simp [headMembers]) (by rintro ⟨⟩),
      (fits f rfl).stores.reads]
    rfl

end DistinctNames

/-- A node is stored if what its kind needs is legible and makes that node. -/
theorem stores_of_members {n : Node Float} (fits : ∀ f ∈ weight, f.Fits)
    (legible : ∀ m ∈ rest, m.2.Legible) (reads : ofMembers (members id weight kind rest) = some n) :
    Stores ofDocument (record (headMembers id weight kind ++ rest)) n := by
  refine ⟨.record (List.forall_mem_append.2 ⟨?_, legible⟩), (ofDocument_record _).trans reads⟩
  cases weight with
  | none => simp [headMembers, (stores_text _).legible]
  | some f => simp [headMembers, (stores_text _).legible, (fits f rfl).stores.legible]

end Members

/-! ## Whole trees -/

section Trees

variable {id : String} {weight : Option Fraction}

theorem stores_asset (fits : ∀ f ∈ weight, f.Fits) (ticker : String) :
    Stores Node.ofDocument (toDocument (asset id weight ticker)) (asset id weight ticker) := by
  have names : DistinctNames [("ticker", text ticker)] :=
    show ["id", "weight", "type", "ticker"].Nodup by decide
  have kind : Kind.ofDocument (text "asset") = some .asset := rfl
  have held := names.required_rest id weight "asset" "ticker" (text ticker) (by simp)
  rw [toDocument]
  refine stores_of_members fits (by simp [(stores_text _).legible]) ?_
  simp [ofMembers, names.required_id, names.nullable_weight fits, names.required_type, kind,
    (stores_text _).reads, held]

theorem stores_unknown (fits : ∀ f ∈ weight, f.Fits) :
    Stores Node.ofDocument (toDocument (unknown id weight)) (unknown id weight) := by
  have names : DistinctNames [] := show ["id", "weight", "type"].Nodup by decide
  have kind : Kind.ofDocument (text "unknown") = some .unknown := rfl
  rw [toDocument, ← List.append_nil (headMembers id weight "unknown")]
  refine stores_of_members fits (by simp) ?_
  simp [ofMembers, names.required_id, names.nullable_weight fits, names.required_type, kind,
    (stores_text _).reads]

theorem stores_choice (fits : ∀ f ∈ weight, f.Fits) {conditions : Conditions Float}
    (hc : Stores Conditions.ofDocument conditions.toDocument conditions) {yes no : Node Float}
    (hy : Stores Node.ofDocument yes.toDocument yes)
    (hn : Stores Node.ofDocument no.toDocument no) :
    Stores Node.ofDocument (toDocument (choice id weight conditions yes no))
      (choice id weight conditions yes no) := by
  have names : DistinctNames [("conditions", conditions.toDocument), ("then", yes.toDocument),
      ("else", no.toDocument)] :=
    show ["id", "weight", "type", "conditions", "then", "else"].Nodup by decide
  have kind : Kind.ofDocument (text "if-then-else") = some .choice := rfl
  have found := names.required_rest id weight "if-then-else"
  have conditions' := found "conditions" conditions.toDocument (by simp)
  have yes' := found "then" yes.toDocument (by simp)
  have no' := found "else" no.toDocument (by simp)
  rw [toDocument]
  refine stores_of_members fits (by simp [hc.legible, hy.legible, hn.legible]) ?_
  simp [ofMembers, names.required_id, names.nullable_weight fits, names.required_type, kind,
    (stores_text _).reads, conditions', yes', no', hc.reads, hy.reads, hn.reads]

theorem toDocuments_eq_map (cs : List (Node Float)) : toDocuments cs = cs.map toDocument := by
  induction cs with
  | nil => rw [toDocuments, List.map_nil]
  | cons c cs ih => rw [toDocuments, ih, List.map_cons]

theorem stores_children {cs : List (Node Float)}
    (h : ∀ c ∈ cs, Stores Node.ofDocument c.toDocument c) :
    Stores Node.listOfDocument (array (toDocuments cs)) cs := by
  constructor
  · refine .array fun d hd => ?_
    rw [toDocuments_eq_map] at hd
    obtain ⟨c, hc, rfl⟩ := List.mem_map.1 hd
    exact (h c hc).legible
  · rw [Node.listOfDocument]
    induction cs with
    | nil => rw [toDocuments, Node.listOfItems]
    | cons c cs ih =>
      rw [List.forall_mem_cons] at h
      rw [toDocuments, Node.listOfItems, h.1.reads, ih h.2]
      rfl

/-- The kind of node that shares by a rule. -/
def ruleKind : Rule → Kind
  | .root => .root
  | .group _ => .group
  | .equal => .equal
  | .specified => .specified
  | .inverseVolatility _ => .inverseVolatility
  | .filter .. => .filter

theorem ofDocument_kind (rule : Rule) :
    Kind.ofDocument (text rule.kind) = some (ruleKind rule) := by
  cases rule <;> rfl

/-- What is written for a rule and the children is found where the kind of node looks for it. -/
theorem ofMembers_rule (fits : ∀ f ∈ weight, f.Fits) {rule : Rule}
    (counts : ∀ k ∈ rule.counts, k < countLimit) {children : List (Node Float)} {d : Document}
    (names : DistinctNames (ruleMembers rule ++ [("children", d)]))
    (below : Node.listOfDocument d = some children) :
    ofMembers (members id weight rule.kind (ruleMembers rule ++ [("children", d)])) =
      some (split id weight rule children) := by
  have found := names.required_rest id weight rule.kind
  have children' := found "children" d (by simp)
  rw [ofMembers]
  simp only [names.required_id, names.nullable_weight fits, names.required_type, children', below,
    ofDocument_kind, NodeMember.of_value, NodeMember.of_nodes, (stores_text _).reads,
    Option.bind_eq_bind, Option.bind_some, Option.pure_def]
  cases rule with
  | root | equal | specified => rfl
  | group name =>
    have name' : NodeMember.nullable toText? "name" (members id weight (Rule.group name).kind
        (ruleMembers (.group name) ++ [("children", d)])) = some name := by
      cases name with
      | none =>
        refine NodeMember.nullable_of_not_mem _ fun h => ?_
        exact absurd (names_sublist.subset h)
          (show "name" ∉ ["id", "weight", "type", "children"] by decide)
      | some s =>
        rw [names.nullable_of_mem (d := text s) (by simp [ruleMembers]) (by rintro ⟨⟩)]
        rfl
    simp [ruleKind, name']
  | inverseVolatility window =>
    have window' := found "window" (nat window) (by simp [ruleMembers])
    have count := toNat?_nat (counts window (by simp [Rule.counts]))
    simp [ruleKind, window', count]
  | filter ranking select count =>
    have sort' := found "sort" ranking.toDocument (by simp [ruleMembers])
    have select' := found "select" (text select.word) (by simp [ruleMembers])
    have count' := found "count" (nat count) (by simp [ruleMembers])
    have ranked := Ranking.stores (r := ranking) (counts _ (by simp [Rule.counts]))
    have kept := toNat?_nat (counts count (by simp [Rule.counts]))
    simp [ruleKind, sort', select', count', ranked.reads, select.stores.reads, kept]

theorem legible_ruleMembers {rule : Rule} (counts : ∀ k ∈ rule.counts, k < countLimit) :
    ∀ m ∈ ruleMembers rule, m.2.Legible := by
  cases rule with
  | root | equal | specified => simp [ruleMembers]
  | group name => cases name <;> simp [ruleMembers, (stores_text _).legible]
  | inverseVolatility window =>
    have window := stores_nat (counts window (by simp [Rule.counts])) (Nat.le_refl _)
    simp [ruleMembers, window.legible]
  | filter ranking select count =>
    have ranked := Ranking.stores (r := ranking) (counts _ (by simp [Rule.counts]))
    have kept := stores_nat (counts count (by simp [Rule.counts])) (Nat.le_refl _)
    simp [ruleMembers, ranked.legible, select.stores.legible, kept.legible]

theorem distinctNames_rule (rule : Rule) (d : Document) :
    DistinctNames (ruleMembers rule ++ [("children", d)]) := by
  cases rule with
  | root | equal | specified => exact show ["id", "weight", "type", "children"].Nodup by decide
  | group name =>
    cases name with
    | none => exact show ["id", "weight", "type", "children"].Nodup by decide
    | some s => exact show ["id", "weight", "type", "name", "children"].Nodup by decide
  | inverseVolatility window =>
    exact show ["id", "weight", "type", "window", "children"].Nodup by decide
  | filter ranking select count =>
    exact show ["id", "weight", "type", "sort", "select", "count", "children"].Nodup by decide

theorem stores_split (fits : ∀ f ∈ weight, f.Fits) {rule : Rule}
    (counts : ∀ k ∈ rule.counts, k < countLimit) {children : List (Node Float)}
    (h : ∀ c ∈ children, Stores Node.ofDocument c.toDocument c) :
    Stores Node.ofDocument (toDocument (split id weight rule children))
      (split id weight rule children) := by
  have below := stores_children h
  have names := distinctNames_rule rule (array (toDocuments children))
  rw [toDocument, List.append_assoc]
  refine stores_of_members fits (List.forall_mem_append.2 ⟨legible_ruleMembers counts, ?_⟩)
    (ofMembers_rule fits counts names below.reads)
  rw [List.forall_mem_singleton]
  exact below.legible

/-- A tree is stored in the document that is written for it. -/
theorem stores_toDocument {n : Node Float} (fits : n.Fits)
    (operands : ∀ x ∈ n.collect ownOperands, ReadsBack x) :
    Stores ofDocument n.toDocument n := by
  induction n using induction_on_children with
  | h n ih =>
    have below : ∀ c ∈ n.children, Stores ofDocument c.toDocument c := fun c hc =>
      ih c hc (fits.child hc) fun x hx => operands x (collect_subset (child_mem_nodes hc) hx)
    have weights := fits.weights n (self_mem_nodes n)
    have counts : ∀ k ∈ n.ownCounts, k < countLimit := fun k hk =>
      fits.counts k (own_subset_collect ownCounts n hk)
    have own : ∀ x ∈ n.ownOperands, ReadsBack x := fun x hx =>
      operands x (own_subset_collect ownOperands n hx)
    cases n with
    | asset id weight ticker => exact stores_asset weights ticker
    | unknown id weight => exact stores_unknown weights
    | choice id weight conditions yes no =>
      have keys : ∀ k ∈ conditions.items.flatMap Condition.keys, k.window < countLimit :=
        fun k hk => counts k.window (List.mem_map_of_mem hk)
      exact stores_choice weights (Conditions.stores keys own) (below yes (by simp [children]))
        (below no (by simp [children]))
    | split id weight rule children => exact stores_split weights counts below

/-- **Main theorem: trees are read as they are written.** Let the whole numbers of a tree be in the
range in which they are read, let the numbers in its conditions read back, and let its document be
nested no deeper than allowed. Then the text of that document is read as that tree. -/
theorem read_compact {n : Node Float} (fits : n.Fits)
    (operands : ∀ x ∈ n.collect ownOperands, ReadsBack x)
    (shallow : n.toDocument.depth ≤ nestingLimit) :
    Document.read n.toDocument.compact.toList >>= Node.read = some n := by
  have stored := stores_toDocument fits operands
  obtain ⟨ms, e⟩ : ∃ ms, n.toDocument = .object ms := by
    cases n <;> exact ⟨_, by rw [toDocument]; rfl⟩
  rw [Document.compact, String.toList_ofList, stored.legible.read_compactChars,
    Option.bind_eq_bind, Option.bind_some]
  rw [e] at stored shallow ⊢
  rw [Node.read, Node.readWithin_of_isSound stored.legible.isSound shallow, stored.reads]

/-- A tree with a node of every kind. -/
def everyKind : Node Float :=
  .split "root" none .root [
    .split "first" (some ⟨1, 4294967295⟩) (.group (some "Größe \"x\"")) [
      .choice "either" none
        ⟨.any, [⟨⟨"SPY", .relativeStrengthIndex, 14⟩, .less, .fixed (-0.1)⟩,
          ⟨⟨"SPY", .cumulativeReturn, 5⟩, .greater, .indicator ⟨"TLT", .maxDrawdown, 200⟩⟩]⟩
        (.asset "yes" none "SPY") (.asset "no" none "BRK.B\n")],
    .split "second" none (.group none) [
      .split "parts" none .specified [.asset "part" (some ⟨1, 2⟩) "TLT", .unknown "rest" none]],
    .split "third" none .equal [
      .split "calm" none (.inverseVolatility 20) [.asset "one" none "€"],
      .split "best" none (.filter ⟨.maxDrawdown, 18446744073709551615⟩ .bottom 2) []]]

theorem read_compact_everyKind :
    everyKind.Fits ∧ (∀ x ∈ everyKind.collect ownOperands, ReadsBack x) ∧
      everyKind.toDocument.depth ≤ nestingLimit ∧
      Document.read everyKind.toDocument.compact.toList >>= Node.read = some everyKind := by
  have fits : everyKind.Fits := by decide +kernel
  have operands : ∀ x ∈ everyKind.collect ownOperands, ReadsBack x := by decide +kernel
  have shallow : everyKind.toDocument.depth ≤ nestingLimit := by decide +kernel
  exact ⟨fits, operands, shallow, read_compact fits operands shallow⟩

end Trees

end Node

end StrategyTree
