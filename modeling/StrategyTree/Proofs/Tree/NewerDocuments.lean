import StrategyTree.Proofs.Tree.Grouping
import StrategyTree.Proofs.Tree.Revision
import StrategyTree.Proofs.Tree.RoundTrip

/-!
# Newer documents

What a newer writer adds does not get in the way of reading a strategy: members are found by their
names, others are passed over, and a node of a kind that is not known is an unknown node in its
place.

* `Replaced`: a document with another one in place of a node.
* `Replaced.ofDocument`: its tree has the other's node in that place, and is the same elsewhere.
* `Node.readWithin_newer`: a strategy is read from a newer document as before, but for the nodes of
  new kinds.
-/

namespace StrategyTree

open Document

/-! ## Places in a tree -/

namespace Node

variable {α : Type}

/-- The index of the gap among the children of the node. -/
def Frame.index (f : Frame α) : Nat := f.left.length

/-- The tree around a node, by frames of which the first is the outermost. -/
def plug (frames : List (Frame α)) (n : Node α) : Node α := frames.foldr Frame.fill n

end Node

/-! ## Nodes by one of their members -/

theorem Document.readOnly_middle {β : Type} {read : Document → Option β}
    {before after : List Document} {d : Document} {b : β} :
    readOnly read (before ++ d :: after) = some b ↔
      before = [] ∧ after = [] ∧ read d = some b := by
  rw [readOnly_eq_some]
  constructor
  · rintro ⟨e, h, he⟩
    obtain ⟨rfl, h⟩ | ⟨rfl, h⟩ := List.append_eq_singleton_iff.1 h
    · obtain ⟨rfl, rfl⟩ := List.cons.inj h
      exact ⟨rfl, rfl, he⟩
    · cases h
  · rintro ⟨rfl, rfl, h⟩
    exact ⟨d, rfl, h⟩

/-- A node depends on the value under a name through what is read of it. -/
structure ReadsThrough {β : Type} (values : String → List Document) (name : String)
    (read : Document → Option β) (fill : β → Node Float) (n : Node Float) : Prop where
  value : ∃ b, readOnly read (values name) = some b ∧ n = fill b
  change {values' : String → List Document} {b : β}
    (others : ∀ other, other ≠ name → values' other = values other)
    (h : readOnly read (values' name) = some b) : Node.ofValues values' = some (fill b)

namespace Node

/-- The id, the weight and the kind of a node with the given values. -/
structure Head (values : String → List Document) (id : String) (weight : Option Fraction)
    (k : Kind) : Prop where
  id : readOnly toText? (values "id") = some id
  weight : readNullable Fraction.ofDocument (values "weight") = some weight
  kind : readOnly Kind.ofDocument (values "type") = some k

variable {values values' : String → List Document} {id : String} {weight : Option Fraction}
  {k : Kind} {n : Node Float} {name : String}

theorem exists_head (h : ofValues values = some n) :
    ∃ id weight, Head values id weight (Kind.ofValues values) := by
  rw [ofValues, Option.bind_eq_bind, Option.bind_eq_some_iff] at h
  obtain ⟨id, hid, h⟩ := h
  rw [Option.bind_eq_bind, Option.bind_eq_some_iff] at h
  obtain ⟨weight, hweight, h⟩ := h
  rw [Option.bind_eq_bind, Option.bind_eq_some_iff] at h
  obtain ⟨k, hk, -⟩ := h
  exact ⟨id, weight, hid, hweight, by rw [Kind.ofValues, hk]; rfl⟩

namespace Head

/-- The head of a node does not depend on the other members. -/
theorem change (head : Head values id weight k)
    (others : ∀ other, other ≠ name → values' other = values other)
    (h : name ∉ ["id", "weight", "type"]) : Head values' id weight k := by
  simp only [List.mem_cons, List.not_mem_nil, or_false, not_or] at h
  refine ⟨?_, ?_, ?_⟩
  · rw [others "id" (Ne.symm h.1)]
    exact head.id
  · rw [others "weight" (Ne.symm h.2.1)]
    exact head.weight
  · rw [others "type" (Ne.symm h.2.2)]
    exact head.kind

/-- A choice, by the values of its members. -/
theorem choice_iff (head : Head values id weight .choice) :
    ofValues values = some n ↔ ∃ conditions yes no,
      readOnly Conditions.ofDocument (values "conditions") = some conditions ∧
      readOnly ofDocument (values "then") = some yes ∧
      readOnly ofDocument (values "else") = some no ∧
      n = choice id weight conditions yes no := by
  simp only [ofValues, head.id, head.weight, head.kind, Option.bind_eq_bind, Option.bind_some,
    Option.pure_def, Option.bind_eq_some_iff, Option.some.injEq, exists_and_left,
    eq_comm (b := n)]

/-- A node that shares among children, by the values of its members. -/
theorem split_iff (head : Head values id weight k) (shares : ("children", Shape.nodes) ∈ k.fields) :
    ofValues values = some n ↔ ∃ rule children, k.ruleOf values = some rule ∧
      readOnly listOfDocument (values "children") = some children ∧
      n = split id weight rule children := by
  cases k with
  | choice | asset | unknown => exact absurd shares (by decide)
  | root | group | equal | specified | inverseVolatility | filter =>
    simp only [ofValues, head.id, head.weight, head.kind, Option.bind_eq_bind, Option.bind_some,
      Option.pure_def, Option.bind_eq_some_iff, Option.some.injEq, exists_and_left,
      eq_comm (b := n)]

end Head

theorem readsThrough_then (kind : Kind.ofValues values = .choice) (h : ofValues values = some n) :
    ∃ f : Frame Float, f.index = 0 ∧ ReadsThrough values "then" ofDocument f.fill n := by
  obtain ⟨id, weight, head⟩ := exists_head h
  rw [kind] at head
  obtain ⟨conditions, yes, no, hc, hy, hn, rfl⟩ := head.choice_iff.1 h
  refine ⟨.yes id weight conditions no, rfl, ⟨yes, hy, rfl⟩, fun {values' yes'} others hy' => ?_⟩
  rw [← others "conditions" (by decide)] at hc
  rw [← others "else" (by decide)] at hn
  exact (head.change others (by decide)).choice_iff.2 ⟨conditions, yes', no, hc, hy', hn, rfl⟩

theorem readsThrough_else (kind : Kind.ofValues values = .choice) (h : ofValues values = some n) :
    ∃ f : Frame Float, f.index = 1 ∧ ReadsThrough values "else" ofDocument f.fill n := by
  obtain ⟨id, weight, head⟩ := exists_head h
  rw [kind] at head
  obtain ⟨conditions, yes, no, hc, hy, hn, rfl⟩ := head.choice_iff.1 h
  refine ⟨.no id weight conditions yes, rfl, ⟨no, hn, rfl⟩, fun {values' no'} others hn' => ?_⟩
  rw [← others "conditions" (by decide)] at hc
  rw [← others "then" (by decide)] at hy
  exact (head.change others (by decide)).choice_iff.2 ⟨conditions, yes, no', hc, hy, hn', rfl⟩

theorem ruleOf_eq (k : Kind)
    (others : ∀ other, other ≠ "children" → values' other = values other) :
    k.ruleOf values' = k.ruleOf values := by
  cases k with
  | root | equal | specified | choice | asset | unknown => rfl
  | group => rw [Kind.ruleOf, Kind.ruleOf, others "name" (by decide)]
  | inverseVolatility => rw [Kind.ruleOf, Kind.ruleOf, others "window" (by decide)]
  | filter =>
    rw [Kind.ruleOf, Kind.ruleOf, others "sort" (by decide), others "select" (by decide),
      others "count" (by decide)]

theorem readsThrough_children (shares : ("children", Shape.nodes) ∈ (Kind.ofValues values).fields)
    (h : ofValues values = some n) : ∃ id weight rule,
      ReadsThrough values "children" listOfDocument (split id weight rule) n := by
  obtain ⟨id, weight, head⟩ := exists_head h
  obtain ⟨rule, cs, hr, hcs, rfl⟩ := (head.split_iff shares).1 h
  refine ⟨id, weight, rule, ⟨cs, hcs, rfl⟩, fun {values' cs'} others hcs' => ?_⟩
  rw [← ruleOf_eq _ others] at hr
  exact ((head.change others (by decide)).split_iff shares).2 ⟨rule, cs', hr, hcs', rfl⟩

/-! ## Nodes by one of their parts -/

theorem allNamed_middle (before after : List (Option String × Document)) (name : String)
    (d d' : Document) : allNamed (before ++ (some name, d) :: after) =
      allNamed (before ++ (some name, d') :: after) := by
  simp only [allNamed, List.all_append, List.all_cons]

/-- A node and the value of one of its members: another value goes into the same node. -/
theorem exists_fill {β : Type} {read : Document → Option β} {fill : β → Node Float}
    {before after : List (Option String × Document)} {name : String} {d : Document}
    (through : ReadsThrough (valuesAt (before ++ (some name, d) :: after)) name read fill n)
    (named : allNamed (before ++ (some name, d) :: after) = true) :
    ∃ b, read d = some b ∧ n = fill b ∧ ∀ d' b', read d' = some b' →
      ofDocument (.object (before ++ (some name, d') :: after)) = some (fill b') := by
  obtain ⟨b, hb, rfl⟩ := through.value
  rw [valuesAt_middle, readOnly_middle] at hb
  obtain ⟨nothing, nothing', hb⟩ := hb
  refine ⟨b, hb, rfl, fun d' b' hb' => ?_⟩
  rw [ofDocument_object, allNamed_middle before after name d' d, if_pos named]
  refine through.change (fun other h => ?_) ?_
  · exact valuesAt_replace (fun e => h (Option.some.inj e).symm) before after d' d
  · rw [valuesAt_middle, readOnly_middle]
    exact ⟨nothing, nothing', hb'⟩

/-- A list of nodes and one of its items: another item goes into the same place. -/
theorem exists_insert {ds es : List Document} {d : Document} {cs : List (Node Float)}
    (h : (ds ++ d :: es).mapM ofDocument = some cs) : ∃ before c after,
      before.length = ds.length ∧ ofDocument d = some c ∧ cs = before ++ c :: after ∧
      ∀ d' c', ofDocument d' = some c' →
        (ds ++ d' :: es).mapM ofDocument = some (before ++ c' :: after) := by
  induction ds generalizing cs with
  | nil =>
    rw [List.nil_append, List.mapM_cons] at h
    simp only [Option.bind_eq_bind, Option.bind_eq_some_iff, Option.pure_def,
      Option.some.injEq] at h
    obtain ⟨c, hc, after, hafter, rfl⟩ := h
    refine ⟨[], c, after, rfl, hc, rfl, fun d' c' hc' => ?_⟩
    rw [List.nil_append, List.mapM_cons, hc', hafter]
    rfl
  | cons e ds ih =>
    rw [List.cons_append, List.mapM_cons] at h
    simp only [Option.bind_eq_bind, Option.bind_eq_some_iff, Option.pure_def,
      Option.some.injEq] at h
    obtain ⟨a, ha, cs, hcs, rfl⟩ := h
    obtain ⟨before, c, after, length, hc, rfl, other⟩ := ih hcs
    refine ⟨a :: before, c, after, congrArg (· + 1) length, hc, rfl, fun d' c' hc' => ?_⟩
    rw [List.cons_append, List.mapM_cons, ha, other d' c' hc']
    rfl

end Node

/-! ## Replacing a node -/

/-- The second document is the first one with `new` in place of the node `old`. The path leads to
that place; the whole stands within `level` arrays and objects. -/
inductive Replaced (old new : Document) : Nat → List Nat → Document → Document → Prop
  | here {level : Nat} (passable : new.Passable level) : Replaced old new level [] old new
  | yes {level : Nat} {path : List Nat} {before after : List (Option String × Document)}
    {d d' : Document}
    (kind : Kind.ofValues (valuesAt (before ++ (some "then", d) :: after)) = .choice)
    (h : Replaced old new (level + 1) path d d') :
    Replaced old new level (0 :: path) (.object (before ++ (some "then", d) :: after))
      (.object (before ++ (some "then", d') :: after))
  | no {level : Nat} {path : List Nat} {before after : List (Option String × Document)}
    {d d' : Document}
    (kind : Kind.ofValues (valuesAt (before ++ (some "else", d) :: after)) = .choice)
    (h : Replaced old new (level + 1) path d d') :
    Replaced old new level (1 :: path) (.object (before ++ (some "else", d) :: after))
      (.object (before ++ (some "else", d') :: after))
  | child {level : Nat} {path : List Nat} {before after : List (Option String × Document)}
    {ds es : List Document} {d d' : Document}
    (shares : ("children", .nodes) ∈ (Kind.ofValues
      (valuesAt (before ++ (some "children", .array (ds ++ d :: es)) :: after))).fields)
    (h : Replaced old new (level + 2) path d d') :
    Replaced old new level (ds.length :: path)
      (.object (before ++ (some "children", .array (ds ++ d :: es)) :: after))
      (.object (before ++ (some "children", .array (ds ++ d' :: es)) :: after))

namespace Replaced

variable {old new d d' : Document} {level : Nat} {path : List Nat}

/-- What a document with another node in one place is read as. -/
theorem ofDocument (h : Replaced old new level path d d') {n : Node Float}
    (hd : Node.ofDocument d = some n) : ∃ frames m, frames.map Node.Frame.index = path ∧
      Node.ofDocument old = some m ∧ n = Node.plug frames m ∧ ∀ u, Node.ofDocument new = some u →
        Node.ofDocument d' = some (Node.plug frames u) := by
  -- along the path, what surrounds the place at each step is read as one frame more
  induction h generalizing n with
  | here passable => exact ⟨[], n, rfl, hd, rfl, fun u hu => hu⟩
  | yes kind h ih =>
    rw [Node.ofDocument_object, Option.ite_none_right_eq_some] at hd
    obtain ⟨f, index, through⟩ := Node.readsThrough_then kind hd.2
    obtain ⟨c, hc, rfl, other⟩ := Node.exists_fill through hd.1
    obtain ⟨frames, m, rfl, hm, rfl, inside⟩ := ih hc
    exact ⟨f :: frames, m, by rw [List.map_cons, index], hm, rfl,
      fun u hu => other _ _ (inside u hu)⟩
  | no kind h ih =>
    rw [Node.ofDocument_object, Option.ite_none_right_eq_some] at hd
    obtain ⟨f, index, through⟩ := Node.readsThrough_else kind hd.2
    obtain ⟨c, hc, rfl, other⟩ := Node.exists_fill through hd.1
    obtain ⟨frames, m, rfl, hm, rfl, inside⟩ := ih hc
    exact ⟨f :: frames, m, by rw [List.map_cons, index], hm, rfl,
      fun u hu => other _ _ (inside u hu)⟩
  | child shares h ih =>
    rw [Node.ofDocument_object, Option.ite_none_right_eq_some] at hd
    obtain ⟨id, weight, rule, through⟩ := Node.readsThrough_children shares hd.2
    obtain ⟨cs, hcs, rfl, other⟩ := Node.exists_fill through hd.1
    rw [Node.listOfDocument, Node.listOfItems_eq_mapM] at hcs
    obtain ⟨before, c, after, length, hc, rfl, another⟩ := Node.exists_insert hcs
    obtain ⟨frames, m, rfl, hm, rfl, inside⟩ := ih hc
    refine ⟨.among id weight rule before after :: frames, m, ?_, hm, rfl, fun u hu => ?_⟩
    · rw [List.map_cons, ← length]
      rfl
    · refine other _ _ ?_
      rw [Node.listOfDocument, Node.listOfItems_eq_mapM]
      exact another _ _ (inside u hu)

theorem passable (h : Replaced old new level path d d') (hd : d.Passable level) :
    d'.Passable level := by
  induction h with
  | here passable => exact passable
  | yes kind h ih | no kind h ih =>
    rw [Passable.object_iff, List.forall_mem_append, List.forall_mem_cons] at hd ⊢
    exact ⟨hd.1, hd.2.1, ⟨rfl, ih hd.2.2.1.2⟩, hd.2.2.2⟩
  | child shares h ih =>
    rw [Passable.object_iff, List.forall_mem_append, List.forall_mem_cons, Passable.array_iff,
      List.forall_mem_append, List.forall_mem_cons] at hd ⊢
    obtain ⟨room, hbefore, ⟨-, room', hds, hd, hes⟩, hafter⟩ := hd
    exact ⟨room, hbefore, ⟨rfl, room', hds, ih hd, hes⟩, hafter⟩

/-- The other node may be passed over where it stands. -/
theorem exists_passable (h : Replaced old new level path d d') : ∃ level', new.Passable level' := by
  induction h with
  | here passable => exact ⟨_, passable⟩
  | yes _ _ ih | no _ _ ih | child _ _ ih => exact ih

/-- A strategy is read from a document with another node in one place, if that is read as a node. -/
theorem readWithin (h : Replaced old new level path d d') {n n' : Node Float}
    (hd : Node.readWithin level d = some n) (hd' : Node.ofDocument d' = some n') :
    Node.readWithin level d' = some n' := by
  cases h with
  | here passable =>
    cases new with
    | object ms =>
      rw [Node.readWithin_of_isSound passable.1 passable.2]
      exact hd'
    | null | bool | number | string | array => cases hd'
  | yes _ h | no _ h =>
    rw [Node.readWithin_object, List.forall_mem_append, List.forall_mem_cons] at hd ⊢
    exact ⟨hd', hd.2.1, Node.memberIsReadable_imp h.passable hd.2.2.1, hd.2.2.2⟩
  | @child level path before after ds es d d' shares h =>
    have items : Passable (level + 1) (.array (ds ++ d :: es)) →
        Passable (level + 1) (.array (ds ++ d' :: es)) := fun hd => by
      rw [Passable.array_iff, List.forall_mem_append, List.forall_mem_cons] at hd ⊢
      exact ⟨hd.1, hd.2.1, h.passable hd.2.2.1, hd.2.2.2⟩
    rw [Node.readWithin_object, List.forall_mem_append, List.forall_mem_cons] at hd ⊢
    exact ⟨hd', hd.2.1, Node.memberIsReadable_imp items hd.2.2.1, hd.2.2.2⟩

end Replaced

/-! ## Nodes of new kinds -/

/-- An object with an id, with a weight or without one, and with a `type` that is not known. -/
inductive Document.OfNewKind (id : String) (weight : Option Fraction) : Document → Prop
  | object {ms : List (Option String × Document)} {word : String}
    (hid : readOnly toText? (valuesAt ms "id") = some id)
    (hweight : readNullable Fraction.ofDocument (valuesAt ms "weight") = some weight)
    (htype : readOnly toText? (valuesAt ms "type") = some word)
    (new : word ∉ Kind.all.map Kind.name) : OfNewKind id weight (.object ms)

/-- A word that is not known stands for the kind of unknown nodes. -/
theorem Kind.ofName_eq_unknown {word : String} (h : word ∉ all.map name) :
    ofName word = unknown := by
  have missing : all.find? (fun k => k.name == word) = none :=
    List.find?_eq_none.2 fun k hk e => h (List.mem_map.2 ⟨k, hk, beq_iff_eq.1 e⟩)
  rw [ofName, missing]
  rfl

theorem Document.OfNewKind.ofDocument {id : String} {weight : Option Fraction} {d : Document}
    {level : Nat} (h : d.OfNewKind id weight) (passable : d.Passable level) :
    Node.ofDocument d = some (.unknown id weight) := by
  obtain @⟨ms, word, hid, hweight, htype, new⟩ := h
  have named : allNamed ms = true :=
    List.all_eq_true.2 fun m hm => ((Passable.object_iff.1 passable).2 m hm).1
  obtain ⟨e, he, text⟩ := readOnly_eq_some.1 htype
  have kind : readOnly Kind.ofDocument (valuesAt ms "type") = some .unknown := by
    rw [he, readOnly]
    cases e with
    | string s =>
      obtain rfl : s = some word := text
      exact congrArg some (Kind.ofName_eq_unknown new)
    | null | bool | number | array | object => cases text
  rw [Node.ofDocument_object, if_pos named, Node.ofValues, hid, hweight, kind]
  rfl

/-- **Main theorem: newer documents still load.** A strategy is read from a document as before, when
members are put into another order or members of unknown names are added, anywhere and any number of
times. With an object of the same id and a new kind in place of a node, the tree has an unknown node
in that place and is the same everywhere else. -/
theorem Node.readWithin_newer {level : Nat} {d : Document} {n : Node Float}
    (h : readWithin level d = some n) :
    (∀ d', Relation.ReflTransGen (Revision level .node) d d' → readWithin level d' = some n) ∧
      ∀ old new path d', Replaced old new level path d d' → ∃ frames m,
        frames.map Frame.index = path ∧ ofDocument old = some m ∧ n = plug frames m ∧
        ∀ weight, new.OfNewKind m.id weight →
          readWithin level d' = some (plug frames (.unknown m.id weight)) := by
  refine ⟨fun d' revised => readWithin_revisions revised h, fun old new path d' replaced => ?_⟩
  obtain ⟨frames, m, index, hm, tree, other⟩ := replaced.ofDocument (ofDocument_of_readWithin h)
  obtain ⟨level', passable⟩ := replaced.exists_passable
  refine ⟨frames, m, index, hm, tree, fun weight kind => ?_⟩
  exact replaced.readWithin h (other _ (kind.ofDocument passable))

/-- A number that is too large for a double. -/
def tenTo999 : Number := .fraction false ⟨['1'], [], some 999⟩

theorem toFloat?_tenTo999 : tenTo999.toFloat? = none := by
  have leading : Number.leading tenTo999.layout = ⟨1, 999⟩ := by decide
  unfold Number.toFloat?
  rw [leading]
  dsimp only
  rw [Number.scale?, if_neg (by decide), if_neg (by decide +kernel), if_neg (by decide)]
  rfl

/-- A document is not read if some member of it is neither sound nor part of the node. -/
theorem Node.readWithin_eq_none {level : Nat} {members : List (Option String × Document)}
    {m : Option String × Document} (hm : m ∈ members)
    (h : memberIsReadable (level + 1) m = false) : readWithin level (.object members) = none := by
  refine if_neg fun all => ?_
  rw [List.all_eq_true.1 all m hm] at h
  cases h

/-- What is passed over must still have a text if it is a string and a double if it is a number, and
a weight must be readable. With a string or a number that has none under a new name, nothing is
read; nor is a node of a new kind whose weight is a word. -/
theorem Node.readWithin_unreadable :
    let members := [(some "id", text "stocks"), (some "type", text "asset"),
      (some "ticker", text "SPY")]
    let heavy := [("id", text "stocks"), ("type", text "bond-ladder"), ("weight", text "heavy")]
    Node.readWithin 0 (.object members) = some (.asset "stocks" none "SPY") ∧
      "note" ∉ (Shape.node.fields (valuesAt members)).map Prod.fst ∧
      (string none).depth + 1 ≤ nestingLimit ∧
      Node.readWithin 0 (.object (members ++ [(some "note", string none)])) = none ∧
      (Number.read "1e999".toList = some tenTo999 ∧
        (number tenTo999).depth + 1 ≤ nestingLimit ∧
        Node.readWithin 0 (.object (members ++ [(some "note", number tenTo999)])) = none) ∧
      "bond-ladder" ∉ Kind.all.map Kind.name ∧
      Node.readWithin 0 (record heavy) = none := by
  intro members heavy
  have unsound : memberIsReadable 1 (some "note", number tenTo999) = false := by
    simp only [memberIsReadable, isSound, toFloat?_tenTo999]
    decide
  have huge : (some "note", number tenTo999) ∈ members ++ [(some "note", number tenTo999)] :=
    List.mem_append_right members List.mem_cons_self
  exact ⟨rfl, by decide, by decide, rfl, ⟨by decide, by decide, readWithin_eq_none huge unsound⟩,
    by decide, rfl⟩

/-- The members of a choice of which the left indicator has more members than are known, and of
which the second of two shares is a given document. -/
def twoShares (more : List (String × Document)) (second : Document) : List (String × Document) :=
  [("id", text "way"), ("type", text "if-then-else"),
    ("conditions", record [("mode", text "any-of"), ("items", array [record [
      ("lhs", record ([("ticker", text "SPY"), ("function", text "cumulative-return"),
        ("window", nat 5)] ++ more)),
      ("comparator", text "gt"),
      ("rhs", record [("ticker", text "TLT"), ("function", text "max-drawdown"),
        ("window", nat 20)])]])]),
    ("then", record [("id", text "both"), ("type", text "weight-cash-equal"), ("children", array [
      record [("id", text "stocks"), ("type", text "asset"), ("ticker", text "SPY")], second])]),
    ("else", record [("id", text "cash"), ("type", text "asset"), ("ticker", text "BIL")])]

/-- The tree of such a document. -/
def twoSharesTree (second : Node Float) : Node Float :=
  .choice "way" none
    ⟨.any, [⟨⟨"SPY", .cumulativeReturn, 5⟩, .greater, .indicator ⟨"TLT", .maxDrawdown, 20⟩⟩]⟩
    (.split "both" none .equal [.asset "stocks" none "SPY", second]) (.asset "cash" none "BIL")

theorem Node.readWithin_newer_twoShares :
    let bonds := record [("id", text "bonds"), ("type", text "asset"), ("ticker", text "TLT")]
    let ladder := record [("type", text "bond-ladder"), ("id", text "bonds"), ("rungs", text "ten")]
    let tree := twoSharesTree (.asset "bonds" none "TLT")
    Node.readWithin 0 (record (twoShares [] bonds)) = some tree ∧
      Node.readWithin 0 (record (twoShares [("note", array [text "new"])] bonds).reverse) =
        some tree ∧
      ∃ frames, frames.map Frame.index = [0, 1] ∧ tree = plug frames (.asset "bonds" none "TLT") ∧
        Node.readWithin 0 (record (twoShares [] ladder)) =
          some (plug frames (.unknown "bonds" none)) := by
  intro bonds ladder tree
  have stored := Node.stores_toDocument (n := tree) (by decide +kernel) (by decide +kernel)
  have written : Node.readWithin 0 (record (twoShares [] bonds)) = some tree :=
    (Node.readWithin_of_isSound stored.legible.isSound (by decide +kernel)).trans stored.reads
  have note : (array [text "new"]).Passable 5 := ⟨by decide, by decide⟩
  have added : Revision 0 .node (record (twoShares [] bonds))
      (record (twoShares [("note", array [text "new"])] bonds)) :=
    @Revision.field 0 .node .conditions [_, _] [_, _] "conditions" _ _ (by decide)
      (@Revision.field 1 .conditions .items [_] [] "items" _ _ (by decide)
        (@Revision.item 2 .items [] [] _ _
          (@Revision.field 3 .condition .indicator [] [_, _] "lhs" _ _ (by decide)
            (@Revision.add 4 .indicator [_, _, _] [] "note" _ (by decide) (by decide) note))))
  have turned : Revision 0 .node (record (twoShares [("note", array [text "new"])] bonds))
      (record (twoShares [("note", array [text "new"])] bonds).reverse) :=
    .reorder ((List.reverse_perm _).symm.map _)
  have kind : ladder.OfNewKind "bonds" none := .object rfl rfl rfl (by decide)
  have replaced : Replaced bonds ladder 0 [0, 1] (record (twoShares [] bonds))
      (record (twoShares [] ladder)) :=
    @Replaced.yes _ _ 0 [1] [_, _, _] [_] _ _ (by decide)
      (@Replaced.child _ _ 1 [] [_, _] [] [_] [] _ _ (by decide)
        (.here ⟨by decide, by decide⟩))
  refine ⟨written, (readWithin_newer written).1 _ (.tail (.single added) turned), ?_⟩
  obtain ⟨frames, m, index, hm, e, other⟩ := (readWithin_newer written).2 _ _ _ _ replaced
  obtain rfl : .asset "bonds" none "TLT" = m := Option.some.inj hm
  exact ⟨frames, index, e, other none kind⟩

end StrategyTree
