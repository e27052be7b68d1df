import Mathlib.Data.List.Nodup
import StrategyTree.Proofs.Tree.Members

/-!
# Documents that are read alike

What a document is read as, its `Shape`, is settled by where it stands: a weight under the name
`weight` of a node, an array of conditions under the name `items` of the conditions of a choice, and
so on. Which names count in an object depends on its shape, and in a node on the kind that its
`type` says. Two documents `Agree` if they are read alike as a shape, and documents whose parts that
count agree do so themselves.

* `Shape.fields`, `Shape.item`: the names that count in an object and the items of an array, each
  with its shape.
* `Shape.agree_object`: objects whose members that count are read alike.
* `Shape.agree_array`: arrays of which one item is read alike.
-/

namespace StrategyTree

open Document

/-! ## Shapes -/

/-- What a document is read as. -/
inductive Shape where
  | node
  | nodes
  | weight
  | ranking
  | conditions
  | items
  | condition
  | indicator
  | other
  deriving DecidableEq

/-- The names that count in a node of a kind. -/
def Kind.fields (k : Kind) : List (String × Shape) :=
  [("id", .other), ("weight", .weight), ("type", .other)] ++
    match k with
    | .root | .equal | .specified => [("children", .nodes)]
    | .group => [("name", .other), ("children", .nodes)]
    | .inverseVolatility => [("window", .other), ("children", .nodes)]
    | .filter =>
      [("sort", .ranking), ("select", .other), ("count", .other), ("children", .nodes)]
    | .choice => [("conditions", .conditions), ("then", .node), ("else", .node)]
    | .asset => [("ticker", .other)]
    | .unknown => []

/-- The kind of a node with the given values; without a readable `type` nothing counts. -/
def Kind.ofValues (values : String → List Document) : Kind :=
  (readOnly Kind.ofDocument (values "type")).getD .unknown

namespace Shape

/-- The parts of a record, in the order in which an array has them. -/
def parts : Shape → List (String × Shape)
  | weight => [("numerator", other), ("denominator", other)]
  | ranking => [("function", other), ("window", other)]
  | conditions => [("mode", other), ("items", items)]
  | condition => [("lhs", indicator), ("comparator", other), ("rhs", indicator)]
  | indicator => [("ticker", other), ("function", other), ("window", other)]
  | node | nodes | items | other => []

/-- The names that count in an object with the given values. -/
def fields (s : Shape) (values : String → List Document) : List (String × Shape) :=
  match s with
  | node => (Kind.ofValues values).fields
  | s => s.parts

/-- The shape of the item at an index of an array. -/
def item (s : Shape) (index : Nat) : Shape :=
  match s with
  | nodes => node
  | items => condition
  | s => (s.parts[index]?.map Prod.snd).getD other

/-- Whether objects of a shape have members that count. -/
def isRecord : Shape → Bool
  | node | weight | ranking | conditions | condition | indicator => true
  | nodes | items | other => false

theorem nodup_fields (s : Shape) (values : String → List Document) :
    ((s.fields values).map Prod.fst).Nodup := by
  cases s with
  | node =>
    have kinds : ∀ k : Kind, (k.fields.map Prod.fst).Nodup := fun k => by cases k <;> decide
    exact kinds _
  | _ => simp only [fields]; decide

/-- A name that counts has one shape. -/
theorem eq_of_mem_fields {s : Shape} {values : String → List Document} {f g : String × Shape}
    (hf : f ∈ s.fields values) (hg : g ∈ s.fields values) (h : f.1 = g.1) : f = g :=
  List.inj_on_of_nodup_map (s.nodup_fields values) hf hg h

end Shape

/-! ## Documents that are read alike -/

/-- The conditions of an array of conditions. -/
def Condition.listOfDocument : Document → Option (List (Condition Float))
  | .array items => items.mapM Condition.ofDocument
  | _ => none

/-- The conditions of a choice, by their mode and their array. -/
theorem Conditions.ofDocument_eq (d : Document) :
    Conditions.ofDocument d = (d.parts ["mode", "items"]).bind fun
      | [m, items] => do
        return ⟨← Quantifier.ofDocument m, ← Condition.listOfDocument items⟩
      | _ => none := by
  rw [Conditions.ofDocument]
  refine congrArg (Option.bind _) (funext fun parts => ?_)
  match parts with
  | [m, .array items] => rfl
  | [m, .null] | [m, .bool _] | [m, .number _] | [m, .string _] | [m, .object _] =>
    exact (Option.bind_fun_none _).symm
  | [] | [_] => rfl
  | _ :: e :: _ :: _ => cases e <;> rfl

namespace Shape

/-- Both documents are read alike as something without parts. -/
structure SameLeaf (d d' : Document) : Prop where
  empty : d = .object [] ↔ d' = .object []
  word : d.word = d'.word
  text : d.toText? = d'.toText?
  nat (limit : Nat) : d.toNat? limit = d'.toNat? limit
  kind : Kind.ofDocument d = Kind.ofDocument d'

/-- Both documents are read alike, as a shape. -/
def SameReading : Shape → Document → Document → Prop
  | node, d, d' => Node.ofDocument d = Node.ofDocument d'
  | nodes, d, d' => Node.listOfDocument d = Node.listOfDocument d'
  | weight, d, d' => Fraction.ofDocument d = Fraction.ofDocument d'
  | ranking, d, d' => Ranking.ofDocument d = Ranking.ofDocument d'
  | conditions, d, d' => Conditions.ofDocument d = Conditions.ofDocument d'
  | items, d, d' => Condition.listOfDocument d = Condition.listOfDocument d'
  | condition, d, d' => Condition.ofDocument d = Condition.ofDocument d'
  | indicator, d, d' => Indicator.Key.ofDocument d = Indicator.Key.ofDocument d' ∧
      Operand.ofDocument d = Operand.ofDocument d'
  | other, d, d' => SameLeaf d d'

/-- Both documents are read alike, as a shape and as something that may be `null`. -/
structure Agree (s : Shape) (d d' : Document) : Prop where
  null : d = .null ↔ d' = .null
  reading : s.SameReading d d'

theorem Agree.refl (s : Shape) (d : Document) : s.Agree d d := by
  refine ⟨Iff.rfl, ?_⟩
  cases s with
  | indicator => exact ⟨rfl, rfl⟩
  | other => exact ⟨Iff.rfl, rfl, rfl, fun _ => rfl, rfl⟩
  | _ => exact rfl

theorem Agree.leaf {d d' : Document} (h : other.Agree d d') : SameLeaf d d' := h.reading

/-- The values under a name are read alike: there is none, there is one, or there are too many. -/
inductive SameValues (s : Shape) : List Document → List Document → Prop
  | missing : SameValues s [] []
  | single {d d' : Document} (h : s.Agree d d') : SameValues s [d] [d']
  | repeated {d e d' e' : Document} {ds ds' : List Document} :
    SameValues s (d :: e :: ds) (d' :: e' :: ds')

namespace SameValues

variable {s : Shape} {ds ds' : List Document}

theorem of_perm (h : ds.Perm ds') : SameValues s ds ds' := by
  match ds, ds', h with
  | [], _, h =>
    obtain rfl := List.nil_perm.1 h
    exact missing
  | [d], _, h =>
    obtain rfl := List.perm_singleton.1 h.symm
    exact single (Agree.refl s d)
  | _ :: _ :: _, [], h => exact absurd h.length_eq (by simp)
  | _ :: _ :: _, [_], h => exact absurd h.length_eq (by simp)
  | _ :: _ :: _, _ :: _ :: _, _ => exact repeated

theorem append_cons {d d' : Document} (h : s.Agree d d') (before after : List Document) :
    SameValues s (before ++ d :: after) (before ++ d' :: after) := by
  match before, after with
  | [], [] => exact single h
  | [], _ :: _ => exact repeated
  | [_], _ => exact repeated
  | _ :: _ :: _, _ => exact repeated

theorem readOnly_eq {β : Type} {read : Document → Option β} (h : SameValues s ds ds')
    (hr : ∀ d d', s.Agree d d' → read d = read d') : readOnly read ds = readOnly read ds' := by
  cases h with
  | missing => rfl
  | single h => exact hr _ _ h
  | repeated => rfl

theorem readNullable_eq {β : Type} {read : Document → Option β} (h : SameValues s ds ds')
    (hr : ∀ d d', s.Agree d d' → read d = read d') :
    readNullable read ds = readNullable read ds' := by
  cases h with
  | missing => rfl
  | @single d d' h =>
    by_cases hd : d = .null
    · rw [hd, h.null.1 hd]
    · have one : ∀ {d}, d ≠ .null → readNullable read [d] = (read d).map some := fun {d} hd => by
        cases d <;> first | rfl | exact absurd rfl hd
      rw [one hd, one fun e => hd (h.null.2 e), hr _ _ h]
  | @repeated d e d' e' ds ds' => cases d <;> cases d' <;> rfl

end SameValues

/-! ## Records -/

/-- The parts of two records are read alike, each as its own shape. -/
inductive SameParts : List Shape → List Document → List Document → Prop
  | nil : SameParts [] [] []
  | cons {s : Shape} {ss : List Shape} {d d' : Document} {ds ds' : List Document}
    (h : s.Agree d d') (rest : SameParts ss ds ds') : SameParts (s :: ss) (d :: ds) (d' :: ds')

theorem SameParts.refl {ss : List Shape} {ds : List Document} (h : ds.length = ss.length) :
    SameParts ss ds ds := by
  induction ss generalizing ds with
  | nil =>
    rw [List.length_eq_zero_iff.1 h]
    exact nil
  | cons s ss ih =>
    cases ds with
    | nil => cases h
    | cons d ds => exact cons (Agree.refl s d) (ih (Nat.succ.inj h))

/-- One part is read alike, and the others are the same. -/
theorem SameParts.append_cons {ss : List Shape} {before after : List Document} {d d' : Document}
    (length : (before ++ d :: after).length = ss.length)
    (h : (ss[before.length]?.getD .other).Agree d d') :
    SameParts ss (before ++ d :: after) (before ++ d' :: after) := by
  induction before generalizing ss with
  | nil =>
    cases ss with
    | nil => cases length
    | cons s ss => exact cons h (refl (Nat.succ.inj length))
  | cons e before ih =>
    cases ss with
    | nil => cases length
    | cons s ss => exact cons (Agree.refl s e) (ih (Nat.succ.inj length) h)

/-- The parts of two objects are read alike if the values under their names are. -/
theorem sameParts_mapM {values values' : String → List Document} {fields : List (String × Shape)}
    (h : ∀ f ∈ fields, f.2.SameValues (values f.1) (values' f.1)) :
    Option.Rel (SameParts (fields.map Prod.snd))
      ((fields.map Prod.fst).mapM fun name => readOnly some (values name))
      ((fields.map Prod.fst).mapM fun name => readOnly some (values' name)) := by
  induction fields with
  | nil => exact .some .nil
  | cons f fields ih =>
    rw [List.forall_mem_cons] at h
    rw [List.map_cons, List.map_cons, List.mapM_cons, List.mapM_cons]
    have first := h.1
    have rest := ih h.2
    generalize values f.1 = ds at first ⊢
    generalize values' f.1 = ds' at first ⊢
    generalize (fields.map Prod.fst).mapM (fun name => readOnly some (values name)) = ps at rest ⊢
    generalize (fields.map Prod.fst).mapM (fun name => readOnly some (values' name)) = ps' at rest ⊢
    cases first with
    | missing | repeated => exact .none
    | single first =>
      cases rest with
      | none => exact .none
      | some rest => exact .some (.cons first rest)

/-- What is read from the parts of two records is the same if it is the same for parts that are read
alike. -/
theorem bind_parts_eq {β : Type} {ss : List Shape} {names : List String} {d d' : Document}
    (h : Option.Rel (SameParts ss) (d.parts names) (d'.parts names))
    {read : List Document → Option β}
    (same : ∀ {ps ps'}, SameParts ss ps ps' → read ps = read ps') :
    (d.parts names).bind read = (d'.parts names).bind read := by
  generalize d.parts names = ps at h ⊢
  generalize d'.parts names = ps' at h ⊢
  cases h with
  | none => rfl
  | some h => exact same h

/-- A weight, a ranking, an indicator, a condition or the conditions of a choice are read from their
parts. -/
theorem sameReading_of_parts {s : Shape} {d d' : Document} (record : s.parts ≠ [])
    (operand : Operand.ofDocument d = (Indicator.Key.ofDocument d).map .indicator)
    (operand' : Operand.ofDocument d' = (Indicator.Key.ofDocument d').map .indicator)
    (h : Option.Rel (SameParts (s.parts.map Prod.snd)) (d.parts (s.parts.map Prod.fst))
      (d'.parts (s.parts.map Prod.fst))) : s.SameReading d d' := by
  cases s with
  | node | nodes | items | other => exact absurd rfl record
  | weight =>
    refine bind_parts_eq h fun h => ?_
    obtain - | ⟨n, - | ⟨m, - | _⟩⟩ := h
    simp only [n.leaf.nat, m.leaf.nat]
  | ranking =>
    refine bind_parts_eq h fun h => ?_
    obtain - | ⟨f, - | ⟨w, - | _⟩⟩ := h
    simp only [ReturnStatistic.ofDocument, f.leaf.text, w.leaf.nat]
  | conditions =>
    rw [SameReading, Conditions.ofDocument_eq, Conditions.ofDocument_eq]
    refine bind_parts_eq h fun h => ?_
    obtain - | ⟨m, - | ⟨is, - | _⟩⟩ := h
    have list : Condition.listOfDocument _ = Condition.listOfDocument _ := is.reading
    simp only [Quantifier.ofDocument, m.leaf.word, list]
  | condition =>
    refine bind_parts_eq h fun h => ?_
    obtain - | ⟨l, - | ⟨c, - | ⟨r, - | _⟩⟩⟩ := h
    simp only [l.reading.1, Comparator.ofDocument, c.leaf.word, r.reading.2]
  | indicator =>
    have key : Indicator.Key.ofDocument d = Indicator.Key.ofDocument d' := by
      refine bind_parts_eq h fun h => ?_
      obtain - | ⟨t, - | ⟨f, - | ⟨w, - | _⟩⟩⟩ := h
      simp only [t.leaf.text, Indicator.Function.ofDocument, f.leaf.text, w.leaf.nat]
    exact ⟨key, by rw [operand, operand', key]⟩

/-! ## Nodes -/

/-- A node is read from the values of the members that count in it. -/
theorem ofValues_eq {values values' : String → List Document}
    (h : ∀ f ∈ (Kind.ofValues values).fields, f.2.SameValues (values f.1) (values' f.1)) :
    Node.ofValues values = Node.ofValues values' := by
  have head := List.forall_mem_append.1 h
  simp only [List.forall_mem_cons] at head
  obtain ⟨⟨id, weight, type, -⟩, -⟩ := head
  have kind := type.readOnly_eq fun _ _ h => h.leaf.kind
  rw [Node.ofValues, Node.ofValues, id.readOnly_eq fun _ _ h => h.leaf.text,
    weight.readNullable_eq fun _ _ h => h.reading, ← kind]
  refine congrArg (Option.bind _) (funext fun id => ?_)
  refine congrArg (Option.bind _) (funext fun weight => ?_)
  -- which other members count is known only with the kind
  cases hk : readOnly Kind.ofDocument (values "type") with
  | none => rfl
  | some k =>
    have same : Kind.ofValues values = k := by rw [Kind.ofValues, hk]; rfl
    rw [same] at h
    have rest := (List.forall_mem_append.1 h).2
    simp only [Option.bind_eq_bind, Option.bind_some]
    cases k with
    | root | equal | specified =>
      simp only [List.forall_mem_cons] at rest
      simp only [Kind.ruleOf, rest.1.readOnly_eq fun _ _ h => h.reading]
    | group =>
      simp only [List.forall_mem_cons] at rest
      simp only [Kind.ruleOf, rest.1.readNullable_eq fun _ _ h => h.leaf.text,
        rest.2.1.readOnly_eq fun _ _ h => h.reading]
    | inverseVolatility =>
      simp only [List.forall_mem_cons] at rest
      simp only [Kind.ruleOf, rest.1.readOnly_eq fun _ _ h => h.leaf.nat _,
        rest.2.1.readOnly_eq fun _ _ h => h.reading]
    | filter =>
      simp only [List.forall_mem_cons] at rest
      obtain ⟨sort, select, count, children, -⟩ := rest
      have selection : ∀ d d', other.Agree d d' →
          Selection.ofDocument d = Selection.ofDocument d' := fun d d' h => by
        rw [Selection.ofDocument, Selection.ofDocument, h.leaf.word]
      simp only [Kind.ruleOf, sort.readOnly_eq fun _ _ h => h.reading,
        select.readOnly_eq selection, count.readOnly_eq fun _ _ h => h.leaf.nat _,
        children.readOnly_eq fun _ _ h => h.reading]
    | choice =>
      simp only [List.forall_mem_cons] at rest
      obtain ⟨conditions, yes, no, -⟩ := rest
      simp only [conditions.readOnly_eq fun _ _ h => h.reading,
        yes.readOnly_eq fun _ _ h => h.reading, no.readOnly_eq fun _ _ h => h.reading]
    | asset =>
      simp only [List.forall_mem_cons] at rest
      simp only [rest.1.readOnly_eq fun _ _ h => h.leaf.text]
    | unknown => rfl

/-! ## Objects and arrays -/

/-- Objects whose values are read alike are read alike. -/
theorem agree_object {s : Shape} {ms ms' : List (Option String × Document)}
    (named : allNamed ms = allNamed ms')
    (values : ∀ f ∈ s.fields (valuesAt ms), f.2.SameValues (valuesAt ms f.1) (valuesAt ms' f.1))
    (leaf : s = .other → SameLeaf (.object ms) (.object ms')) :
    s.Agree (.object ms) (.object ms') := by
  refine ⟨by simp only [reduceCtorEq], ?_⟩
  have record : ∀ s : Shape, s.parts ≠ [] →
      (∀ f ∈ s.parts, f.2.SameValues (valuesAt ms f.1) (valuesAt ms' f.1)) →
      s.SameReading (.object ms) (.object ms') := fun s hs values => by
    refine sameReading_of_parts hs rfl rfl ?_
    rw [parts_object, parts_object, ← named]
    split
    · exact sameParts_mapM values
    · exact .none
  cases s with
  | node =>
    rw [SameReading, Node.ofDocument_object, Node.ofDocument_object, ← named, ofValues_eq values]
  | nodes | items => rfl
  | other => exact leaf rfl
  | weight | ranking | conditions | condition | indicator =>
    exact record _ (List.cons_ne_nil _ _) values

/-- Arrays that differ in one item are read alike if the item is. -/
theorem agree_array {s : Shape} {before after : List Document} {d d' : Document}
    (h : (s.item before.length).Agree d d') :
    s.Agree (.array (before ++ d :: after)) (.array (before ++ d' :: after)) := by
  refine ⟨by simp only [reduceCtorEq], ?_⟩
  have list : ∀ {β : Type} (read : Document → Option β), read d = read d' →
      (before ++ d :: after).mapM read = (before ++ d' :: after).mapM read := fun read e => by
    rw [List.mapM_append, List.mapM_append, List.mapM_cons, List.mapM_cons, e]
  have record : ∀ s : Shape, s.parts ≠ [] →
      ((s.parts[before.length]?.map Prod.snd).getD other).Agree d d' →
      s.SameReading (.array (before ++ d :: after)) (.array (before ++ d' :: after)) :=
    fun s hs h => by
      refine sameReading_of_parts hs rfl rfl ?_
      rw [Document.parts, Document.parts, List.length_append, List.length_append, List.length_cons,
        List.length_cons]
      split
      · rename_i length
        refine .some (SameParts.append_cons ?_ ?_)
        · rw [List.length_append, List.length_cons, length, List.length_map, List.length_map]
        · rw [List.getElem?_map]
          exact h
      · exact .none
  cases s with
  | node => rfl
  | nodes =>
    rw [SameReading, Node.listOfDocument, Node.listOfDocument, Node.listOfItems_eq_mapM,
      Node.listOfItems_eq_mapM, list _ h.reading]
  | items => exact list _ h.reading
  | other => exact ⟨by simp only [reduceCtorEq], rfl, rfl, fun _ => rfl, rfl⟩
  | weight | ranking | conditions | condition | indicator =>
    exact record _ (List.cons_ne_nil _ _) h

end Shape

end StrategyTree
