import StrategyTree.Proofs.Document.Records

/-!
# Nodes read from the values of their members

What an object is read as depends on the values that stand in it under the names that count, and on
nothing else: neither on their order nor on members of other names. Here the readers are put into
that form. An object whose names are not all texts is not read at all.

* `Document.valuesAt`: the values under a name.
* `Document.parts_object`: a record, by the values under its names.
* `Node.ofDocument_object`: a node, by the values under any names.
-/

namespace StrategyTree

namespace Document

/-! ## Values under a name -/

/-- The values that stand under a name. -/
def valuesAt (members : List (Option String × Document)) (name : String) : List Document :=
  members.filterMap fun m => if m.1 = some name then some m.2 else none

/-- Whether every member has a name. -/
def allNamed (members : List (Option String × Document)) : Bool := members.all fun m => m.1.isSome

/-- Reads the only value of a list. -/
def readOnly {β : Type} (read : Document → Option β) : List Document → Option β
  | [d] => read d
  | _ => none

/-- Reads the only value of a list, if there is one and it is not `null`. -/
def readNullable {β : Type} (read : Document → Option β) : List Document → Option (Option β)
  | [] => some none
  | [null] => some none
  | [d] => (read d).map some
  | _ => none

theorem readOnly_eq_some {β : Type} {read : Document → Option β} {ds : List Document} {b : β} :
    readOnly read ds = some b ↔ ∃ d, ds = [d] ∧ read d = some b := by
  unfold readOnly
  split
  · simp
  · rename_i several
    simp only [reduceCtorEq, false_iff, not_exists, not_and]
    rintro d rfl
    exact absurd rfl (several d)

theorem valuesAt_append (ms ms' : List (Option String × Document)) (name : String) :
    valuesAt (ms ++ ms') name = valuesAt ms name ++ valuesAt ms' name := List.filterMap_append

theorem valuesAt_cons_self (name : String) (d : Document) (ms : List (Option String × Document)) :
    valuesAt ((some name, d) :: ms) name = d :: valuesAt ms name := by
  rw [valuesAt, List.filterMap_cons, if_pos rfl]
  rfl

theorem valuesAt_cons_of_ne {m : Option String × Document} {name : String} (h : m.1 ≠ some name)
    (ms : List (Option String × Document)) : valuesAt (m :: ms) name = valuesAt ms name := by
  rw [valuesAt, List.filterMap_cons, if_neg h]
  rfl

/-- The values under the name of a member. -/
theorem valuesAt_middle (before after : List (Option String × Document)) (name : String)
    (d : Document) : valuesAt (before ++ (some name, d) :: after) name =
      valuesAt before name ++ d :: valuesAt after name := by
  rw [valuesAt_append, valuesAt_cons_self]

/-- The values under other names do not depend on the value of a member. -/
theorem valuesAt_replace {name : Option String} {other : String} (h : name ≠ some other)
    (before after : List (Option String × Document)) (d d' : Document) :
    valuesAt (before ++ (name, d) :: after) other =
      valuesAt (before ++ (name, d') :: after) other := by
  rw [valuesAt_append, valuesAt_append, valuesAt_cons_of_ne h, valuesAt_cons_of_ne h]

theorem valuesAt_named (ms : List (String × Document)) (name : String) :
    valuesAt (ms.map fun m => (some m.1, m.2)) name = valuesOf name ms := by
  rw [valuesAt, List.filterMap_map, valuesOf]
  simp only [Function.comp_def, Option.some.injEq]

/-! ## Names -/

/-- Members that all have names are named members. -/
theorem exists_named {ms : List (Option String × Document)} (h : allNamed ms = true) :
    ∃ ns : List (String × Document), ms = ns.map fun m => (some m.1, m.2) := by
  induction ms with
  | nil => exact ⟨[], rfl⟩
  | cons m ms ih =>
    obtain ⟨name, d⟩ := m
    rw [allNamed, List.all_cons, Bool.and_eq_true] at h
    obtain ⟨s, rfl⟩ := Option.isSome_iff_exists.1 h.1
    obtain ⟨ns, rfl⟩ := ih h.2
    exact ⟨(s, d) :: ns, rfl⟩

theorem namedMembers_eq_none {ms : List (Option String × Document)} (h : allNamed ms = false) :
    namedMembers ms = none := by
  induction ms with
  | nil => cases h
  | cons m ms ih =>
    obtain ⟨name, d⟩ := m
    cases name with
    | none => rfl
    | some name =>
      rw [namedMembers, ih h]
      rfl

/-- The parts of an object. -/
theorem parts_object (names : List String) (ms : List (Option String × Document)) :
    (object ms).parts names =
      if allNamed ms then names.mapM fun name => readOnly some (valuesAt ms name) else none := by
  split
  · rename_i named
    obtain ⟨ns, rfl⟩ := exists_named named
    rw [parts, namedMembers_map, Option.bind_eq_bind, Option.bind_some]
    congr 1
    funext name
    rw [valuesAt_named]
    rfl
  · rename_i unnamed
    rw [parts, namedMembers_eq_none (Bool.eq_false_iff.2 unnamed)]
    rfl

end Document

open Document

/-! ## Nodes -/

namespace NodeMember

theorem filter_map_of (ms : List (String × Document)) (name : String) :
    (ms.map of).filter (fun m => m.name == name) = (ms.filter fun m => m.1 == name).map of := by
  rw [List.filter_map]
  rfl

/-- A member that must stand there is read by its value, whatever is done next. -/
theorem required_bind {β γ : Type} (read : NodeMember → Option β) (next : β → Option γ)
    (ms : List (String × Document)) (name : String) :
    ((required name (ms.map of)).bind fun m => (read m).bind next) =
      (readOnly (fun d => read (of (name, d))) (valuesOf name ms)).bind next := by
  rw [required, filter_map_of, valuesOf_eq]
  have names : ∀ m ∈ ms.filter (fun m => m.1 == name), m.1 = name := fun m hm =>
    beq_iff_eq.1 (List.mem_filter.1 hm).2
  generalize ms.filter (fun m => m.1 == name) = found at names ⊢
  cases found with
  | nil => rfl
  | cons m more =>
    obtain rfl := names m List.mem_cons_self
    cases more <;> rfl

theorem nullable_map_of {β : Type} (read : Document → Option β) (ms : List (String × Document))
    (name : String) :
    nullable read name (ms.map of) = readNullable read (valuesOf name ms) := by
  rw [nullable, optional, filter_map_of, valuesOf_eq]
  generalize ms.filter (fun m => m.1 == name) = found
  cases found with
  | nil => rfl
  | cons m more =>
    obtain ⟨name, d⟩ := m
    cases more with
    | nil => cases d <;> first | rfl | exact Option.map_eq_bind.symm
    | cons m' more => cases d <;> rfl

theorem ofObject_eq_none {ms : List (Option String × Document)} (h : allNamed ms = false) :
    ofObject ms = none := by
  induction ms with
  | nil => cases h
  | cons m ms ih =>
    obtain ⟨name, d⟩ := m
    rw [ofObject]
    cases name with
    | none => rfl
    | some name =>
      rw [ih h]
      rfl

end NodeMember

/-- The rule of a node that shares among children, by the values under its names. -/
def Kind.ruleOf (values : String → List Document) : Kind → Option Rule
  | .root => some .root
  | .group => (readNullable Document.toText? (values "name")).map .group
  | .equal => some .equal
  | .specified => some .specified
  | .inverseVolatility =>
    (readOnly (Document.toNat? countLimit) (values "window")).map .inverseVolatility
  | .filter => do
    let ranking ← readOnly Ranking.ofDocument (values "sort")
    let select ← readOnly Selection.ofDocument (values "select")
    let count ← readOnly (Document.toNat? countLimit) (values "count")
    return .filter ranking select count
  | .choice | .asset | .unknown => none

/-- The node with the given values under its names. -/
def Node.ofValues (values : String → List Document) : Option (Node Float) := do
  let id ← readOnly Document.toText? (values "id")
  let weight ← readNullable Fraction.ofDocument (values "weight")
  let kind ← readOnly Kind.ofDocument (values "type")
  match kind with
  | .choice => do
    let conditions ← readOnly Conditions.ofDocument (values "conditions")
    let yes ← readOnly Node.ofDocument (values "then")
    let no ← readOnly Node.ofDocument (values "else")
    return .choice id weight conditions yes no
  | .asset => do
    let ticker ← readOnly Document.toText? (values "ticker")
    return .asset id weight ticker
  | .unknown => return .unknown id weight
  | kind => do
    let rule ← kind.ruleOf values
    let children ← readOnly Node.listOfDocument (values "children")
    return .split id weight rule children

namespace Node

theorem ofMembers_map_of (ms : List (String × Document)) :
    ofMembers (ms.map NodeMember.of) = ofValues fun name => valuesOf name ms := by
  unfold ofMembers ofValues
  simp only [Option.bind_eq_bind, NodeMember.nullable_map_of, NodeMember.required_bind,
    NodeMember.of_value, NodeMember.of_node, NodeMember.of_nodes]
  refine congrArg (Option.bind _) (funext fun id => ?_)
  refine congrArg (Option.bind _) (funext fun weight => ?_)
  refine congrArg (Option.bind _) (funext fun kind => ?_)
  cases kind with
  | root | equal | specified | choice | asset | unknown => rfl
  | group | inverseVolatility | filter =>
    simp only [Kind.ruleOf, Option.bind_eq_bind, Option.bind_map, Option.bind_assoc,
      Option.pure_def, Option.bind_some, Function.comp_def]

theorem listOfItems_eq_mapM (ds : List Document) : listOfItems ds = ds.mapM ofDocument := by
  induction ds with
  | nil =>
    rw [listOfItems, List.mapM_nil]
    rfl
  | cons d ds ih => rw [listOfItems, List.mapM_cons, ih]

/-- A node, by the values of its members. -/
theorem ofDocument_object (ms : List (Option String × Document)) :
    ofDocument (.object ms) = if allNamed ms then ofValues (valuesAt ms) else none := by
  split
  · rename_i named
    obtain ⟨ns, rfl⟩ := exists_named named
    have values : valuesAt (ns.map fun m => (some m.1, m.2)) = fun name => valuesOf name ns :=
      funext (valuesAt_named ns)
    rw [values]
    exact (ofDocument_record ns).trans (ofMembers_map_of ns)
  · rename_i unnamed
    rw [ofDocument, NodeMember.ofObject_eq_none (Bool.eq_false_iff.2 unnamed)]
    rfl

end Node

end StrategyTree
