import StrategyTree.Proofs.Document.RoundTrip
import StrategyTree.Tree.OfDocument

/-!
# Records that are written and read

A record is written as an object whose members have distinct names, so that each member is found by
its name.

* `Document.parts_record`: the parts of a record.
* `NodeMember.required_of_mem`, `NodeMember.nullable_of_mem`, `NodeMember.nullable_of_not_mem`: the
  members of a node.
* `Document.Legible.record`: a record of legible documents is legible.
-/

namespace StrategyTree

/-! ## Lists -/

/-- Reads back what a list was made of. -/
theorem mapM_map_eq_some {β γ δ : Type} {read : γ → Option δ} {write : β → γ} {value : β → δ}
    {bs : List β} (h : ∀ b ∈ bs, read (write b) = some (value b)) :
    (bs.map write).mapM read = some (bs.map value) := by
  induction bs with
  | nil => rfl
  | cons b bs ih =>
    rw [List.forall_mem_cons] at h
    rw [List.map_cons, List.mapM_cons, h.1, ih h.2]
    rfl

/-- Where keys are distinct, an entry is the only one with its key. -/
theorem filter_key_eq {β κ : Type} [BEq κ] [LawfulBEq κ] {key : β → κ} {bs : List β}
    (distinct : (bs.map key).Nodup) {b : β} (hb : b ∈ bs) :
    bs.filter (fun x => key x == key b) = [b] := by
  induction bs with
  | nil => cases hb
  | cons a as ih =>
    rw [List.map_cons, List.nodup_cons] at distinct
    rcases List.mem_cons.1 hb with rfl | hb
    · have others : as.filter (fun x => key x == key b) = [] :=
        List.filter_eq_nil_iff.2 fun x hx e =>
          distinct.1 (List.mem_map.2 ⟨x, hx, beq_iff_eq.1 e⟩)
      rw [List.filter_cons, if_pos (beq_self_eq_true _), others]
    · have other : ¬(key a == key b) = true := fun e =>
        distinct.1 (List.mem_map.2 ⟨b, hb, (beq_iff_eq.1 e).symm⟩)
      rw [List.filter_cons, if_neg other, ih distinct.2 hb]

namespace Document

/-! ## The parts of a record -/

theorem valuesOf_eq (name : String) (ms : List (String × Document)) :
    valuesOf name ms = (ms.filter fun m => m.1 == name).map Prod.snd := by
  rw [valuesOf]
  induction ms with
  | nil => rfl
  | cons m ms ih =>
    by_cases h : m.1 = name
    · simp [h, ih]
    · simp [h, ih]

theorem required_of_mem {ms : List (String × Document)} (distinct : (ms.map Prod.fst).Nodup)
    {m : String × Document} (hm : m ∈ ms) : required m.1 ms = some m.2 := by
  rw [required, valuesOf_eq, filter_key_eq distinct hm]
  rfl

theorem namedMembers_map (ms : List (String × Document)) :
    namedMembers (ms.map fun m => (some m.1, m.2)) = some ms := by
  induction ms with
  | nil => rfl
  | cons m ms ih =>
    rw [List.map_cons, namedMembers, ih]
    rfl

/-- A record has the parts it is written with. -/
theorem parts_record {ms : List (String × Document)} {names : List String}
    (e : ms.map Prod.fst = names) (distinct : names.Nodup) :
    (record ms).parts names = some (ms.map Prod.snd) := by
  subst e
  rw [record, parts, namedMembers_map, Option.bind_eq_bind, Option.bind_some]
  exact mapM_map_eq_some fun m hm => required_of_mem distinct hm

theorem toNat?_nat {n limit : Nat} (h : n < limit) : (nat n).toNat? limit = some n := if_pos h

/-! ## What is read on the spot -/

theorem Legible.record {ms : List (String × Document)} (h : ∀ m ∈ ms, m.2.Legible) :
    (record ms).Legible := by
  refine .object (fun m' hm' => ?_) (fun m' hm' => ?_)
  · obtain ⟨m, -, rfl⟩ := List.mem_map.1 hm'
    rfl
  · obtain ⟨m, hm, rfl⟩ := List.mem_map.1 hm'
    exact h m hm

theorem depth_le_depthOfMembers {ms : List (Option String × Document)}
    {m : Option String × Document} (hm : m ∈ ms) : m.2.depth ≤ depthOfMembers ms := by
  induction ms with
  | nil => cases hm
  | cons a as ih =>
    rw [depthOfMembers]
    rcases List.mem_cons.1 hm with rfl | hm
    · exact Nat.le_max_left _ _
    · exact Nat.le_trans (ih hm) (Nat.le_max_right _ _)

end Document

/-- A sound document that is nested no deeper than allowed is read as a node if it is one. -/
theorem Node.readWithin_of_isSound {level : Nat} {ms : List (Option String × Document)}
    (sound : (Document.object ms).isSound = true)
    (shallow : (Document.object ms).depth + level ≤ nestingLimit) :
    Node.readWithin level (.object ms) = Node.ofDocument (.object ms) := by
  rw [Node.readWithin, if_pos]
  rw [List.all_eq_true]
  intro m hm
  rw [Document.isSound, Document.membersAreSound_iff] at sound
  rw [Document.depth] at shallow
  have deep := Document.depth_le_depthOfMembers hm
  rw [Node.memberIsReadable, (sound m hm).2, decide_eq_true (by omega), Bool.and_true,
    Bool.or_true]

/-! ## The members of a node -/

namespace NodeMember

/-- A member with its value as what it may be. -/
def of (m : String × Document) : NodeMember :=
  ⟨m.1, m.2, Node.ofDocument m.2, Node.listOfDocument m.2⟩

@[simp] theorem of_value (m : String × Document) : (of m).value = m.2 := rfl

@[simp] theorem of_node (m : String × Document) : (of m).node = Node.ofDocument m.2 := rfl

@[simp] theorem of_nodes (m : String × Document) : (of m).nodes = Node.listOfDocument m.2 := rfl

theorem ofObject_map (ms : List (String × Document)) :
    ofObject (ms.map fun m => (some m.1, m.2)) = some (ms.map of) := by
  induction ms with
  | nil => rw [List.map_nil, ofObject, List.map_nil]
  | cons m ms ih =>
    rw [List.map_cons, ofObject, ih]
    rfl

variable {ms : List NodeMember} {m : NodeMember} {name : String}

theorem required_of_mem (distinct : (ms.map NodeMember.name).Nodup) (hm : m ∈ ms) :
    required m.name ms = some m := by
  rw [required, filter_key_eq distinct hm]

theorem nullable_of_mem {β : Type} {read : Document → Option β}
    (distinct : (ms.map NodeMember.name).Nodup) (hm : m ∈ ms) (h : m.value ≠ .null) :
    nullable read m.name ms = (read m.value).map some := by
  have found : optional m.name ms = some (some m) := by rw [optional, filter_key_eq distinct hm]
  rw [nullable, found, Option.bind_eq_bind, Option.bind_some]
  dsimp only
  split
  · rename_i e
    exact absurd e h
  · exact Option.map_eq_bind.symm

theorem nullable_of_not_mem {β : Type} (read : Document → Option β)
    (h : name ∉ ms.map NodeMember.name) : nullable read name ms = some none := by
  have missing : ms.filter (fun m => m.name == name) = [] :=
    List.filter_eq_nil_iff.2 fun m hm e => h (List.mem_map.2 ⟨m, hm, beq_iff_eq.1 e⟩)
  rw [nullable, optional, missing]
  rfl

end NodeMember

theorem Node.ofDocument_record (ms : List (String × Document)) :
    Node.ofDocument (Document.record ms) = Node.ofMembers (ms.map NodeMember.of) := by
  rw [Document.record, Node.ofDocument, NodeMember.ofObject_map]
  rfl

end StrategyTree
