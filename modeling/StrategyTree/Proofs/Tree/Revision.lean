import Mathlib.Logic.Relation
import StrategyTree.Proofs.Tree.Shapes

/-!
# Revisions of a document

A newer writer may put the members of an object into another order, and may add members that this
library does not know. A `Revision` is one such change at one place of a document: a reordering
anywhere, or a new member in an object that is read by the names of its members. Whatever is
revised, the document is read as before.

* `Revision`: a reordering of an object, or a new member in one, at any place of a document.
* `Revision.agree`: a revision does not change what is read.
* `Revision.passable`: nor does it make a document unsound or too deep.
* `Node.readWithin_revisions`: a strategy is read from a revised document as before.
-/

namespace StrategyTree

open Document

/-! ## Documents that may be passed over -/

/-- A document that may stand within `level` arrays and objects where nothing reads it: it is sound,
and nested no deeper than allowed. -/
def Document.Passable (level : Nat) (d : Document) : Prop :=
  d.isSound = true ∧ d.depth + level ≤ nestingLimit

namespace Document.Passable

theorem array_iff {level : Nat} {items : List Document} : Passable level (.array items) ↔
    level < nestingLimit ∧ ∀ d ∈ items, d.Passable (level + 1) := by
  have deep : depthOfAll items + 1 + level ≤ nestingLimit ↔
      level < nestingLimit ∧ ∀ d ∈ items, d.depth + (level + 1) ≤ nestingLimit := by
    induction items with
    | nil =>
      rw [depthOfAll]
      simp only [List.not_mem_nil, false_implies, implies_true, and_true]
      omega
    | cons d ds ih =>
      rw [List.forall_mem_cons, depthOfAll, and_left_comm, ← ih]
      omega
  rw [Passable, isSound, areSound_iff, depth, deep, and_left_comm, ← forall₂_and]
  rfl

theorem object_iff {level : Nat} {ms : List (Option String × Document)} :
    Passable level (.object ms) ↔
      level < nestingLimit ∧ ∀ m ∈ ms, m.1.isSome = true ∧ m.2.Passable (level + 1) := by
  have deep : depthOfMembers ms + 1 + level ≤ nestingLimit ↔
      level < nestingLimit ∧ ∀ m ∈ ms, m.2.depth + (level + 1) ≤ nestingLimit := by
    induction ms with
    | nil =>
      rw [depthOfMembers]
      simp only [List.not_mem_nil, false_implies, implies_true, and_true]
      omega
    | cons m ms ih =>
      rw [List.forall_mem_cons, depthOfMembers, and_left_comm, ← ih]
      omega
  rw [Passable, isSound, membersAreSound_iff, depth, deep, and_left_comm, ← forall₂_and]
  simp only [and_assoc, Passable]

end Document.Passable

/-! ## Revisions -/

/-- One change of a document that is read as a shape and stands within `level` arrays and objects:
members in another order, a new member of a name that does not count, or a revised value of a member
or of an item. -/
inductive Revision : Nat → Shape → Document → Document → Prop
  | reorder {level : Nat} {s : Shape} {ms ms' : List (Option String × Document)}
    (h : ms.Perm ms') : Revision level s (.object ms) (.object ms')
  | add {level : Nat} {s : Shape} {before after : List (Option String × Document)} {name : String}
    {d : Document} (record : s.isRecord = true)
    (new : name ∉ (s.fields (valuesAt (before ++ after))).map Prod.fst)
    (passable : d.Passable (level + 1)) :
    Revision level s (.object (before ++ after)) (.object (before ++ (some name, d) :: after))
  | field {level : Nat} {s t : Shape} {before after : List (Option String × Document)}
    {name : String} {d d' : Document}
    (counts : (name, t) ∈ s.fields (valuesAt (before ++ (some name, d) :: after)))
    (h : Revision (level + 1) t d d') :
    Revision level s (.object (before ++ (some name, d) :: after))
      (.object (before ++ (some name, d') :: after))
  | ignored {level : Nat} {s : Shape} {before after : List (Option String × Document)}
    {name : Option String} {d d' : Document}
    (idle : ∀ f ∈ s.fields (valuesAt (before ++ (name, d) :: after)), name ≠ some f.1)
    (h : Revision (level + 1) .other d d') :
    Revision level s (.object (before ++ (name, d) :: after))
      (.object (before ++ (name, d') :: after))
  | item {level : Nat} {s : Shape} {before after : List Document} {d d' : Document}
    (h : Revision (level + 1) (s.item before.length) d d') :
    Revision level s (.array (before ++ d :: after)) (.array (before ++ d' :: after))

/-! ## Revised documents -/

/-- An object that is a word has one member, and nothing in it. -/
theorem Document.word_eq_none {ms : List (Option String × Document)}
    (h : ∀ name, ms ≠ [(name, .null)] ∧ ms ≠ [(name, .object [])]) : (object ms).word = none := by
  unfold word
  split
  · rename_i e
    cases e
  · rename_i name e
    exact absurd (object.inj e) (h name).1
  · rename_i name e
    exact absurd (object.inj e) (h name).2
  · rfl

namespace Revision

variable {level : Nat} {s : Shape} {d d' : Document}

theorem sameLeaf_reorder {ms ms' : List (Option String × Document)} (perm : ms.Perm ms') :
    Shape.SameLeaf (.object ms) (.object ms') := by
  refine ⟨?_, ?_, rfl, fun _ => rfl, rfl⟩
  · rw [object.injEq, object.injEq]
    exact ⟨fun e => List.nil_perm.1 (e ▸ perm), fun e => List.perm_nil.1 (e ▸ perm)⟩
  · by_cases one : ms.length = 1
    · obtain ⟨m, rfl⟩ := List.length_eq_one_iff.1 one
      rw [List.singleton_perm.1 perm]
    · have several : ∀ {ns : List (Option String × Document)}, ns.length = ms.length →
          (object ns).word = none := fun length => by
        refine word_eq_none fun name => ⟨?_, ?_⟩ <;> rintro rfl <;> exact one length.symm
      rw [several rfl, several perm.length_eq.symm]

theorem sameLeaf_member {before after : List (Option String × Document)} {name : Option String}
    (h : Shape.other.Agree d d') : Shape.SameLeaf (.object (before ++ (name, d) :: after))
      (.object (before ++ (name, d') :: after)) := by
  refine ⟨by simp, ?_, rfl, fun _ => rfl, rfl⟩
  by_cases null : d = .null
  · rw [null, h.null.1 null]
  by_cases empty : d = .object []
  · rw [empty, h.leaf.empty.1 empty]
  · have filled : ∀ {e : Document}, e ≠ .null → e ≠ .object [] →
        (object (before ++ (name, e) :: after)).word = none := fun {e} null empty => by
      have mem : (name, e) ∈ before ++ (name, e) :: after :=
        List.mem_append_right _ List.mem_cons_self
      exact word_eq_none fun name =>
        ⟨fun h => null (Prod.mk.inj (List.mem_singleton.1 (h ▸ mem))).2,
          fun h => empty (Prod.mk.inj (List.mem_singleton.1 (h ▸ mem))).2⟩
    rw [filled null empty, filled (mt h.null.2 null) (mt h.leaf.empty.2 empty)]

/-- A revised document is read as before. -/
theorem agree (h : Revision level s d d') : s.Agree d d' := by
  induction h with
  | reorder perm =>
    exact Shape.agree_object perm.all_eq (fun f _ => .of_perm (perm.filterMap _))
      fun _ => sameLeaf_reorder perm
  | @add level s before after name d record new passable =>
    refine Shape.agree_object (by simp [allNamed]) (fun f hf => ?_) ?_
    · -- what stands under a name that counts is what stood there before
      have other : some name ≠ some f.1 := fun e =>
        new (List.mem_map.2 ⟨f, hf, (Option.some.inj e).symm⟩)
      rw [valuesAt_append, valuesAt_append, valuesAt_cons_of_ne other]
      exact .of_perm (.refl _)
    · rintro rfl
      cases record
  | @field level s t before after name d d' counts h ih =>
    refine Shape.agree_object (by simp [allNamed]) (fun f hf => ?_) ?_
    · -- of the names that count only this one has another value, which is read alike
      by_cases e : f.1 = name
      · obtain rfl := Shape.eq_of_mem_fields hf counts e
        rw [valuesAt_middle, valuesAt_middle]
        exact .append_cons ih _ _
      · have other : some name ≠ some f.1 := fun h => e (Option.some.inj h).symm
        rw [valuesAt_replace other before after d d']
        exact .of_perm (.refl _)
    · rintro rfl
      cases counts
  | @ignored level s before after name d d' idle h ih =>
    refine Shape.agree_object (by simp [allNamed]) (fun f hf => ?_) fun _ => sameLeaf_member ih
    rw [valuesAt_replace (idle f hf) before after d d']
    exact .of_perm (.refl _)
  | item h ih => exact Shape.agree_array ih

/-! ## Limits -/

/-- A revision leaves a document that may be passed over one that may be. -/
theorem passable (h : Revision level s d d') (hd : d.Passable level) : d'.Passable level := by
  induction h with
  | reorder perm =>
    rw [Passable.object_iff] at hd ⊢
    exact ⟨hd.1, fun m hm => hd.2 m (perm.mem_iff.2 hm)⟩
  | add record new passable =>
    rw [Passable.object_iff, List.forall_mem_append] at hd ⊢
    exact ⟨hd.1, hd.2.1, List.forall_mem_cons.2 ⟨⟨rfl, passable⟩, hd.2.2⟩⟩
  | field counts h ih =>
    rw [Passable.object_iff, List.forall_mem_append, List.forall_mem_cons] at hd ⊢
    exact ⟨hd.1, hd.2.1, ⟨rfl, ih hd.2.2.1.2⟩, hd.2.2.2⟩
  | ignored idle h ih =>
    rw [Passable.object_iff, List.forall_mem_append, List.forall_mem_cons] at hd ⊢
    exact ⟨hd.1, hd.2.1, ⟨hd.2.2.1.1, ih hd.2.2.1.2⟩, hd.2.2.2⟩
  | item h ih =>
    rw [Passable.array_iff, List.forall_mem_append, List.forall_mem_cons] at hd ⊢
    exact ⟨hd.1, hd.2.1, ih hd.2.2.1, hd.2.2.2⟩

end Revision

namespace Node

theorem memberIsReadable_iff {level : Nat} {m : Option String × Document} :
    memberIsReadable level m = true ↔
      m.1 = some "id" ∨ m.1 = some "weight" ∨ m.2.Passable level := by
  rw [memberIsReadable, Bool.or_eq_true, Bool.or_eq_true, Bool.and_eq_true, beq_iff_eq, beq_iff_eq,
    decide_eq_true_iff, or_assoc, Passable]

theorem readWithin_object {level : Nat} {ms : List (Option String × Document)} {n : Node Float} :
    readWithin level (.object ms) = some n ↔
      ofDocument (.object ms) = some n ∧ ∀ m ∈ ms, memberIsReadable (level + 1) m = true := by
  rw [readWithin, Option.ite_none_right_eq_some, List.all_eq_true, and_comm]

theorem ofDocument_of_readWithin {level : Nat} {d : Document} {n : Node Float}
    (h : readWithin level d = some n) : ofDocument d = some n := by
  cases d with
  | object ms => exact (readWithin_object.1 h).1
  | null | bool | number | string | array => cases h

/-- Another value of a member of the outermost node can be read if the value could. -/
theorem memberIsReadable_imp {level : Nat} {name : Option String} {d d' : Document}
    (h : d.Passable level → d'.Passable level) (hd : memberIsReadable level (name, d) = true) :
    memberIsReadable level (name, d') = true := by
  rw [memberIsReadable_iff] at hd ⊢
  exact hd.imp_right (Or.imp_right h)

/-- A strategy is read from a revised document as before. -/
theorem readWithin_revision {level : Nat} {d d' : Document} {n : Node Float}
    (h : Revision level .node d d') (hd : readWithin level d = some n) :
    readWithin level d' = some n := by
  have reading : ofDocument d = ofDocument d' := h.agree.reading
  cases h with
  | reorder perm =>
    rw [readWithin_object, reading] at hd
    exact readWithin_object.2 ⟨hd.1, fun m hm => hd.2 m (perm.mem_iff.2 hm)⟩
  | add record new passable =>
    rw [readWithin_object, reading, List.forall_mem_append] at hd
    rw [readWithin_object, List.forall_mem_append, List.forall_mem_cons]
    exact ⟨hd.1, hd.2.1, memberIsReadable_iff.2 (.inr (.inr passable)), hd.2.2⟩
  | field _ h | ignored _ h =>
    rw [readWithin_object, reading, List.forall_mem_append, List.forall_mem_cons] at hd
    rw [readWithin_object, List.forall_mem_append, List.forall_mem_cons]
    exact ⟨hd.1, hd.2.1, memberIsReadable_imp h.passable hd.2.2.1, hd.2.2.2⟩
  | item h => cases hd

/-- A strategy is read from a document that is revised time and again as before. -/
theorem readWithin_revisions {level : Nat} {d d' : Document} {n : Node Float}
    (h : Relation.ReflTransGen (Revision level .node) d d') (hd : readWithin level d = some n) :
    readWithin level d' = some n := by
  induction h with
  | refl => exact hd
  | tail _ h ih => exact readWithin_revision h ih

end Node

end StrategyTree
