import Mathlib.Data.List.Forall2
import StrategyTree.Error

/-!
# Outcomes

A computation of the engine ends with a result or with the first error it meets. This module takes
sequences of such computations apart, and compares two of them that run side by side.

* `Except.bind_eq_ok`, `Outcome.mapM_eq_ok`, `Outcome.foldlM_eq_ok_of_step`: what a success of a
  sequence says about its parts.
* `FailsOnly`: a computation fails with errors of a kind only.
* `BothEnd`: whenever two computations both succeed, their results are related.
* `Alike`: two computations fail with the same error, or succeed with related results.
* `Agreement`: a way for two computations of one type to agree that sequencing preserves. Its
  instances are `Agreement.whenBoth`, `Agreement.same`, `Agreement.succeeding` and
  `Agreement.failing`.
-/

namespace StrategyTree

variable {β γ δ σ : Type}

/-! ## Success of a sequence -/

@[simp] theorem Except.ok_bind (b : β) (f : β → Except Error γ) : (Except.ok b >>= f) = f b := rfl

@[simp] theorem Except.error_bind (e : Error) (f : β → Except Error γ) :
    (Except.error e >>= f) = .error e := rfl

@[simp] theorem Except.pure_eq_ok (b : β) : (pure b : Except Error β) = .ok b := rfl

@[simp] theorem Except.throw_eq_error (e : Error) : (throw e : Except Error β) = .error e := rfl

theorem Except.bind_eq_ok {x : Except Error β} {f : β → Except Error γ} {c : γ} :
    (x >>= f) = .ok c ↔ ∃ b, x = .ok b ∧ f b = .ok c := by
  cases x with
  | error e => simp
  | ok b => simp

namespace Outcome

theorem exists_of_isOk {x : Except Error β} (h : x.isOk = true) : ∃ b, x = .ok b := by
  cases x with
  | error e => cases h
  | ok b => exact ⟨b, rfl⟩

theorem eq_error_of_map {x : Except Error β} {f : β → γ} {e : Error} (h : x.map f = .error e) :
    x = .error e := by
  cases x with
  | error e' => exact congrArg _ (Except.error.inj h)
  | ok b => cases h

theorem mapM_eq_ok {f : β → Except Error γ} :
    ∀ {bs : List β} {cs : List γ},
      bs.mapM f = .ok cs ↔ List.Forall₂ (fun b c => f b = .ok c) bs cs := by
  intro bs
  induction bs with
  | nil => intro cs; simp [eq_comm]
  | cons b bs ih =>
    intro cs
    rw [List.mapM_cons, Except.bind_eq_ok]
    constructor
    · rintro ⟨c, hc, h⟩
      obtain ⟨ds, hds, h⟩ := Except.bind_eq_ok.1 h
      cases h
      exact List.Forall₂.cons hc (ih.1 hds)
    · intro h
      cases h with
      | cons hc hds => exact ⟨_, hc, Except.bind_eq_ok.2 ⟨_, ih.2 hds, rfl⟩⟩

/-- A list of computations that all succeed succeeds. -/
theorem mapM_succeeds {f : β → Except Error γ} {bs : List β} (h : ∀ b ∈ bs, ∃ c, f b = .ok c) :
    ∃ cs, bs.mapM f = .ok cs := by
  induction bs with
  | nil => exact ⟨[], rfl⟩
  | cons b bs ih =>
    obtain ⟨c, hc⟩ := h b (by simp)
    obtain ⟨cs, hcs⟩ := ih fun b hb => h b (List.mem_cons_of_mem _ hb)
    refine ⟨c :: cs, ?_⟩
    rw [List.mapM_cons, hc, Except.ok_bind, hcs]
    rfl

/-- A list of computations with known results ends with these results. -/
theorem mapM_eq_map {f : β → Except Error γ} {g : β → γ} {bs : List β}
    (h : ∀ b ∈ bs, f b = .ok (g b)) : bs.mapM f = .ok (bs.map g) := by
  rw [mapM_eq_ok, List.forall₂_map_right_iff, List.forall₂_same]
  exact h

theorem exists_of_forall₂ {P : β → γ → Prop} {bs : List β} {cs : List γ}
    (h : List.Forall₂ P bs cs) {b : β} (hb : b ∈ bs) : ∃ c ∈ cs, P b c := by
  induction h with
  | nil => cases hb
  | cons hc _ ih =>
    rcases List.mem_cons.1 hb with rfl | hb
    · exact ⟨_, List.mem_cons_self, hc⟩
    · obtain ⟨c, hmem, hc⟩ := ih hb
      exact ⟨c, List.mem_cons_of_mem _ hmem, hc⟩

theorem exists_of_mapM {f : β → Except Error γ} {bs : List β} {cs : List γ}
    (h : bs.mapM f = .ok cs) {b : β} (hb : b ∈ bs) : ∃ c ∈ cs, f b = .ok c :=
  exists_of_forall₂ (mapM_eq_ok.1 h) hb

theorem exists_of_mem_mapM {f : β → Except Error γ} {bs : List β} {cs : List γ}
    (h : bs.mapM f = .ok cs) {c : γ} (hc : c ∈ cs) : ∃ b ∈ bs, f b = .ok c :=
  exists_of_forall₂ (P := fun c b => f b = .ok c) (mapM_eq_ok.1 h).flip hc

/-- What every single result says of its input, the list of results says of the list of inputs. -/
theorem map_eq_map_of_mapM {f : β → Except Error γ} {g : γ → δ} {g' : β → δ}
    (hg : ∀ b c, f b = .ok c → g c = g' b) {bs : List β} {cs : List γ}
    (h : bs.mapM f = .ok cs) : cs.map g = bs.map g' := by
  rw [mapM_eq_ok] at h
  induction h with
  | nil => rfl
  | cons hc _ ih => rw [List.map_cons, List.map_cons, hg _ _ hc, ih]

/-- What each step of a fold preserves, a successful fold preserves. -/
theorem foldlM_eq_ok_of_step {P : σ → Prop} {f : σ → β → Except Error σ} :
    ∀ {bs : List β} {s t : σ}, bs.foldlM f s = .ok t →
      (∀ b ∈ bs, ∀ s t, f s b = .ok t → P s → P t) → P s → P t := by
  intro bs
  induction bs with
  | nil =>
    intro s t h _ hs
    cases h
    exact hs
  | cons b bs ih =>
    intro s t h hf hs
    rw [List.foldlM_cons, Except.bind_eq_ok] at h
    obtain ⟨u, hu, h⟩ := h
    exact ih h (fun b hb => hf b (List.mem_cons_of_mem _ hb)) (hf b (by simp) s u hu hs)

theorem foldlM_flatMap (f : β → List γ) (g : σ → γ → Except Error σ)
    (bs : List β) : ∀ s, (bs.flatMap f).foldlM g s = bs.foldlM (fun s b => (f b).foldlM g s) s := by
  induction bs with
  | nil => intro s; rfl
  | cons b bs ih =>
    intro s
    rw [List.flatMap_cons, List.foldlM_append, List.foldlM_cons]
    congr 1
    funext s
    exact ih s

theorem foldlM_congr {f g : σ → β → Except Error σ} {bs : List β}
    (h : ∀ b ∈ bs, ∀ s, f s b = g s b) : ∀ {s}, bs.foldlM f s = bs.foldlM g s := by
  induction bs with
  | nil => intro s; rfl
  | cons b bs ih =>
    intro s
    rw [List.foldlM_cons, List.foldlM_cons, h b (by simp)]
    congr 1
    funext s
    exact ih fun b hb => h b (List.mem_cons_of_mem _ hb)

end Outcome

/-! ## Failure of a sequence -/

/-- A computation fails, if it fails, with an error of a kind. -/
def FailsOnly (P : Error → Prop) (x : Except Error β) : Prop := ∀ e, x = .error e → P e

namespace FailsOnly

variable {P : Error → Prop}

theorem ok (b : β) : FailsOnly P (.ok b) := by
  intro e h
  cases h

theorem error {e : Error} (h : P e) : FailsOnly P (.error e : Except Error β) := by
  rintro _ ⟨⟩
  exact h

theorem bind {x : Except Error β} {f : β → Except Error γ} (h : FailsOnly P x)
    (hf : ∀ b, x = .ok b → FailsOnly P (f b)) : FailsOnly P (x >>= f) := by
  cases x with
  | error e => exact error (h e rfl)
  | ok b => exact hf b rfl

/-- A pass over a list fails as one of its members does. -/
theorem mapM {f : β → Except Error γ} {bs : List β} (h : ∀ b ∈ bs, FailsOnly P (f b)) :
    FailsOnly P (bs.mapM f) := by
  induction bs with
  | nil => exact ok []
  | cons b bs ih =>
    rw [List.mapM_cons]
    refine bind (h b (by simp)) fun c _ => ?_
    exact bind (ih fun b hb => h b (List.mem_cons_of_mem _ hb)) fun cs _ => ok (c :: cs)

/-- A fold fails as the step does that comes after the steps before it have succeeded. -/
theorem foldlM {f : σ → β → Except Error σ} :
    ∀ {bs : List β} {s : σ},
      (∀ before b after t, bs = before ++ b :: after → before.foldlM f s = .ok t →
        FailsOnly P (f t b)) → FailsOnly P (bs.foldlM f s) := by
  intro bs
  induction bs with
  | nil =>
    intro s _
    exact ok s
  | cons b bs ih =>
    intro s h
    rw [List.foldlM_cons]
    refine bind (h [] b bs s rfl rfl) fun t ht => ih fun before c after u e hu => ?_
    refine h (b :: before) c after u (by rw [e, List.cons_append]) ?_
    rw [List.foldlM_cons, ht]
    exact hu

end FailsOnly

/-! ## Two computations side by side -/

/-- Whenever two computations both succeed, their results are related. -/
def BothEnd (Q : β → γ → Prop) (x : Except Error β) (y : Except Error γ) : Prop :=
  ∀ b c, x = .ok b → y = .ok c → Q b c

namespace BothEnd

variable {ε : Type} {Q : β → γ → Prop} {P : δ → ε → Prop}

theorem ok {b : β} {c : γ} (h : Q b c) : BothEnd Q (.ok b) (.ok c) := by
  rintro _ _ ⟨⟩ ⟨⟩
  exact h

theorem bind {x : Except Error β} {y : Except Error γ} {f : β → Except Error δ}
    {g : γ → Except Error ε} (h : BothEnd Q x y)
    (hf : ∀ b c, x = .ok b → y = .ok c → Q b c → BothEnd P (f b) (g c)) :
    BothEnd P (x >>= f) (y >>= g) := by
  intro d e hd he
  obtain ⟨b, hb, hd⟩ := Except.bind_eq_ok.1 hd
  obtain ⟨c, hc, he⟩ := Except.bind_eq_ok.1 he
  exact hf b c hb hc (h b c hb hc) d e hd he

/-- Two passes over one list, whose results are related element by element. -/
theorem mapM {ι : Type} {f : ι → Except Error β} {g : ι → Except Error γ} {is : List ι}
    (h : ∀ i ∈ is, BothEnd Q (f i) (g i)) :
    BothEnd (List.Forall₂ Q) (is.mapM f) (is.mapM g) := by
  induction is with
  | nil => exact ok List.Forall₂.nil
  | cons i is ih =>
    rw [List.mapM_cons, List.mapM_cons]
    refine bind (h i (by simp)) fun b c _ _ hbc => ?_
    refine bind (ih fun i hi => h i (List.mem_cons_of_mem _ hi)) fun bs cs _ _ hs => ?_
    exact ok (List.Forall₂.cons hbc hs)

/-- Two folds over one list, whose states stay related. -/
theorem foldlM {ι : Type} {f : β → ι → Except Error β} {g : γ → ι → Except Error γ} {is : List ι}
    (h : ∀ i ∈ is, ∀ b c, Q b c → BothEnd Q (f b i) (g c i)) :
    ∀ {b : β} {c : γ}, Q b c → BothEnd Q (is.foldlM f b) (is.foldlM g c) := by
  induction is with
  | nil =>
    intro b c hbc
    exact ok hbc
  | cons i is ih =>
    intro b c hbc
    rw [List.foldlM_cons, List.foldlM_cons]
    exact bind (h i (by simp) b c hbc) fun b c _ _ hbc =>
      ih (fun i hi => h i (List.mem_cons_of_mem _ hi)) hbc

end BothEnd

/-! ## Computations that end alike -/

/-- Two computations end alike: both fail, with the same error, or both succeed, and their results
are related. -/
inductive Alike (Q : β → γ → Prop) : Except Error β → Except Error γ → Prop
  | error (e : Error) : Alike Q (.error e) (.error e)
  | ok {b : β} {c : γ} (h : Q b c) : Alike Q (.ok b) (.ok c)

namespace Alike

variable {ε : Type} {Q Q' : β → γ → Prop} {P : δ → ε → Prop} {x : Except Error β}
  {y : Except Error γ}

theorem refl {Q : β → β → Prop} (h : ∀ b, Q b b) (x : Except Error β) : Alike Q x x := by
  cases x with
  | error e => exact error e
  | ok b => exact ok (h b)

theorem mono (h : Alike Q x y) (hQ : ∀ b c, Q b c → Q' b c) : Alike Q' x y := by
  cases h with
  | error e => exact error e
  | ok h => exact ok (hQ _ _ h)

theorem eq {y : Except Error β} (h : Alike Eq x y) : x = y := by
  cases h with
  | error e => rfl
  | ok h => rw [h]

theorem bind {f : β → Except Error δ} {g : γ → Except Error ε} (h : Alike Q x y)
    (hf : ∀ b c, x = .ok b → y = .ok c → Q b c → Alike P (f b) (g c)) :
    Alike P (x >>= f) (y >>= g) := by
  cases h with
  | error e => exact error e
  | ok h => exact hf _ _ rfl rfl h

theorem map_left (h : Alike Q x y) (f : β → δ) {P : δ → γ → Prop}
    (hf : ∀ b c, Q b c → P (f b) c) : Alike P (x >>= fun b => .ok (f b)) y := by
  cases h with
  | error e => exact error e
  | ok h => exact ok (hf _ _ h)

theorem map_right (h : Alike Q x y) (g : γ → ε) {P : β → ε → Prop}
    (hg : ∀ b c, Q b c → P b (g c)) : Alike P x (y >>= fun c => .ok (g c)) := by
  cases h with
  | error e => exact error e
  | ok h => exact ok (hg _ _ h)

/-- Two passes over one list, whose results are related element by element. -/
theorem mapM {ι : Type} {f : ι → Except Error β} {g : ι → Except Error γ} {is : List ι}
    (h : ∀ i ∈ is, Alike Q (f i) (g i)) : Alike (List.Forall₂ Q) (is.mapM f) (is.mapM g) := by
  induction is with
  | nil => exact ok List.Forall₂.nil
  | cons i is ih =>
    rw [List.mapM_cons, List.mapM_cons]
    refine bind (h i (by simp)) fun b c _ _ hbc => ?_
    refine bind (ih fun i hi => h i (List.mem_cons_of_mem _ hi)) fun bs cs _ _ hs => ?_
    exact ok (List.Forall₂.cons hbc hs)

/-- Two passes over one list, the results of one of which are the images of the other ones. -/
theorem mapM_map {ι : Type} {f : ι → Except Error β} {g : ι → Except Error γ} {h : β → γ}
    {is : List ι} (hfg : ∀ i ∈ is, Alike (fun b c => c = h b) (f i) (g i)) :
    Alike (fun bs cs => cs = bs.map h) (is.mapM f) (is.mapM g) := by
  refine (mapM hfg).mono fun bs cs hs => ?_
  induction hs with
  | nil => rfl
  | cons e _ ih => rw [List.map_cons, e, ih]

end Alike

/-! ## Ways to agree -/

/-- A way for two computations to agree that holds of equal results and that sequencing preserves.
Where the second parts are compared, the first parts have ended with the same result. -/
structure Agreement where
  holds : {β : Type} → Except Error β → Except Error β → Prop
  ok : ∀ {β : Type} (b : β), holds (.ok b) (.ok b)
  bind : ∀ {β γ : Type} {x y : Except Error β} {f g : β → Except Error γ}, holds x y →
    (∀ b, x = .ok b → y = .ok b → holds (f b) (g b)) → holds (x >>= f) (y >>= g)

namespace Agreement

/-- If both succeed, then with the same result. -/
def whenBoth : Agreement where
  holds := BothEnd Eq
  ok _ := BothEnd.ok rfl
  bind := by
    intro β γ x y f g h hf
    refine BothEnd.bind h fun b c hb hc e => ?_
    subst e
    exact hf b hb hc

/-- Both end in the same way. -/
def same : Agreement where
  holds x y := x = y
  ok _ := rfl
  bind := by
    intro β γ x y f g h hf
    subst h
    cases hx : x with
    | error e => rfl
    | ok b => exact hf b hx hx

/-- Both succeed with the same result. -/
def succeeding : Agreement where
  holds x y := ∃ b, x = .ok b ∧ y = .ok b
  ok b := ⟨b, rfl, rfl⟩
  bind := by
    rintro β γ x y f g ⟨b, hx, hy⟩ hf
    obtain ⟨c, hc, hd⟩ := hf b hx hy
    exact ⟨c, Except.bind_eq_ok.2 ⟨b, hx, hc⟩, Except.bind_eq_ok.2 ⟨b, hy, hd⟩⟩

/-- Both end in the same way, and if they fail, with an error of a kind. -/
def failing (P : Error → Prop) : Agreement where
  holds x y := x = y ∧ FailsOnly P x
  ok b := ⟨rfl, FailsOnly.ok b⟩
  bind := by
    rintro β γ x y f g ⟨rfl, h⟩ hf
    refine ⟨?_, h.bind fun b hb => (hf b hb hb).2⟩
    cases x with
    | error e => rfl
    | ok b => exact (hf b rfl rfl).1

variable (R : Agreement)

theorem mapM {f g : β → Except Error γ} {bs : List β} (h : ∀ b ∈ bs, R.holds (f b) (g b)) :
    R.holds (bs.mapM f) (bs.mapM g) := by
  induction bs with
  | nil => exact R.ok []
  | cons b bs ih =>
    rw [List.mapM_cons, List.mapM_cons]
    refine R.bind (h b (by simp)) fun c _ _ => ?_
    refine R.bind (ih fun b hb => h b (List.mem_cons_of_mem _ hb)) fun cs _ _ => ?_
    exact R.ok (c :: cs)

theorem foldlM {f g : σ → β → Except Error σ} {bs : List β}
    (h : ∀ b ∈ bs, ∀ s, R.holds (f s b) (g s b)) :
    ∀ s, R.holds (bs.foldlM f s) (bs.foldlM g s) := by
  induction bs with
  | nil =>
    intro s
    exact R.ok s
  | cons b bs ih =>
    intro s
    rw [List.foldlM_cons, List.foldlM_cons]
    exact R.bind (h b (by simp) s) fun t _ _ => ih (fun b hb => h b (List.mem_cons_of_mem _ hb)) t

end Agreement

end StrategyTree
