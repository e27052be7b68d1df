import StrategyTree.Document.Reader
import StrategyTree.Document.Writer
import StrategyTree.Proofs.Document.Numbers

/-!
# Documents that are written and read

The text of a document is read as that document. On the way stand the tokens: the lexer makes them
of the text, the reader makes the document of them. A word or a number has no end of its own, so
that the lexer may still be in the middle of it at the end of a text; what comes next in a document
ends it.

* `Document.Legible`: documents whose strings have texts and whose numbers are numerals of doubles.
* `Document.Lexes`: what it means that the lexer makes some tokens of a text, whatever comes next.
* `Document.Legible.read_compactChars`: what is written for a legible document is read as that
  document.
-/

namespace StrategyTree.Document

open Text

/-! ## Legible documents -/

/-- A document that can be written and read again, wherever it stands: every string has a text, and
every number is written the way numbers are and has a double. -/
inductive Legible : Document → Prop
  | null : Legible .null
  | bool (b : Bool) : Legible (.bool b)
  | number {n : Number} (wellFormed : n.WellFormed) (hasDouble : n.toFloat?.isSome = true) :
    Legible (.number n)
  | text (s : String) : Legible (text s)
  | array {items : List Document} (h : ∀ d ∈ items, Legible d) : Legible (.array items)
  | object {members : List (Option String × Document)} (named : ∀ m ∈ members, m.1.isSome = true)
    (h : ∀ m ∈ members, Legible m.2) : Legible (.object members)

theorem areSound_iff {ds : List Document} :
    areSound ds = true ↔ ∀ d ∈ ds, d.isSound = true := by
  induction ds with
  | nil => simp [areSound]
  | cons d ds ih => rw [areSound, Bool.and_eq_true, ih, List.forall_mem_cons]

theorem membersAreSound_iff {ms : List (Option String × Document)} :
    membersAreSound ms = true ↔ ∀ m ∈ ms, m.1.isSome = true ∧ m.2.isSound = true := by
  induction ms with
  | nil => simp [membersAreSound]
  | cons m ms ih =>
    obtain ⟨name, d⟩ := m
    rw [membersAreSound, Bool.and_eq_true, Bool.and_eq_true, ih, List.forall_mem_cons]

theorem Legible.isSound {d : Document} (h : d.Legible) : d.isSound = true := by
  induction h with
  | null | bool b | text s => rfl
  | number wellFormed hasDouble => exact hasDouble
  | array _ ih => exact areSound_iff.2 ih
  | object named _ ih => exact membersAreSound_iff.2 fun m hm => ⟨named m hm, ih m hm⟩

/-! ## The tokens of a document -/

mutual

/-- The tokens that are written for a document. -/
def tokensOf : Document → List Token
  | array items => .openArray :: itemTokens items ++ [.closeArray]
  | object members => .openObject :: memberTokens members ++ [.closeObject]
  | leaf => [.leaf leaf]

/-- The tokens of the items of an array. -/
def itemTokens : List Document → List Token
  | [] => []
  | [d] => d.tokensOf
  | d :: ds => d.tokensOf ++ .comma :: itemTokens ds

/-- The tokens of the members of an object. -/
def memberTokens : List (Option String × Document) → List Token
  | [] => []
  | [(name, d)] => .leaf (.string name) :: .colon :: d.tokensOf
  | (name, d) :: ms => .leaf (.string name) :: .colon :: d.tokensOf ++ .comma :: memberTokens ms

end

/-! ## From a text to its tokens -/

/-- A character that ends what stands before it and is a token itself. -/
inductive Separates : Char → Token → Prop
  | comma : Separates ',' .comma
  | colon : Separates ':' .colon
  | closeArray : Separates ']' .closeArray
  | closeObject : Separates '\x7d' .closeObject

/-- The lexer makes tokens of a text that stands between separators: it ends with them at the end
of the text, and goes on from them if a separator comes next. -/
def Lexes (s : List Char) (ts : List Token) : Prop :=
  ∀ seen, ∃ l, Lexer.run ⟨seen, .between⟩ s = some l ∧ l.close = some (ts.reverse ++ seen) ∧
    ∀ c t, Separates c t → l.step c = some ⟨t :: (ts.reverse ++ seen), .between⟩

namespace Lexes

variable {s s' : List Char} {ts ts' : List Token} {c : Char} {t : Token}

theorem start_of_separates (h : Separates c t) (seen : List Token) :
    Lexer.start seen c = some ⟨t :: seen, .between⟩ := by
  cases h <;> rfl

/-- A text after which the lexer stands between tokens. -/
theorem of_between
    (h : ∀ seen, Lexer.run ⟨seen, .between⟩ s = some ⟨ts.reverse ++ seen, .between⟩) :
    Lexes s ts :=
  fun seen => ⟨_, h seen, rfl, fun _ _ hc => start_of_separates hc _⟩

theorem nil : Lexes [] [] := of_between fun _ => rfl

/-- A text before a separator and one after it. -/
theorem append (h : Lexes s ts) (hc : Separates c t) (g : Lexes s' ts') :
    Lexes (s ++ c :: s') (ts ++ t :: ts') := by
  intro seen
  obtain ⟨l, run, -, next⟩ := h seen
  obtain ⟨l', run', close', next'⟩ := g (t :: (ts.reverse ++ seen))
  have tokens : (ts ++ t :: ts').reverse ++ seen = ts'.reverse ++ t :: (ts.reverse ++ seen) := by
    simp
  rw [tokens]
  refine ⟨l', ?_, close', next'⟩
  rw [Lexer.run_append, run]
  change (l.step c >>= fun l => Lexer.run l s') = some l'
  rw [next c t hc]
  exact run'

/-- An opening bracket or brace before a text. -/
theorem cons (hc : ∀ seen, Lexer.start seen c = some ⟨t :: seen, .between⟩) (g : Lexes s ts) :
    Lexes (c :: s) (t :: ts) := by
  intro seen
  obtain ⟨l, run, close, next⟩ := g (t :: seen)
  rw [List.reverse_cons, List.append_assoc]
  refine ⟨l, ?_, close, next⟩
  change (Lexer.start seen c >>= fun l => Lexer.run l s) = some l
  rw [hc]
  exact run

/-- The tokens of a whole text. -/
theorem tokens_eq (h : Lexes s ts) : tokens s = some ts := by
  obtain ⟨l, run, close, -⟩ := h []
  rw [tokens, run]
  change (l.close >>= fun ts => some ts.reverse) = some ts
  rw [close, List.append_nil]
  exact congrArg some (List.reverse_reverse ts)

end Lexes

/-! ### Strings -/

section Strings

variable {seen : List Token} {chars : List Char}

theorem hexValue_hexDigit : ∀ n < 16, hexValue (hexDigit n) = some n := by decide

/-- The code unit of a control character stands for it. -/
theorem pushUnit_toNat {c : Char} (h : c.toNat < 0x20) :
    StringSoFar.pushUnit { chars := chars } c.toNat = { chars := c :: chars } := by
  rw [StringSoFar.pushUnit, if_neg (by omega), if_neg (by omega), Char.ofNat_toNat]
  rfl

/-- A control character is read from its code. -/
theorem run_code {c : Char} (h : c.toNat < 0x20) :
    Lexer.run ⟨seen, .string { chars := chars } .plain⟩
      ['\\', 'u', '0', '0', hexDigit (c.toNat / 16), hexDigit (c.toNat % 16)] =
        some ⟨seen, .string { chars := c :: chars } .plain⟩ := by
  have high := hexValue_hexDigit (c.toNat / 16) (by omega)
  have low := hexValue_hexDigit (c.toNat % 16) (by omega)
  have code : 16 * (c.toNat / 16) + c.toNat % 16 = c.toNat := Nat.div_add_mod _ _
  change Lexer.run ⟨seen, .string { chars := chars } (.unit 2 0)⟩
    [hexDigit (c.toNat / 16), hexDigit (c.toNat % 16)] = _
  simp only [Lexer.run, List.foldlM_cons, List.foldlM_nil, Lexer.step, Lexer.stringStep, high, low]
  simp [code, pushUnit_toNat h]

/-- A character of a string is read from what is written for it. -/
theorem run_escape (c : Char) :
    Lexer.run ⟨seen, .string { chars := chars } .plain⟩ (escape c) =
      some ⟨seen, .string { chars := c :: chars } .plain⟩ := by
  unfold escape
  split_ifs with h₁ h₂ h₃ h₄ h₅ h₆ h₇ h₈
  case pos => subst h₁; rfl
  case pos => subst h₂; rfl
  case pos => subst h₃; rfl
  case pos => subst h₄; rfl
  case pos => subst h₅; rfl
  case pos => subst h₆; rfl
  case pos => subst h₇; rfl
  case pos => exact run_code h₈
  case neg =>
    change (Lexer.stringStep seen { chars := chars } .plain c >>= fun l => some l) = _
    rw [Lexer.stringStep, if_neg h₁, if_neg h₂, if_neg h₈]
    rfl

theorem run_flatMap_escape (cs : List Char) :
    ∀ chars, Lexer.run ⟨seen, .string { chars := chars } .plain⟩ (cs.flatMap escape) =
      some ⟨seen, .string { chars := cs.reverse ++ chars } .plain⟩ := by
  induction cs with
  | nil => intro chars; rfl
  | cons c cs ih =>
    intro chars
    rw [List.flatMap_cons, Lexer.run_append, run_escape, Option.bind_eq_bind, Option.bind_some, ih,
      List.reverse_cons, List.append_assoc]
    rfl

/-- A string is lexed to its text. -/
theorem lexes_quoted (s : String) : Lexes (quoted (some s)) [.leaf (text s)] := by
  apply Lexes.of_between
  intro seen
  have finish : StringSoFar.finish { chars := s.toList.reverse ++ [] } = some s := by
    simp [StringSoFar.finish]
  change (Lexer.run ⟨seen, .string {} .plain⟩ (s.toList.flatMap escape ++ ['"'])) = _
  rw [Lexer.run_append, run_flatMap_escape, Option.bind_eq_bind, Option.bind_some]
  change some (Lexer.mk (.leaf (.string (StringSoFar.finish _)) :: seen) .between) = _
  rw [finish]
  rfl

end Strings

/-! ### Words and numbers -/

theorem lexes_null : Lexes "null".toList [.leaf .null] :=
  fun seen => ⟨⟨seen, .word "llun".toList⟩, rfl, rfl, fun _ _ h => by cases h <;> rfl⟩

theorem lexes_bool (b : Bool) : Lexes (leafText (.bool b)) [.leaf (.bool b)] := by
  cases b with
  | false =>
    exact fun seen => ⟨⟨seen, .word "eslaf".toList⟩, rfl, rfl, fun _ _ h => by cases h <;> rfl⟩
  | true =>
    exact fun seen => ⟨⟨seen, .word "eurt".toList⟩, rfl, rfl, fun _ _ h => by cases h <;> rfl⟩

theorem start_number {c : Char} (h : (c.isDigit || c == '-') = true) (seen : List Token) :
    Lexer.start seen c = some ⟨seen, .number [c]⟩ := by
  have other : ∀ d : Char, (d.isDigit || d == '-') = false → c ≠ d := by
    rintro d hd rfl
    rw [h] at hd
    cases hd
  have solid : Lexer.isSpace c = false := by
    simp only [Lexer.isSpace, Bool.or_eq_false_iff, beq_eq_false_iff_ne]
    exact ⟨⟨⟨other _ rfl, other _ rfl⟩, other _ rfl⟩, other _ rfl⟩
  rw [Lexer.start, solid, if_neg Bool.false_ne_true, if_neg (other _ rfl), if_neg (other _ rfl),
    if_neg (other _ rfl), if_neg (other _ rfl), if_neg (other _ rfl), if_neg (other _ rfl),
    if_neg (other _ rfl), if_pos h]

theorem run_number {seen : List Token} {cs : List Char} (h : ∀ c ∈ cs, isNumberChar c = true) :
    ∀ read, Lexer.run ⟨seen, .number read⟩ cs = some ⟨seen, .number (cs.reverse ++ read)⟩ := by
  induction cs with
  | nil => intro read; rfl
  | cons c cs ih =>
    intro read
    rw [List.forall_mem_cons] at h
    have step : Lexer.step ⟨seen, .number read⟩ c = some ⟨seen, .number (c :: read)⟩ := if_pos h.1
    change (Lexer.step ⟨seen, .number read⟩ c >>= fun l => Lexer.run l cs) = _
    rw [step, Option.bind_eq_bind, Option.bind_some, ih h.2, List.reverse_cons, List.append_assoc]
    rfl

/-- What separates cannot stand in a number. -/
theorem Separates.isNumberChar_eq_false {c : Char} {t : Token} (h : Separates c t) :
    isNumberChar c = false := by
  cases h <;> rfl

theorem isNumberChar_of_isDigit {c : Char} (h : c.isDigit = true) : isNumberChar c = true := by
  simp [isNumberChar, h]

theorem isNumberChar_of_mem_toDigits {n : Nat} {c : Char} (h : c ∈ Nat.toDigits 10 n) :
    isNumberChar c = true :=
  isNumberChar_of_isDigit (isDigit_of_mem_toDigits h)

theorem isNumberChar_of_mem_renderEnd {exponent : Option Int} :
    ∀ c ∈ Number.renderEnd exponent, isNumberChar c = true := by
  cases exponent with
  | none => simp [Number.renderEnd]
  | some e =>
    rw [Number.renderEnd, List.forall_mem_cons, List.forall_mem_cons, toList_toString]
    refine ⟨rfl, ?_, fun c => isNumberChar_of_mem_toDigits⟩
    split <;> rfl

/-- The text of a number is a sign, if there is one, and digits, then perhaps more. -/
theorem exists_render_eq {n : Number} (h : n.WellFormed) : ∃ c cs,
    n.render = (if n.isNegative then ['-'] else []) ++ c :: cs ∧ c.isDigit = true ∧
      ∀ c ∈ cs, isNumberChar c = true := by
  cases n with
  | whole negative m =>
    obtain ⟨c, cs, e⟩ := List.exists_cons_of_ne_nil (Nat.toDigits_ne_nil (n := m) (b := 10))
    rw [Number.render, toList_toString, e]
    refine ⟨c, cs, rfl, isDigit_of_mem_toDigits (e ▸ List.mem_cons_self), fun c hc => ?_⟩
    exact isNumberChar_of_mem_toDigits (e ▸ List.mem_cons_of_mem _ hc)
  | fraction negative l =>
    obtain ⟨c, cs, e⟩ := List.exists_cons_of_ne_nil (Number.ne_nil_of_isWhole h.isWhole)
    have digits := h.whole_digits
    rw [e, List.forall_mem_cons] at digits
    rw [Number.render, Number.render_eq, e, List.cons_append]
    refine ⟨c, _, rfl, digits.1, ?_⟩
    rw [List.forall_mem_append, List.forall_mem_append]
    refine ⟨fun c hc => isNumberChar_of_isDigit (digits.2 c hc), ?_,
      isNumberChar_of_mem_renderEnd⟩
    split
    · simp
    · rw [List.forall_mem_cons]
      exact ⟨rfl, fun c hc => isNumberChar_of_isDigit (h.places_digits c hc)⟩

/-- A number is lexed as it is written. -/
theorem lexes_number {n : Number} (h : n.WellFormed) : Lexes n.render [.leaf (.number n)] := by
  intro seen
  obtain ⟨c, cs, e, start, chars⟩ : ∃ c cs, n.render = c :: cs ∧
      (c.isDigit || c == '-') = true ∧ ∀ c ∈ cs, isNumberChar c = true := by
    obtain ⟨c, cs, e, digit, chars⟩ := exists_render_eq h
    rw [e]
    split
    · refine ⟨'-', c :: cs, rfl, rfl, ?_⟩
      rw [List.forall_mem_cons]
      exact ⟨isNumberChar_of_isDigit digit, chars⟩
    · exact ⟨c, cs, rfl, by rw [digit, Bool.true_or], chars⟩
  have read : Number.read (c :: cs) = some n := e ▸ Number.read_render h
  have close : Lexer.close ⟨seen, .number (cs.reverse ++ [c])⟩ =
      some (.leaf (.number n) :: seen) := by
    rw [Lexer.close]
    simp [read]
  refine ⟨⟨seen, .number (cs.reverse ++ [c])⟩, ?_, close, fun d t hd => ?_⟩
  · rw [e]
    change (Lexer.start seen c >>= fun l => Lexer.run l cs) = _
    rw [start_number start, Option.bind_eq_bind, Option.bind_some, run_number chars]
  · have step : Lexer.step ⟨seen, .number (cs.reverse ++ [c])⟩ d =
        Lexer.close ⟨seen, .number (cs.reverse ++ [c])⟩ >>= fun tokens => Lexer.start tokens d :=
      if_neg (by rw [hd.isNumberChar_eq_false]; exact Bool.false_ne_true)
    rw [step, close]
    exact Lexes.start_of_separates hd _

/-! ### Whole documents -/

theorem lexes_compactItems {items : List Document}
    (h : ∀ d ∈ items, Lexes d.compactChars d.tokensOf) :
    Lexes (compactItems items) (itemTokens items) := by
  induction items with
  | nil => exact Lexes.nil
  | cons d ds ih =>
    rw [List.forall_mem_cons] at h
    cases ds with
    | nil => exact h.1
    | cons d' ds => exact h.1.append .comma (ih h.2)

theorem lexes_compactMembers {members : List (Option String × Document)}
    (named : ∀ m ∈ members, m.1.isSome = true)
    (h : ∀ m ∈ members, Lexes m.2.compactChars m.2.tokensOf) :
    Lexes (compactMembers members) (memberTokens members) := by
  induction members with
  | nil => exact Lexes.nil
  | cons m ms ih =>
    rw [List.forall_mem_cons] at named h
    obtain ⟨name, d⟩ := m
    obtain ⟨s, rfl⟩ := Option.isSome_iff_exists.1 named.1
    have first : Lexes (quoted (some s) ++ ':' :: d.compactChars)
        (.leaf (.string (some s)) :: .colon :: d.tokensOf) :=
      (lexes_quoted s).append .colon h.1
    cases ms with
    | nil => exact first
    | cons m' ms => exact first.append .comma (ih named.2 h.2)

/-- From a text to its tokens. The lexer makes of the text of a legible document its tokens. -/
theorem Legible.lexes {d : Document} (h : d.Legible) : Lexes d.compactChars d.tokensOf := by
  induction h with
  | null => exact lexes_null
  | bool b => exact lexes_bool b
  | number wellFormed hasDouble => exact lexes_number wellFormed
  | text s => exact lexes_quoted s
  | @array items _ ih =>
    rw [compactChars, tokensOf]
    exact .cons (fun _ => rfl) ((lexes_compactItems ih).append .closeArray .nil)
  | @object members named _ ih =>
    rw [compactChars, tokensOf]
    exact .cons (fun _ => rfl) ((lexes_compactMembers named ih).append .closeObject .nil)

/-! ## From the tokens to the document -/

namespace Reader

/-- The first token of a document is not a right bracket. -/
theorem exists_tokensOf_eq_cons (d : Document) : ∃ t ts, d.tokensOf = t :: ts ∧
    ∀ slots, step (.firstItem slots) t = step (.value (.item [] :: slots)) t := by
  cases d with
  | null | bool b | number n | string s => exact ⟨_, _, rfl, fun _ => rfl⟩
  | array items => exact ⟨.openArray, _, by rw [tokensOf]; rfl, fun _ => rfl⟩
  | object members => exact ⟨.openObject, _, by rw [tokensOf]; rfl, fun _ => rfl⟩

/-- Reads the items of an array that has some. -/
theorem run_itemTokens {d : Document} {ds : List Document} {slots : List Slot}
    (h : ∀ c ∈ d :: ds, ∀ slots, run (.value slots) c.tokensOf = some (fill c slots)) :
    ∀ done, run (.value (.item done :: slots)) (itemTokens (d :: ds)) =
      some (.afterItem ((d :: ds).reverse ++ done) slots) := by
  induction ds generalizing d with
  | nil =>
    intro done
    exact h d List.mem_cons_self _
  | cons d' ds ih =>
    intro done
    rw [List.forall_mem_cons] at h
    change run _ (d.tokensOf ++ .comma :: itemTokens (d' :: ds)) = _
    rw [run_append, h.1, Option.bind_eq_bind, Option.bind_some]
    change run (.value (.item (d :: done) :: slots)) (itemTokens (d' :: ds)) = _
    rw [ih h.2, List.reverse_cons (a := d), List.append_assoc]
    rfl

/-- Reads the members of an object that has some. -/
theorem run_memberTokens {m : Option String × Document} {ms : List (Option String × Document)}
    {slots : List Slot}
    (h : ∀ c ∈ m :: ms, ∀ slots, run (.value slots) c.2.tokensOf = some (fill c.2 slots)) :
    ∀ done, run (.nextName done slots) (memberTokens (m :: ms)) =
      some (.afterMember ((m :: ms).reverse ++ done) slots) := by
  induction ms generalizing m with
  | nil =>
    intro done
    exact h m List.mem_cons_self _
  | cons m' ms ih =>
    intro done
    rw [List.forall_mem_cons] at h
    change run (.value (.member done m.1 :: slots))
      (m.2.tokensOf ++ .comma :: memberTokens (m' :: ms)) = _
    rw [run_append, h.1, Option.bind_eq_bind, Option.bind_some]
    change run (.nextName (m :: done) slots) (memberTokens (m' :: ms)) = _
    rw [ih h.2, List.reverse_cons (a := m), List.append_assoc]
    rfl

/-- Reads an array. -/
theorem run_array {items : List Document}
    (h : ∀ d ∈ items, ∀ slots, run (.value slots) d.tokensOf = some (fill d slots))
    (slots : List Slot) :
    run (.value slots) (tokensOf (.array items)) = some (fill (.array items) slots) := by
  rw [tokensOf]
  cases items with
  | nil => rfl
  | cons d ds =>
    change run (.firstItem slots) (itemTokens (d :: ds) ++ [.closeArray]) = _
    -- the first item is read as any other one
    have first : run (.firstItem slots) (itemTokens (d :: ds)) =
        run (.value (.item [] :: slots)) (itemTokens (d :: ds)) := by
      obtain ⟨t, ts, e, same⟩ := exists_tokensOf_eq_cons d
      obtain ⟨rest, e'⟩ : ∃ rest, itemTokens (d :: ds) = t :: rest := by
        cases ds with
        | nil => exact ⟨ts, e⟩
        | cons d' ds =>
          refine ⟨ts ++ .comma :: itemTokens (d' :: ds), ?_⟩
          change d.tokensOf ++ .comma :: itemTokens (d' :: ds) = _
          rw [e, List.cons_append]
      rw [e']
      exact congrArg (· >>= fun r => run r rest) (same slots)
    rw [run_append, first, run_itemTokens h, Option.bind_eq_bind, Option.bind_some, List.append_nil]
    change some (fill (.array (d :: ds).reverse.reverse) slots) = _
    rw [List.reverse_reverse]

/-- Reads an object. -/
theorem run_object {members : List (Option String × Document)}
    (h : ∀ m ∈ members, ∀ slots, run (.value slots) m.2.tokensOf = some (fill m.2 slots))
    (slots : List Slot) :
    run (.value slots) (tokensOf (.object members)) = some (fill (.object members) slots) := by
  rw [tokensOf]
  cases members with
  | nil => rfl
  | cons m ms =>
    change run (.firstName slots) (memberTokens (m :: ms) ++ [.closeObject]) = _
    -- the first name is read as any other one
    have first : run (.firstName slots) (memberTokens (m :: ms)) =
        run (.nextName [] slots) (memberTokens (m :: ms)) := by
      cases ms <;> rfl
    rw [run_append, first, run_memberTokens h, Option.bind_eq_bind, Option.bind_some,
      List.append_nil]
    change some (fill (.object (m :: ms).reverse.reverse) slots) = _
    rw [List.reverse_reverse]

end Reader

/-- From the tokens to the document. The reader makes of the tokens of a legible document that
document, wherever it stands. -/
theorem Legible.run_tokensOf {d : Document} (h : d.Legible) :
    ∀ slots, Reader.run (.value slots) d.tokensOf = some (Reader.fill d slots) := by
  induction h with
  | null | bool b | number _ _ | text s => exact fun _ => rfl
  | array _ ih => exact Reader.run_array ih
  | object _ _ ih => exact Reader.run_object ih

/-- Main theorem: documents are read as they are written. The text of a legible document is read
as that document. -/
theorem Legible.read_compactChars {d : Document} (h : d.Legible) :
    read d.compactChars = some d := by
  rw [read, h.lexes.tokens_eq]
  change ofTokens d.tokensOf = some d
  rw [ofTokens, h.run_tokensOf []]
  rfl

end StrategyTree.Document
