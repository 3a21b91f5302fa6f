import CoScript.Proofs.Parse.Takes
import CoScript.Proofs.Print.Legible

/-!
# What begins and what goes on

An expression goes on as long as the next lexeme can belong to it. How tightly a lexeme would be
drawn to what stands before it is a level, so that an expression of some level ends before every
lexeme that is drawn less.

Results:
* `Shape.pull`, `Stops`: how tightly a lexeme is drawn to what stands before it.
* `Expr.shapes_begin`: the lexemes that an expression begins with.
-/

namespace CoScript

open Shape

/-! ## First shapes -/

@[simp] theorem firstOf_cons (s : Shape) (l : List Shape) : firstOf (s :: l) = s := rfl

theorem firstOf_append {l : List Shape} (h : l ≠ []) (k : List Shape) :
    firstOf (l ++ k) = firstOf l := by
  cases l with
  | nil => exact absurd rfl h
  | cons s r => rfl

/-! ## Words -/

/-- The lexeme of a text reads as the text where any word may stand. -/
@[simp] theorem Lexer.wordLexeme_word (s : String) : (wordLexeme s.toList).word? = some s := by
  unfold wordLexeme
  simp only [String.ofList_toList]
  cases h : Keyword.ofText? s with
  | none => rfl
  | some k => simpa [Lexeme.word?] using List.find?_some h

theorem isMark_of_word {l : Lexeme} {s : String} (h : l.word? = some s) (m : Mark) :
    l.isMark m = false := by
  cases l with
  | mark => simp [Lexeme.word?] at h
  | _ => rfl

theorem Lexeme.word_of_name {l : Lexeme} {s : String} (h : l.name? = some s) :
    l.word? = some s := by
  cases l with
  | keyword k =>
    simp only [Lexeme.name?] at h
    split at h
    · exact h
    · simp at h
  | identifier name => exact h
  | _ => simp [Lexeme.name?] at h

/-- The lexeme of a name reads as the name where a name is expected. -/
theorem Lexer.wordLexeme_name {s : String} (h : isName s) :
    (wordLexeme s.toList).name? = some s := by
  unfold isName at h
  rw [Bool.and_eq_true] at h
  obtain ⟨n, hn⟩ := Option.isSome_iff_exists.mp h.2
  have hword := Lexeme.word_of_name hn
  rw [wordLexeme_word] at hword
  rw [hn, ← Option.some.inj hword]

/-! ## Levels of attraction -/

/-- How tightly a mark is drawn to an expression before it. Some marks are drawn only on the line of
    the expression. -/
def Mark.pull (afterBreak : Bool) (m : Mark) : ℕ :=
  match m with
  | .dot => callLevel
  | .openParen | .openBracket => if afterBreak then 0 else callLevel
  | .increment | .decrement => if afterBreak then 0 else postfixLevel
  | .question => conditionalLevel
  | .arrow | .bar | .ampersand => primaryLevel
  | m =>
    match BinaryOp.ofMark? m with
    | some op => op.level
    | none => if (AssignOp.ofMark? m).isSome then assignmentLevel else 0

/-- How tightly a lexeme is drawn to an expression before it. A name or `function` on the same line
    is drawn most: after `async` it would belong to a function. -/
def Shape.pull (s : Shape) : ℕ :=
  match s.lexeme with
  | .mark m => m.pull s.afterBreak
  | .keyword .functionWord => if s.afterBreak then 0 else primaryLevel
  | l => if l.name?.isSome && !s.afterBreak then primaryLevel else 0

/-- What comes next does not belong to an expression of a level that stands before it. -/
def Stops (level : ℕ) (k : List Shape) : Prop :=
  (firstOf k).pull < level

theorem Stops.mark {level : ℕ} {m : Mark} {k : List Shape} (h : m.pull false < level) :
    Stops level (mark m :: k) := h

theorem Stops.mono {m n : ℕ} {k : List Shape} (h : Stops m k) (hmn : m ≤ n) : Stops n k :=
  Nat.lt_of_lt_of_le h hmn

/-! ## Beginnings -/

/-- The lexemes that an expression may begin with. -/
def Lexeme.begins : Lexeme → Bool
  | .identifier _ | .number _ | .string _ => true
  | .keyword .thisWord | .keyword .trueWord | .keyword .falseWord | .keyword .nullWord
  | .keyword .newWord | .keyword .superWord | .keyword .awaitWord | .keyword .voidWord
  | .keyword .functionWord => true
  | .keyword k => k.isContextual
  | .mark .openParen | .mark .openBracket | .mark .openBrace | .mark .bang | .mark .minus
  | .mark .plus | .mark .increment | .mark .decrement => true
  | _ => false

/-- The lexemes that a statement may begin with, and those that end a list of statements. -/
def Lexeme.isFresh : Lexeme → Bool
  | .identifier _ | .number _ | .string _ | .endOfInput => true
  | .keyword .catchWord | .keyword .finallyWord => false
  | .keyword _ => true
  | .mark .openParen | .mark .openBracket | .mark .openBrace | .mark .bang | .mark .increment
  | .mark .decrement | .mark .closeBrace => true
  | .mark _ => false

theorem Lexeme.begins_of_name {l : Lexeme} {s : String} (h : l.name? = some s) : l.begins := by
  cases l with
  | keyword k => cases k <;> simp_all [Lexeme.name?, Keyword.isContextual, Lexeme.begins]
  | identifier name => rfl
  | _ => simp [Lexeme.name?] at h

theorem Lexeme.isMark_of_begins {l : Lexeme} (h : l.begins) {m : Mark}
    (hm : (Lexeme.mark m).begins = false) : l.isMark m = false := by
  rw [Bool.eq_false_iff]
  intro his
  rw [Parser.lexeme_of_isMark his, hm] at h
  exact Bool.false_ne_true h

/-- What shapes begin with: a lexeme of an expression, with a line break before it or not. -/
def Begins (l : List Shape) (b : Bool) : Prop :=
  ∃ s r, l = s :: r ∧ s.lexeme.begins ∧ s.afterBreak = b

theorem Begins.append {l : List Shape} {b : Bool} (h : Begins l b) (k : List Shape) :
    Begins (l ++ k) b := by
  obtain ⟨s, r, rfl, hs, hb⟩ := h
  exact ⟨s, r ++ k, rfl, hs, hb⟩

theorem Begins.parens {l : Bool → List Shape} {b : Bool} (needed : Bool) (h : Begins (l b) b) :
    Begins (parens needed l b) b := by
  unfold Shape.parens
  split
  · exact ⟨_, _, rfl, rfl, rfl⟩
  · exact h

theorem Begins.afterAsync {isAsync : Bool} {x : Lexeme} {b : Bool} (h : x.begins)
    (l : List Shape) : Begins (afterAsync isAsync x b ++ l) b := by
  cases isAsync with
  | true => exact ⟨_, _, rfl, rfl, rfl⟩
  | false => exact ⟨_, _, rfl, h, rfl⟩

/-- An object that stands without parentheses before a member. -/
theorem Expr.callLevel_le_of_object {e : Expr} (h : e.needsObjectParens = false) :
    callLevel ≤ e.level := by
  unfold needsObjectParens at h
  split at h
  · simp at h
  · exact Nat.not_lt.mp (of_decide_eq_false h)

/-- A target stands without parentheses. -/
theorem Expr.callLevel_le_of_isTarget {e : Expr} (h : e.isTarget) : callLevel ≤ e.level := by
  cases e with
  | name => exact Nat.le_succ _
  | member | index => exact Nat.le_refl _
  | _ => simp [isTarget] at h

/-- The operand that the text of an expression begins with, unless that is a parenthesis. -/
def Expr.lead : Expr → Option Expr
  | .binary _ op left _ => if left.level < op.level then none else left.lead
  | .update _ _ false target => if target.level < callLevel then none else target.lead
  | .assign _ _ target _ => if target.level < callLevel then none else target.lead
  | .conditional _ condition _ _ =>
    if condition.level < conditionalLevel + 1 then none else condition.lead
  | .call _ callee _ => if callee.level < callLevel then none else callee.lead
  | .member _ obj _ | .index _ obj _ => if obj.needsObjectParens then none else obj.lead
  | e => some e

/-- Whether the text of an expression begins with a lexeme of its own. -/
def Expr.isLead : Expr → Bool
  | .binary .. | .update _ _ false _ | .assign .. | .conditional .. | .call .. | .member ..
  | .index .. => false
  | _ => true

/-- An expression `e` goes on after the operand `x` that it begins with, by a mark. -/
def Expr.Extends (e x : Expr) (b : Bool) : Prop :=
  (∀ s, e.Formed s → x.Formed s) ∧
    ∃ t m l, e.text = x.text ++ t ∧ e.shapes b = x.shapes b ++ mark m :: l

/-- What an expression begins with: a parenthesis, or an operand. -/
def Expr.LeadsWith (e : Expr) (b : Bool) : Option Expr → Prop
  | none => ∃ t l, e.text = "(" ++ t ∧ e.shapes b = ⟨.mark .openParen, b⟩ :: l
  | some x => x.isLead ∧ e.level ≤ x.level ∧ (e = x ∨ e.Extends x b)

theorem Expr.LeadsWith.step {e y : Expr} {b : Bool} (needed : Bool) {t : String} {m : Mark}
    {l : List Shape} (hlead : e.lead = if needed then none else y.lead)
    (hlevel : needed = false → e.level ≤ y.level) (hformed : ∀ s, e.Formed s → y.Formed s)
    (htext : e.text = Text.parens needed y.text ++ t)
    (hshapes : e.shapes b = parens needed y.shapes b ++ mark m :: l)
    (ih : y.LeadsWith b y.lead) : e.LeadsWith b e.lead := by
  rw [hlead]
  cases needed with
  | true =>
    refine ⟨y.text ++ ")" ++ t, _, ?_, hshapes⟩
    simp only [htext, Text.parens, if_true, String.append_assoc]
  | false =>
    simp only [Bool.false_eq_true, if_false, Text.parens, parens] at htext hshapes ⊢
    cases hy : y.lead with
    | none =>
      rw [hy] at ih
      obtain ⟨t', r, ht', hr⟩ := ih
      refine ⟨t' ++ t, _, ?_, by rw [hshapes, hr]; rfl⟩
      rw [htext, ht', String.append_assoc]
    | some x =>
      rw [hy] at ih
      obtain ⟨hx, hle, rfl | ⟨hxformed, t', m', l', htext', hshapes'⟩⟩ := ih
      · exact ⟨hx, hlevel rfl, .inr ⟨hformed, t, m, l, htext, hshapes⟩⟩
      · refine ⟨hx, Nat.le_trans (hlevel rfl) hle,
          .inr ⟨fun s hs => hxformed s (hformed s hs), t' ++ t, m',
          l' ++ mark m :: l, ?_, ?_⟩⟩
        · rw [htext, htext', String.append_assoc]
        · rw [hshapes, hshapes', List.append_assoc, List.cons_append]

/-- Every expression begins with its lead. -/
theorem Expr.leadsWith (b : Bool) : ∀ e : Expr, e.LeadsWith b e.lead
  | .binary _ op left right => by
    refine .step (decide (left.level < op.level)) (by simp [Expr.lead])
      (fun hneeded => Nat.not_lt.mp (of_decide_eq_false hneeded)) (fun s hs => ?_)
      (by simp only [Expr.text, String.append_assoc]; rfl) (by rw [Expr.shapes]) (left.leadsWith b)
    rw [Expr.Formed] at hs
    exact hs.1
  | .update _ op true target => ⟨rfl, Nat.le_refl _, .inl rfl⟩
  | .update _ op false target => by
    refine .step (decide (target.level < callLevel)) (by simp [Expr.lead])
      (fun hneeded => Nat.le_trans (Nat.le_succ postfixLevel)
        (Nat.not_lt.mp (of_decide_eq_false hneeded)))
      (fun s hs => ?_)
      (by simp only [Expr.text, Bool.false_eq_true, if_false]; rfl)
      (by simp only [Expr.shapes, Bool.false_eq_true, if_false]; rfl) (target.leadsWith b)
    rw [Expr.Formed] at hs
    exact hs.2
  | .assign _ op target value => by
    refine .step (decide (target.level < callLevel)) (by simp [Expr.lead])
      (fun hneeded => Nat.le_trans (Nat.le_add_left 1 10)
        (Nat.not_lt.mp (of_decide_eq_false hneeded)))
      (fun s hs => ?_)
      (by simp only [Expr.text, String.append_assoc]; rfl) (by rw [Expr.shapes])
      (target.leadsWith b)
    rw [Expr.Formed] at hs
    exact hs.2.1
  | .conditional _ condition thenValue elseValue => by
    refine .step (decide (condition.level < conditionalLevel + 1)) (by simp [Expr.lead])
      (fun hneeded => Nat.le_of_succ_le (Nat.not_lt.mp (of_decide_eq_false hneeded)))
      (fun s hs => ?_) (by simp only [Expr.text, String.append_assoc]; rfl)
      (by simp only [Expr.shapes, List.append_assoc, List.cons_append]; rfl) (condition.leadsWith b)
    rw [Expr.Formed] at hs
    exact hs.1
  | .call _ callee args => by
    refine .step (decide (callee.level < callLevel)) (by simp [Expr.lead])
      (fun hneeded => Nat.not_lt.mp (of_decide_eq_false hneeded)) (fun s hs => ?_)
      (by simp only [Expr.text, String.append_assoc]; rfl)
      (by simp only [Expr.shapes, List.append_assoc, List.cons_append]; rfl) (callee.leadsWith b)
    rw [Expr.Formed] at hs
    exact hs.1
  | .member _ obj attr => by
    refine .step obj.needsObjectParens (by rw [Expr.lead]) Expr.callLevel_le_of_object
      (fun s hs => ?_)
      (by simp only [Expr.text, String.append_assoc]; rfl) (by rw [Expr.shapes]) (obj.leadsWith b)
    rw [Expr.Formed] at hs
    exact hs.1
  | .index _ obj key => by
    refine .step obj.needsObjectParens (by rw [Expr.lead]) Expr.callLevel_le_of_object
      (fun s hs => ?_)
      (by simp only [Expr.text, String.append_assoc]; rfl)
      (by simp only [Expr.shapes, List.append_assoc, List.cons_append]; rfl) (obj.leadsWith b)
    rw [Expr.Formed] at hs
    exact hs.1
  | .literal .. | .name .. | .this .. | .array .. | .object .. | .unary .. | .construct ..
  | .superCall .. | .await .. | .arrow .. | .function .. => ⟨rfl, Nat.le_refl _, .inl rfl⟩

/-- What an expression begins with. -/
theorem Expr.shapes_begin (e : Expr) {s : Site} (b : Bool) (h : e.Formed s) :
    Begins (e.shapes b) b := by
  have hspec := e.leadsWith b
  cases hlead : e.lead with
  | none =>
    rw [hlead] at hspec
    obtain ⟨-, l, -, hl⟩ := hspec
    exact ⟨_, _, hl, rfl, rfl⟩
  | some x =>
    rw [hlead] at hspec
    obtain ⟨hx, -, hex⟩ := hspec
    have hbegins (hformed : x.Formed s) : Begins (x.shapes b) b := by
      cases x with
      | literal _ value =>
        refine ⟨_, _, rfl, ?_, rfl⟩
        cases value with
        | bool v => cases v <;> rfl
        | _ => rfl
      | name _ ident =>
        rw [Expr.Formed] at hformed
        exact ⟨_, _, rfl, Lexeme.begins_of_name (Lexer.wordLexeme_name hformed), rfl⟩
      | unary _ op =>
        refine ⟨_, _, rfl, ?_, rfl⟩
        cases op <;> rfl
      | update _ op before target =>
        cases before with
        | true =>
          refine ⟨_, _, rfl, ?_, rfl⟩
          cases op <;> rfl
        | false => simp [Expr.isLead] at hx
      | arrow | function =>
        simp only [Expr.shapes, List.append_assoc]
        exact .afterAsync rfl _
      | this | array | object | construct | superCall | await => exact ⟨_, _, rfl, rfl, rfl⟩
      | _ => simp [Expr.isLead] at hx
    obtain rfl | ⟨hformed, -, m, l, -, hl⟩ := hex
    · exact hbegins h
    · rw [hl]
      exact (hbegins (hformed s h)).append _

/-! ## Lexemes that are drawn less -/

namespace Shape

variable {s : Shape}

theorem precedence_lt_of_pull {level : ℕ} {op : BinaryOp} (h : s.pull < level + 2)
    (hop : Grammar.binaryOp? s.lexeme = some op) : op.precedence < level := by
  obtain ⟨l, b⟩ := s
  cases l with
  | mark m =>
    have hm := List.find?_some hop
    obtain rfl := of_decide_eq_true hm
    have hpull : Shape.pull ⟨.mark op.mark, b⟩ = op.level := by cases op <;> rfl
    rw [hpull, BinaryOp.level, conditionalLevel] at h
    omega
  | _ => simp [Grammar.binaryOp?] at hop

theorem assignOp_of_pull (h : s.pull < assignmentLevel) : Grammar.assignOp? s.lexeme = none := by
  obtain ⟨l, b⟩ := s
  cases l with
  | mark m =>
    cases hop : AssignOp.ofMark? m with
    | none => simpa [Grammar.assignOp?] using hop
    | some op =>
      have hm := List.find?_some hop
      obtain rfl := of_decide_eq_true hm
      have hpull : Shape.pull ⟨.mark op.mark, b⟩ = assignmentLevel := by cases op <;> rfl
      omega
  | _ => rfl

theorem isMark_of_pull {level : ℕ} {m : Mark} (h : s.pull < level)
    (hm : ∀ b, level ≤ m.pull b) : s.lexeme.isMark m = false := by
  rw [Bool.eq_false_iff]
  intro his
  have hl := Parser.lexeme_of_isMark his
  have := hm s.afterBreak
  rw [Shape.pull, hl] at h
  dsimp only at h
  omega

/-- A mark that is drawn on the line of the expression only is not on that line. -/
theorem afterBreak_of_pull {level : ℕ} {m : Mark} (h : s.pull < level)
    (hm : level ≤ m.pull false) (his : s.lexeme = .mark m) : s.afterBreak = true := by
  cases hb : s.afterBreak with
  | true => rfl
  | false =>
    rw [Shape.pull, his, hb] at h
    dsimp only at h
    omega

theorem afterBreak_of_name {level : ℕ} (h : s.pull < level) (hlevel : level ≤ primaryLevel)
    (hname : s.lexeme.name?.isSome) : s.afterBreak = true := by
  obtain ⟨l, b⟩ := s
  cases b with
  | true => rfl
  | false =>
    have hpull : Shape.pull ⟨l, false⟩ = primaryLevel := by
      cases l with
      | keyword k => cases k <;> first | rfl | simp [Lexeme.name?, Keyword.isContextual] at hname
      | identifier name => rfl
      | _ => simp [Lexeme.name?] at hname
    omega

theorem afterBreak_of_function {level : ℕ} (h : s.pull < level) (hlevel : level ≤ primaryLevel)
    (hl : s.lexeme = .keyword .functionWord) : s.afterBreak = true := by
  obtain ⟨l, b⟩ := s
  cases b with
  | true => rfl
  | false =>
    dsimp only at hl
    subst hl
    have hpull : Shape.pull ⟨.keyword .functionWord, false⟩ = primaryLevel := rfl
    omega

end Shape

end CoScript
