import CoScript.Proofs.Print.Follow

/-!
# How statements begin

An expression that would be taken for another statement, or for the rest of the line before, stands
in parentheses where it is a statement. So the first lexeme of a statement tells what it is, and
none is drawn to the statement before it.

Results:
* `Expr.opening_of_plain`: what an expression statement without parentheses begins with.
* `Stmt.shapes_opening`: what a statement begins with.
-/

namespace CoScript

open Text Shape

/-! ## Texts -/

theorem Decimal.magnitudeText_ne_nil (f : Format) (b : Binary) : magnitudeText f b ≠ [] := by
  unfold magnitudeText
  split
  · exact Nat.toDigits_ne_nil
  · dsimp only
    split
    · unfold pointText
      dsimp only
      split
      · simp
      · split <;> simp
    · unfold exponentText
      simp

theorem Decimal.numberText_ne_empty (x : Float) : numberText x ≠ "" := by
  unfold numberText Format.text
  split
  · split
    · decide
    · split <;> decide
  · split
    · decide
    · dsimp only
      split <;> simp [String.ofList_eq_empty_iff, magnitudeText_ne_nil]

theorem ne_empty_of_isWord {s : String} (h : isWord s) : s ≠ "" := by
  rintro rfl
  simp [isWord] at h

/-- No expression has an empty text. -/
theorem Expr.text_ne_empty (e : Expr) {s : Site} (h : e.Formed s) : e.text ≠ "" := by
  have hspec := e.leadsWith false
  cases hlead : e.lead with
  | none =>
    rw [hlead] at hspec
    obtain ⟨t, -, ht, -⟩ := hspec
    simp [ht]
  | some x =>
    rw [hlead] at hspec
    obtain ⟨hx, -, hex⟩ := hspec
    have hleaf (hformed : x.Formed s) : x.text ≠ "" := by
      cases x with
      | literal _ value =>
        cases value with
        | number v => exact Decimal.numberText_ne_empty v
        | string v => simp [Expr.text, Literal.text, quote, String.ofList_eq_empty_iff]
        | bool v => cases v <;> simp [Expr.text, Literal.text]
        | null => simp [Expr.text, Literal.text]
      | name _ ident =>
        rw [Expr.Formed] at hformed
        exact ne_empty_of_isWord (isWord_of_isName hformed)
      | unary _ op =>
        simp only [Expr.text, unaryText]
        split <;> cases op <;> simp [UnaryOp.text]
      | update _ op before target =>
        cases before with
        | true => cases op <;>
          simp [Expr.text, UpdateOp.text, UpdateOp.mark, Mark.text, Mark.spelling]
        | false => simp [Expr.isLead] at hx
      | _ => simp [Expr.text, braces, Expr.isLead] at *
    obtain rfl | ⟨hformed, t, -, -, ht, -⟩ := hex
    · exact hleaf h
    · rw [ht, Ne, String.append_eq_empty_iff]
      exact fun hempty => hleaf (hformed s h) hempty.1

/-! ## Expression statements -/

theorem needsStatementParens_of_startsWith {start t : String}
    (h : start = "\x7b" ∨ start = "function" ∨ start = "async function") :
    needsStatementParens (start ++ t) = true := by
  have hstart : startsWith (start ++ t) start = true := by
    unfold startsWith
    rw [List.isPrefixOf_iff_prefix, String.toList_append]
    exact List.prefix_append _ _
  unfold needsStatementParens
  obtain rfl | rfl | rfl := h
  · simp [hstart]
  · simp [hstart]
  · simp [hstart]

/-- A sign that is not doubled would continue the line before. -/
theorem needsStatementParens_of_sign {sign s : String} (hsign : sign = "-" ∨ sign = "+")
    (hs : s ≠ "") (h : startsWith s sign = false) (t : String) :
    needsStatementParens (sign ++ s ++ t) = true := by
  obtain ⟨c, r, hr⟩ : ∃ c r, s.toList = c :: r := by
    cases hs' : s.toList with
    | nil => exact absurd (String.toList_eq_nil_iff.mp hs') hs
    | cons c r => exact ⟨c, r, rfl⟩
  unfold needsStatementParens
  obtain rfl | rfl := hsign
  · have hone : startsWith ("-" ++ s ++ t) "-" = true := by
      simp [startsWith, String.toList_append, List.isPrefixOf]
    have htwo : startsWith ("-" ++ s ++ t) "--" = false := by
      simpa [startsWith, String.toList_append, hr, List.isPrefixOf] using h
    simp [hone, htwo]
  · have hone : startsWith ("+" ++ s ++ t) "+" = true := by
      simp [startsWith, String.toList_append, List.isPrefixOf]
    have htwo : startsWith ("+" ++ s ++ t) "++" = false := by
      simpa [startsWith, String.toList_append, hr, List.isPrefixOf] using h
    simp [hone, htwo]

/-- A signed operand starts no statement without parentheses. -/
theorem needsStatementParens_sign {op : UnaryOp} {s : String} (hop : op = .negate ∨ op = .plus)
    (hs : s ≠ "") (t : String) : needsStatementParens (unaryText op s ++ t) = true := by
  have hsign : op.text = "-" ∨ op.text = "+" := by
    obtain rfl | rfl := hop
    · exact .inl rfl
    · exact .inr rfl
  unfold unaryText
  split
  · rw [@String.append_assoc op.text]
    refine needsStatementParens_of_sign hsign (by simp) ?_ t
    obtain h | h := hsign
    · simp [h, startsWith, String.toList_append, List.isPrefixOf]
    · simp [h, startsWith, String.toList_append, List.isPrefixOf]
  · rename_i hcond
    rw [Bool.or_eq_true, not_or, Bool.not_eq_true, Bool.not_eq_true] at hcond
    exact needsStatementParens_of_sign hsign hs hcond.2 t

/-- What an expression without parentheses begins with where it is a statement. A name in front is
    the whole expression, or a mark follows it. -/
def Expr.Opens (e : Expr) (b : Bool) : Prop :=
  ∃ x r, e.shapes b = x :: r ∧ x.afterBreak = b ∧ x.lexeme.begins ∧ x.lexeme.isFresh ∧
    x.lexeme ≠ .mark .openBrace ∧ x.lexeme ≠ .keyword .functionWord ∧
    (x.lexeme.name?.isSome →
      (∃ p ident, e = .name p ident ∧ r = []) ∨ ∃ m r', r = mark m :: r')

theorem Lexeme.isFresh_of_name {l : Lexeme} {s : String} (h : l.name? = some s) :
    l.isFresh ∧ l ≠ .mark .openBrace ∧ l ≠ .keyword .functionWord := by
  cases l with
  | keyword k => cases k <;> simp_all [Lexeme.name?, Keyword.isContextual, Lexeme.isFresh]
  | identifier name => simp [isFresh]
  | _ => simp [Lexeme.name?] at h

theorem Expr.opens_of_isLead {x : Expr} {s : Site} (b : Bool) (hx : x.isLead) (h : x.Formed s)
    {t : String} (hplain : needsStatementParens (x.text ++ t) = false) : x.Opens b := by
  cases x with
  | literal _ value =>
    refine ⟨_, _, rfl, rfl, ?_⟩
    cases value with
    | bool v => cases v <;>
      simp [Literal.lexeme, Lexeme.begins, Lexeme.isFresh, Lexeme.name?, Keyword.isContextual]
    | _ => simp [Literal.lexeme, Lexeme.begins, Lexeme.isFresh, Lexeme.name?, Keyword.isContextual]
  | name p ident =>
    rw [Expr.Formed] at h
    have hname := Lexer.wordLexeme_name h
    obtain ⟨hfresh, hbrace, hfunction⟩ := Lexeme.isFresh_of_name hname
    exact ⟨_, _, rfl, rfl, Lexeme.begins_of_name hname, hfresh, hbrace, hfunction,
      fun _ => .inl ⟨p, ident, rfl, rfl⟩⟩
  | object =>
    rw [Expr.text, braces, String.append_assoc, String.append_assoc,
      needsStatementParens_of_startsWith (.inl rfl)] at hplain
    cases hplain
  | unary _ op operand =>
    rw [Expr.Formed] at h
    cases op with
    | not | discard =>
      refine ⟨_, _, rfl, rfl, rfl, rfl, ?_, ?_, ?_⟩ <;>
        simp [UnaryOp.lexeme, Lexeme.name?, Keyword.isContextual]
    | negate | plus =>
      rw [Expr.text, needsStatementParens_sign (by simp)] at hplain
      · cases hplain
      · unfold Text.parens
        split
        · simp
        · exact operand.text_ne_empty h
  | update _ op before target =>
    cases before with
    | true =>
      refine ⟨_, _, rfl, rfl, ?_⟩
      cases op <;> simp [UpdateOp.mark, Lexeme.begins, Lexeme.isFresh, Lexeme.name?]
    | false => simp [Expr.isLead] at hx
  | arrow _ params body isAsync =>
    cases isAsync with
    | true =>
      simp only [Expr.Opens, Expr.shapes, afterAsync, if_true, List.cons_append]
      exact ⟨_, _, rfl, rfl, rfl, rfl, by simp, by simp, fun _ => .inr ⟨_, _, rfl⟩⟩
    | false =>
      simp only [Expr.Opens, Expr.shapes, afterAsync, Bool.false_eq_true, if_false,
        List.cons_append]
      exact ⟨_, _, rfl, rfl, rfl, rfl, by simp, by simp, fun h => absurd h (by simp [Lexeme.name?])⟩
  | function _ name params body isAsync generics =>
    cases isAsync with
    | true =>
      have hstart : ("async " : String) ++ "function" = "async function" := by decide
      simp only [Expr.text, asyncText, if_true, hstart] at hplain
      simp only [String.append_assoc] at hplain
      rw [needsStatementParens_of_startsWith (.inr (.inr rfl))] at hplain
      cases hplain
    | false =>
      simp only [Expr.text, asyncText, Bool.false_eq_true, if_false, String.empty_append,
        String.append_assoc] at hplain
      rw [needsStatementParens_of_startsWith (.inr (.inl rfl))] at hplain
      cases hplain
  | this | array | construct | superCall | await =>
    exact ⟨_, _, rfl, rfl, rfl, rfl, by simp, by simp,
      fun h => absurd h (by simp [Lexeme.name?, Keyword.isContextual])⟩
  | _ => simp [Expr.isLead] at hx

/-- What an expression without parentheses begins with where it is a statement. -/
theorem Expr.opens_of_plain {e : Expr} {s : Site} (b : Bool) (h : e.Formed s)
    (hplain : needsStatementParens e.text = false) : e.Opens b := by
  have hspec := e.leadsWith b
  cases hlead : e.lead with
  | none =>
    rw [hlead] at hspec
    obtain ⟨t, l, -, hl⟩ := hspec
    exact ⟨_, _, hl, rfl, rfl, rfl, by simp, by simp, fun h => absurd h (by simp [Lexeme.name?])⟩
  | some x =>
    rw [hlead] at hspec
    obtain ⟨hx, -, rfl | ⟨hformed, t, m, l, ht, hl⟩⟩ := hspec
    · exact Expr.opens_of_isLead b hx h (t := "") (by rwa [String.append_empty])
    · rw [ht] at hplain
      obtain ⟨y, r, hshapes, hb, hbegins, hfresh, hbrace, hfunction, hname⟩ :=
        Expr.opens_of_isLead b hx (hformed s h) hplain
      refine ⟨y, r ++ mark m :: l, by rw [hl, hshapes]; rfl, hb, hbegins, hfresh, hbrace, hfunction,
        fun hsome => .inr ?_⟩
      obtain ⟨-, -, -, rfl⟩ | ⟨m', r', rfl⟩ := hname hsome
      · exact ⟨m, l, rfl⟩
      · exact ⟨m', _, rfl⟩

/-! ## Statements -/

/-- The lexemes that a statement may begin with. -/
def Lexeme.startsStmt : Lexeme → Bool
  | .mark .closeBrace | .endOfInput => false
  | .keyword .elseWord | .keyword .caseWord | .keyword .defaultWord => false
  | l => l.isFresh

theorem Lexeme.isFresh_of_startsStmt {l : Lexeme} (h : l.startsStmt) : l.isFresh := by
  unfold startsStmt at h
  split at h
  all_goals first | exact h | cases h

theorem Lexeme.startsStmt_of_begins {l : Lexeme} (hbegins : l.begins) (hfresh : l.isFresh) :
    l.startsStmt := by
  cases l with
  | keyword k => cases k <;> simp_all [begins, isFresh, startsStmt, Keyword.isContextual]
  | mark m => cases m <;> simp_all [begins, isFresh, startsStmt]
  | endOfInput => cases hbegins
  | _ => rfl

/-- A statement on a new line is not drawn to what stands before it. -/
theorem Shape.pull_of_isFresh {s : Shape} (h : s.lexeme.isFresh) (hb : s.afterBreak = true) :
    s.pull = 0 := by
  obtain ⟨l, b⟩ := s
  dsimp only at hb h
  subst hb
  cases l with
  | keyword k => cases k <;> simp [pull]
  | mark m => cases m <;> first | rfl | cases h
  | _ => simp [pull]

/-- What a statement begins with. -/
theorem Stmt.shapes_opening (t : Stmt) {s : Site} (b : Bool) (h : t.Formed s) :
    ∃ x r, t.shapes b = x :: r ∧ x.afterBreak = b ∧ x.lexeme.startsStmt := by
  cases t with
  | expr _ value =>
    rw [Stmt.Formed] at h
    rw [Stmt.shapes]
    cases hneeded : needsStatementParens value.text with
    | true => exact ⟨_, _, rfl, rfl, rfl⟩
    | false =>
      obtain ⟨x, r, hshapes, hb, hbegins, hfresh, -⟩ := Expr.opens_of_plain b h hneeded
      exact ⟨x, r, hshapes, hb, Lexeme.startsStmt_of_begins hbegins hfresh⟩
  | varDecl decl =>
    obtain ⟨_, kind, name, value⟩ := decl
    have hkind : (Lexeme.keyword kind.keyword).startsStmt := by cases kind <;> rfl
    cases value with
    | none => exact ⟨_, _, rfl, rfl, hkind⟩
    | some e => exact ⟨_, _, rfl, rfl, hkind⟩
  | functionDecl decl =>
    rw [Stmt.shapes, afterAsync]
    split
    · exact ⟨_, _, rfl, rfl, rfl⟩
    · exact ⟨_, _, rfl, rfl, rfl⟩
  | block body =>
    cases body
    exact ⟨_, _, rfl, rfl, rfl⟩
  | classDecl decl =>
    cases decl
    exact ⟨_, _, rfl, rfl, rfl⟩
  | importDecl decl =>
    rw [Stmt.shapes, ImportDecl.shapes]
    split
    · exact ⟨_, _, rfl, rfl, rfl⟩
    · exact ⟨_, _, rfl, rfl, rfl⟩
  | _ => exact ⟨_, _, rfl, rfl, rfl⟩

end CoScript
