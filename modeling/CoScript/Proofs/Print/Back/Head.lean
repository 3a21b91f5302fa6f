import CoScript.Proofs.Print.Back.Basic

/-!
# What is no head of an arrow function

An expression is first tried as an arrow function. No other expression that the printer writes is
taken for one: a name is not followed by an arrow, and parentheses are followed neither by an arrow
nor by a colon, except where a call of `async` stands before the colon of a conditional.

Results:
* `Grammar.notArrow`: an expression that is no arrow function is not read as one.
-/

namespace CoScript

open CoScript.Parser Shape

/-- What a parser reads is balanced if the parser takes balanced words. -/
theorem Parser.Reads.balanced {α : Type} {p : Parser α} {c : Context} {l k : List Shape}
    {Q : α → Prop} {I : α → ℕ} (h : p.Reads c l k Q)
    (htakes : ∀ ts, ts.length = (l ++ k).length → p.Takes c ts 0 (fun _ => 0) I) :
    Balanced (l.map Shape.lexeme) := by
  let place (s : Shape) : Token := ⟨s.lexeme, .start, s.afterBreak⟩
  have hplace (m : List Shape) : (m.map place).map Token.shape = m := by
    rw [List.map_map]
    exact List.map_id _
  obtain ⟨x, hx, -⟩ := h (l.map place) (k.map place) (hplace l) (hplace k)
  have hword := htakes (l.map place ++ k.map place) (by simp)
  unfold Takes at hword
  rw [hx] at hword
  obtain ⟨w, hw, hnest, -⟩ := hword
  have hl : l.map Shape.lexeme = (l.map place).map Token.lexeme := by
    rw [List.map_map]
    rfl
  rw [hl, List.append_cancel_right hw]
  exact hnest

namespace Grammar

variable {R : Rules} {n : ℕ} {c : Context} {k l : List Shape}

/-- Shapes do not start an arrow function. -/
def NotArrow (R : Rules) (c : Context) (l : List Shape) : Prop :=
  (arrow? R).Reads c [] l (· = none)

/-- Shapes do not start the head of an arrow function. -/
def NotHead (R : Rules) (c : Context) (l : List Shape) : Prop :=
  ∀ ts, ts.map Token.shape = l → ∃ e, arrowHead R c ts = .rejected e

/-- A lexeme that is neither a name nor an opening parenthesis starts no arrow function. -/
theorem NotArrow.of_first (hc : c.Complete) (hname : (firstOf l).lexeme.name? = none)
    (hparen : (firstOf l).lexeme ≠ .mark .openParen) : NotArrow R c l := by
  refine Reads.peek_bind hc fun t ht => ?_
  have hl : t.lexeme = (firstOf l).lexeme := congrArg Shape.lexeme ht
  have hasync : t.lexeme.isKeyword .asyncWord = false := by
    rw [Bool.eq_false_iff]
    intro h
    rw [← hl, lexeme_of_isKeyword h] at hname
    simp [Lexeme.name?, Keyword.isContextual] at hname
  dsimp only
  rw [hasync]
  simp only [Bool.false_eq_true, if_false]
  refine Reads.bind_nil (P := (· = none)) (.peekAt_bind hc fun u hu => ?_) ?_
  · have hu' : u.lexeme = (firstOf l).lexeme := congrArg Shape.lexeme hu
    rw [hu', hname]
    have hmark : (firstOf l).lexeme.isMark .openParen = false := by
      rw [Bool.eq_false_iff]
      exact fun h => hparen (lexeme_of_isMark h)
    simp only [hmark, Bool.false_eq_true, if_false]
    exact .pure rfl
  · rintro _ rfl
    exact .pure rfl

/-- A name that no arrow follows starts no arrow function; after `async` there must also be no
    parenthesis. -/
theorem NotArrow.of_name (hc : c.Complete) {s : Shape} (hname : s.lexeme.name?.isSome)
    (harrow : (firstOf k).lexeme ≠ .mark .arrow)
    (hasync : s.lexeme = .keyword .asyncWord → (firstOf k).afterBreak = true ∨
      (firstOf k).lexeme ≠ .mark .openParen ∧ (firstOf k).lexeme.name? = none) :
    NotArrow R c (s :: k) := by
  refine Reads.peek_bind hc fun t ht => ?_
  have hl : t.lexeme = s.lexeme := congrArg Shape.lexeme ht
  dsimp only
  cases his : t.lexeme.isKeyword .asyncWord with
  | true =>
    simp only [if_true]
    refine .peekAt_bind hc fun u hu => ?_
    have hul : u.lexeme = (firstOf k).lexeme := congrArg Shape.lexeme hu
    have hub : u.afterBreak = (firstOf k).afterBreak := congrArg Shape.afterBreak hu
    have hcond :
        (u.afterBreak || !(u.lexeme.isMark .openParen || u.lexeme.name?.isSome)) = true := by
      rw [hul, hub]
      obtain hbreak | ⟨hparen, hnone⟩ := hasync (by rw [← hl]; exact lexeme_of_isKeyword his)
      · simp [hbreak]
      · have hmark : (firstOf k).lexeme.isMark .openParen = false := by
          rw [Bool.eq_false_iff]
          exact fun h => hparen (lexeme_of_isMark h)
        simp [hmark, hnone]
    simp only [hcond, if_true]
    exact .pure rfl
  | false =>
    simp only [Bool.false_eq_true, if_false]
    refine Reads.bind_nil (P := (· = none)) (.peekAt_bind hc fun u hu => ?_) ?_
    · have hu' : u.lexeme = s.lexeme := congrArg Shape.lexeme hu
      obtain ⟨name, hsome⟩ := Option.isSome_iff_exists.mp hname
      rw [hu', hsome]
      refine .peekAt_bind hc fun v hv => ?_
      have hvl : v.lexeme = (firstOf k).lexeme := congrArg Shape.lexeme hv
      have hmark : v.lexeme.isMark .arrow = false := by
        rw [Bool.eq_false_iff, hvl]
        exact fun h => harrow (lexeme_of_isMark h)
      simp only [hmark, Bool.false_eq_true, if_false]
      exact .pure rfl
    · rintro _ rfl
      exact .pure rfl

/-- A parenthesis that starts no head of an arrow function. -/
theorem NotArrow.of_paren (hc : c.Complete) {b : Bool}
    (h : NotHead R c (⟨.mark .openParen, b⟩ :: l)) :
    NotArrow R c (⟨.mark .openParen, b⟩ :: l) := by
  refine Reads.peek_bind hc fun t ht => ?_
  have hl : t.lexeme = .mark .openParen := congrArg Shape.lexeme ht
  rw [hl]
  refine Reads.bind_nil (P := (· = none)) (.peekAt_bind hc fun u hu => ?_) ?_
  · have hu' : u.lexeme = .mark .openParen := congrArg Shape.lexeme hu
    rw [hu']
    exact .speculate_none h
  · rintro _ rfl
    exact .pure rfl

/-- The same after `async`. -/
theorem NotArrow.of_asyncParen (hc : c.Complete) {b b' : Bool}
    (h : NotHead R c (⟨.mark .openParen, b'⟩ :: l)) :
    NotArrow R c (⟨.keyword .asyncWord, b⟩ :: ⟨.mark .openParen, b'⟩ :: l) := by
  refine Reads.peek_bind hc fun t ht => ?_
  have hl : t.lexeme = .keyword .asyncWord := congrArg Shape.lexeme ht
  rw [hl]
  refine Reads.peekAt_bind hc fun u _ => ?_
  split
  · exact .pure rfl
  · refine Reads.bind_nil (P := (· = none)) (.peekAt_bind hc fun v hv => ?_) ?_
    · have hv' : v.lexeme = .mark .openParen := congrArg Shape.lexeme hv
      rw [hv']
      refine .speculate_none fun ts hts => ?_
      obtain ⟨x, ts, rfl, -, hts⟩ := List.map_eq_cons_iff.mp hts
      exact h ts hts
    · rintro _ rfl
      exact .pure rfl

/-- Balanced parentheses that neither a colon nor an arrow follows are not the head of an arrow
    function. -/
theorem NotHead.of_balanced (h : R.Enough n) (hc : c.Complete) {b : Bool} {s : Shape}
    (hl : Balanced (l.map Shape.lexeme)) (hs : s.lexeme = .mark .closeParen)
    (hcolon : (firstOf k).lexeme ≠ .mark .colon) (harrow : (firstOf k).lexeme ≠ .mark .arrow)
    (hn : 4 * (⟨.mark .openParen, b⟩ :: l ++ s :: k).length ≤ n + 1) :
    NotHead R c (⟨.mark .openParen, b⟩ :: l ++ s :: k) := by
  intro ts hts
  obtain ⟨x, ts, rfl, -, hts⟩ := List.map_eq_cons_iff.mp hts
  obtain ⟨w, rest, rfl, hw, hrest⟩ := List.map_eq_append_iff.mp hts
  obtain ⟨y, rest, rfl, hy, hrest⟩ := List.map_eq_cons_iff.mp hrest
  obtain ⟨pos, hpos⟩ := hc
  refine arrowHead_rejected h hpos ?_ ?_ ?_ fun t ht => ?_
  · simp only [List.length_append, List.length_cons, ← hw, ← hrest, List.length_map] at hn ⊢
    exact hn
  · rw [← hs, ← hy]
    rfl
  · rw [← hw, List.map_map] at hl
    exact hl
  · have hshape : t.lexeme = (firstOf k).lexeme := by
      obtain ht | ⟨hnone, hend⟩ := ht
      · have := Ahead.shape_eq ht hrest
        exact congrArg Shape.lexeme this
      · have hnil : rest = [] := by simpa using hnone
        rw [hnil, List.map_nil] at hrest
        rw [hend, ← hrest]
        rfl
    rw [hshape]
    exact ⟨hcolon, harrow⟩

/-- A trial that is given enough depth is rejected unless it succeeds. -/
theorem rejected_of_takes {α : Type} {p : Parser α} {ts : List Token} {B I : α → ℕ}
    (hc : c.Complete) (htakes : p.Takes c ts 0 B I) (hok : ∀ x rest, p c ts ≠ .ok x rest) :
    ∃ e, p c ts = .rejected e := by
  unfold Takes at htakes
  cases hp : p c ts with
  | ok x rest => exact absurd hp (hok x rest)
  | rejected e => exact ⟨e, rfl⟩
  | broken e =>
    obtain ⟨pos, hpos⟩ := hc
    rw [hp, Outcome.Takes, hpos] at htakes
    simp at htakes
  | tooDeep =>
    rw [hp] at htakes
    exact htakes.elim

theorem NotHead.of_not_reads (h : R.Back n) (hc : c.Complete) (hl : ¬ ReadsAsArrowHead l)
    (hn : 4 * l.length ≤ n + 1) : NotHead R c l := by
  intro ts hts
  obtain ⟨m, rfl⟩ := h.depth
  refine rejected_of_takes hc (takes_arrowHead h.enough ?_) fun x rest hok =>
    hl ⟨m, c, ts, x, rest, hts, hok⟩
  rwa [← hts, List.length_map] at hn

/-- Parentheses around a brace are not the head of an arrow function. -/
theorem NotHead.of_brace {b b' : Bool} :
    NotHead R c (⟨.mark .openParen, b⟩ :: ⟨.mark .openBrace, b'⟩ :: l) := by
  intro ts hts
  obtain ⟨x, ts, rfl, hx, hts⟩ := List.map_eq_cons_iff.mp hts
  obtain ⟨y, ts, rfl, hy, -⟩ := List.map_eq_cons_iff.mp hts
  have hx' : x.lexeme = .mark .openParen := congrArg Shape.lexeme hx
  have hy' : y.lexeme = .mark .openBrace := congrArg Shape.lexeme hy
  refine ⟨⟨.identifier, y.lexeme, y.pos⟩, ?_⟩
  simp [arrowHead, params, expectMark, atMark, peek, peekAt, advance, listUntil,
    loop, rounds, param,
    acceptKeyword, atKeyword, expectName, reject, rejectAt, Bind.bind, Pure.pure, hx', hy',
    Lexeme.isMark, Lexeme.isKeyword, Lexeme.name?]

theorem ne_of_stops {level : ℕ} {m : Mark} (h : Stops level k) (hm : ∀ b, level ≤ m.pull b) :
    (firstOf k).lexeme ≠ .mark m := by
  intro hl
  have := isMark_of_pull h hm
  simp [hl, Lexeme.isMark] at this

/-- An expression is balanced. -/
theorem balanced_shapes (h : R.Back n) {e : Expr} (b : Bool) (hc : c.Complete)
    (hformed : e.Formed c.site) (hlegible : e.Legible (mark .closeParen :: k))
    (hn : 4 * (e.shapes b ++ mark .closeParen :: k).length + 3 ≤ n) :
    Balanced ((e.shapes b).map Shape.lexeme) :=
  (h.beforeMark b (by simp) (by decide) hc hformed hlegible hn).balanced
    fun ts hts => h.enough.assignment c ts 0 (by rw [hts]; exact hn)

/-- Expressions between commas are balanced. -/
theorem balanced_args (h : R.Back n) {es : List Expr} (hc : c.Complete)
    (hformed : ExprsFormed es c.site) (hlegible : ExprsLegible es (mark .closeParen :: k))
    (hn : 4 * (commas (argShapes es) ++ mark .closeParen :: k).length + 3 ≤ n) :
    Balanced ((commas (argShapes es)).map Shape.lexeme) := by
  have hitems := Reads.listItems hc es [] rfl (args_begin hformed rfl) rfl
    (h.items hc hformed hlegible (.mark (by decide)) (by simp) hn)
  rw [← argShapes_eq] at hitems
  refine hitems.balanced fun ts hts => Takes.listItems _ fun rest hr =>
    h.enough.assignment c rest 0 ?_
  have hts : ts.length = (commas (argShapes es) ++ mark .closeParen :: k).length := hts
  omega

/-- Arguments are not the head of an arrow function, unless they read as one before a colon. -/
theorem NotHead.args (h : R.Back n) (hc : c.Complete) {es : List Expr}
    (hformed : ExprsFormed es c.site) (hlegible : ExprsLegible es (mark .closeParen :: k))
    (hstops : Stops primaryLevel k)
    (hcolon : (firstOf k).lexeme = .mark .colon →
      ¬ ReadsAsArrowHead (mark .openParen :: commas (argShapes es) ++ mark .closeParen :: k))
    (hn : 4 * (mark .openParen :: commas (argShapes es) ++ mark .closeParen :: k).length ≤ n + 1) :
    NotHead R c (mark .openParen :: commas (argShapes es) ++ mark .closeParen :: k) := by
  by_cases hnext : (firstOf k).lexeme = .mark .colon
  · exact .of_not_reads h hc (hcolon hnext) hn
  · have hargs := balanced_args h hc hformed hlegible (by
      simp only [List.length_append, List.length_cons] at hn ⊢
      omega)
    exact .of_balanced h.enough hc hargs rfl hnext (ne_of_stops hstops fun _ => Nat.le_refl _) hn

/-- An operand in parentheses. -/
theorem notArrow_parens (h : R.Back n) {e : Expr} {b : Bool} (hc : c.Complete)
    (hformed : e.Formed c.site) (hlegible : e.Legible (mark .closeParen :: k))
    (hstops : Stops primaryLevel k) (hcolon : (firstOf k).lexeme = .mark .colon → e.isObject)
    (hn : 4 * (parens true e.shapes b ++ k).length + 3 ≤ n + 1) :
    NotArrow R c (parens true e.shapes b ++ k) := by
  have hshapes : parens true e.shapes b ++ k
      = ⟨.mark .openParen, b⟩ :: e.shapes false ++ mark .closeParen :: k := by
    simp [parens]
  rw [hshapes] at hn ⊢
  refine .of_paren hc ?_
  by_cases hnext : (firstOf k).lexeme = .mark .colon
  · have hobject := hcolon hnext
    cases e with
    | object => exact .of_brace
    | _ => simp [Expr.isObject] at hobject
  · have hlen : 4 * (e.shapes false ++ mark .closeParen :: k).length + 3 ≤ n := by
      simp only [List.length_append, List.length_cons] at hn ⊢
      omega
    exact .of_balanced h.enough hc (balanced_shapes h false hc hformed hlegible hlen) rfl hnext
      (ne_of_stops hstops fun _ => Nat.le_refl _) (by omega)

/-- An operand in parentheses or without. -/
theorem NotArrow.operand (h : R.Back n) {needed : Bool} {e : Expr} {b : Bool} (hc : c.Complete)
    (hformed : e.Formed c.site) (hlegible : e.Legible (closing needed k))
    (hstops : Stops primaryLevel k) (hcolon : (firstOf k).lexeme = .mark .colon → e.isObject)
    (hn : 4 * (parens needed e.shapes b ++ k).length + 3 ≤ n + 1)
    (hbare : needed = false → NotArrow R c (e.shapes b ++ k)) :
    NotArrow R c (parens needed e.shapes b ++ k) := by
  cases needed with
  | true => exact notArrow_parens h hc hformed hlegible hstops hcolon hn
  | false => exact hbare rfl

/-- Whether an expression is an arrow function. -/
def isArrow : Expr → Bool
  | .arrow .. => true
  | _ => false

/-- An expression that another construct of the text begins with, before the mark `m` of that
    construct. -/
theorem NotArrow.spine (h : R.Back n) (hc : c.Complete) {needed : Bool} {e : Expr} {b : Bool}
    {m : Mark} (hcolon : m ≠ .colon) (hpull : m.pull false < primaryLevel)
    (hasync : ∀ p, e = .name p "async" → m ≠ .openParen) (hformed : e.Formed c.site)
    (hlegible : e.Legible (closing needed (mark m :: k)))
    (hlevel : needed = false → assignmentLevel < e.level)
    (hn : 4 * (parens needed e.shapes b ++ mark m :: k).length + 3 ≤ n + 1)
    (ih : e.Legible (mark m :: k) → Stops primaryLevel (mark m :: k) →
      e.HeadLegible (mark m :: k) →
      (∀ p, e = .name p "async" → (firstOf (mark m :: k)).lexeme = .mark .openParen →
        (firstOf (mark m :: k)).afterBreak) →
      isArrow e = false → 4 * (e.shapes b ++ mark m :: k).length + 3 ≤ n + 1 →
      NotArrow R c (e.shapes b ++ mark m :: k)) :
    NotArrow R c (parens needed e.shapes b ++ mark m :: k) := by
  refine .operand h hc hformed hlegible hpull (by simp [hcolon]) hn fun hneeded => ?_
  subst hneeded
  refine ih hlegible hpull ?_ ?_ ?_ hn
  · exact fun _ _ _ _ h => absurd h (by simp [hcolon])
  · exact fun p he hparen => absurd (Lexeme.mark.inj hparen) (hasync p he)
  · have := hlevel rfl
    cases e with
    | arrow => simp [Expr.level] at this
    | _ => rfl

/-- A name is not read as an arrow function. Only `async` could be, with a parameter list or a name
    behind it. -/
theorem notArrow_name (hc : c.Complete) {p : Position} {ident : String} {b : Bool}
    (hformed : (Expr.name p ident).Formed c.site) (hstops : Stops primaryLevel k)
    (hasync : ∀ q, Expr.name p ident = .name q "async" →
      (firstOf k).lexeme = .mark .openParen → (firstOf k).afterBreak) :
    NotArrow R c ((Expr.name p ident).shapes b ++ k) := by
  rw [Expr.Formed] at hformed
  have hname := Lexer.wordLexeme_name hformed
  refine .of_name hc (by simp [hname]) (ne_of_stops hstops fun _ => Nat.le_refl _) fun hl => ?_
  dsimp only at hl
  obtain rfl : ident = "async" := by
    rw [hl] at hname
    simpa [Lexeme.name?, Keyword.isContextual, Keyword.text] using hname.symm
  by_cases hbreak : (firstOf k).afterBreak = true
  · exact .inl hbreak
  · refine .inr ⟨fun hparen => hbreak (hasync p rfl hparen), ?_⟩
    rw [← Option.not_isSome_iff_eq_none]
    exact fun hsome => hbreak (afterBreak_of_name hstops (Nat.le_refl _) hsome)

/-- An expression that is no arrow function is not read as one. The induction is on the expression,
    along the operands that its text begins with. -/
theorem notArrow (h : R.Back n) (hc : c.Complete) : ∀ (e : Expr) {b : Bool} {k : List Shape},
    e.Formed c.site → e.Legible k → Stops primaryLevel k → e.HeadLegible k →
    (∀ p, e = .name p "async" → (firstOf k).lexeme = .mark .openParen → (firstOf k).afterBreak) →
    isArrow e = false → 4 * (e.shapes b ++ k).length + 3 ≤ n + 1 → NotArrow R c (e.shapes b ++ k)
  | .literal _ value, b, k, _, _, _, _, _, _, _ => by
    refine .of_first hc ?_ ?_
    · cases value with
      | bool v => cases v <;> rfl
      | _ => rfl
    · cases value <;> simp [Expr.shapes, Literal.lexeme]
  | .name .., _, _, hformed, _, hstops, _, hasync, _, _ => notArrow_name hc hformed hstops hasync
  | .this _, _, _, _, _, _, _, _, _, _ => .of_first hc rfl (by simp [Expr.shapes])
  | .array .., _, _, _, _, _, _, _, _, _ => .of_first hc rfl (by simp [Expr.shapes])
  | .object .., _, _, _, _, _, _, _, _, _ => .of_first hc rfl (by simp [Expr.shapes])
  | .unary _ op _, _, _, _, _, _, _, _, _, _ => by
    refine .of_first hc ?_ ?_ <;> cases op <;>
      simp [Expr.shapes, UnaryOp.lexeme, Lexeme.name?, Keyword.isContextual]
  | .construct .., _, _, _, _, _, _, _, _, _ => .of_first hc rfl (by simp [Expr.shapes])
  | .superCall .., _, _, _, _, _, _, _, _, _ => .of_first hc rfl (by simp [Expr.shapes])
  | .await .., _, _, _, _, _, _, _, _, _ => .of_first hc rfl (by simp [Expr.shapes])
  | .function _ name params body isAsync generics, b, k, _, _, _, _, _, _, _ => by
    simp only [Expr.shapes, List.append_assoc]
    cases isAsync with
    | true => exact .of_name hc rfl (by simp) fun _ => .inr ⟨by simp, rfl⟩
    | false => exact .of_first hc rfl (by simp [afterAsync])
  | .arrow .., _, _, _, _, _, _, _, harrow, _ => by simp [isArrow] at harrow
  | .binary _ op left right, b, k, hformed, hlegible, _, _, _, _, hn => by
    rw [Expr.Formed] at hformed
    rw [Expr.Legible] at hlegible
    rw [Expr.shapes, List.append_assoc] at hn ⊢
    refine .spine h hc ?_ ?_ ?_ hformed.1 hlegible.1 (fun hneeded => ?_) hn
      (notArrow h hc left hformed.1)
    · cases op <;> simp [BinaryOp.mark]
    · cases op <;> decide
    · cases op <;> simp [BinaryOp.mark]
    · have := of_decide_eq_false hneeded
      have : conditionalLevel ≤ op.level := Nat.le_add_right ..
      simp only [assignmentLevel, conditionalLevel] at *
      omega
  | .update _ op true target, _, _, _, _, _, _, _, _, _ => by
    refine .of_first hc rfl ?_
    cases op <;> simp [Expr.shapes, UpdateOp.mark]
  | .update _ op false target, b, k, hformed, hlegible, _, _, _, _, hn => by
    rw [Expr.Formed] at hformed
    rw [Expr.Legible] at hlegible
    have hlevel := Expr.callLevel_le_of_isTarget hformed.1
    have hneeded := decide_eq_false (Nat.not_lt.mpr hlevel)
    simp only [Expr.shapes, Bool.false_eq_true, if_false, List.append_assoc, List.cons_append,
      List.nil_append] at hn hlegible ⊢
    refine .spine h hc ?_ ?_ ?_ hformed.2 (by rwa [hneeded]) (fun _ => ?_) hn
      (notArrow h hc target hformed.2)
    · cases op <;> simp [UpdateOp.mark]
    · cases op <;> decide
    · cases op <;> simp [UpdateOp.mark]
    · exact Nat.lt_of_lt_of_le (by decide) hlevel
  | .assign _ op target value, b, k, hformed, hlegible, _, _, _, _, hn => by
    rw [Expr.Formed] at hformed
    rw [Expr.Legible] at hlegible
    have hlevel := Expr.callLevel_le_of_isTarget hformed.1
    have hneeded := decide_eq_false (Nat.not_lt.mpr hlevel)
    simp only [Expr.shapes, Expr.level_lt_assignment, parens, Bool.false_eq_true, if_false,
      List.append_assoc, List.cons_append] at hn hlegible ⊢
    refine .spine h hc ?_ ?_ ?_ hformed.2.1 (by rw [hneeded]; exact hlegible.1) (fun _ => ?_) hn
      (notArrow h hc target hformed.2.1)
    · cases op <;> simp [AssignOp.mark]
    · cases op <;> decide
    · cases op <;> simp [AssignOp.mark]
    · exact Nat.lt_of_lt_of_le (by decide) hlevel
  | .conditional _ condition thenValue elseValue, b, k, hformed, hlegible, _, _, _, _, hn => by
    rw [Expr.Formed] at hformed
    rw [Expr.Legible] at hlegible
    simp only [Expr.shapes, Expr.level_lt_assignment, List.append_assoc, List.cons_append] at hn ⊢
    refine .spine h hc (by decide) (by decide) (by simp) hformed.1 ?_ (fun hneeded => ?_) hn
      (notArrow h hc condition hformed.1)
    · simpa [parens] using hlegible.1
    · have := of_decide_eq_false hneeded
      simp only [assignmentLevel, conditionalLevel] at *
      omega
  | .call p callee args, b, k, hformed, hlegible, hstops, hhead, _, _, hn => by
    rw [Expr.Formed] at hformed
    rw [Expr.Legible] at hlegible
    simp only [Expr.shapes, List.append_assoc, List.cons_append] at hn hlegible ⊢
    by_cases hasync : ∃ q, callee = .name q "async"
    · obtain ⟨q, rfl⟩ := hasync
      have hargs := NotHead.args h hc hformed.2 hlegible.2 hstops (hhead p q args rfl) (by
        simp [parens, Expr.shapes, Expr.level, primaryLevel, callLevel] at hn ⊢
        omega)
      exact .of_asyncParen hc (by simpa [Shape.mark] using hargs)
    · refine .spine h hc (by decide) (by decide) (fun q he => absurd ⟨q, he⟩ hasync) hformed.1
        (by simpa using hlegible.1) (fun hneeded => ?_) hn (notArrow h hc callee hformed.1)
      exact Nat.lt_of_lt_of_le (by decide) (Nat.not_lt.mp (of_decide_eq_false hneeded))
  | .member _ obj attr, b, k, hformed, hlegible, _, _, _, _, hn => by
    rw [Expr.Formed] at hformed
    rw [Expr.Legible] at hlegible
    rw [Expr.shapes, List.append_assoc] at hn ⊢
    exact .spine h hc (by decide) (by decide) (by simp) hformed.1 hlegible
      (fun hneeded => Nat.lt_of_lt_of_le (by decide) (Expr.callLevel_le_of_object hneeded)) hn
      (notArrow h hc obj hformed.1)
  | .index _ obj key, b, k, hformed, hlegible, _, _, _, _, hn => by
    rw [Expr.Formed] at hformed
    rw [Expr.Legible] at hlegible
    simp only [Expr.shapes, List.append_assoc, List.cons_append] at hn hlegible ⊢
    exact .spine h hc (by decide) (by decide) (by simp) hformed.1 hlegible.1
      (fun hneeded => Nat.lt_of_lt_of_le (by decide) (Expr.callLevel_le_of_object hneeded)) hn
      (notArrow h hc obj hformed.1)

end Grammar

end CoScript
