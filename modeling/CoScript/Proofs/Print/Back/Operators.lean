import CoScript.Proofs.Print.Back.Expr

/-!
# Operators that are read back

Results:
* `Grammar.reads_unary`, `Grammar.reads_binary`, `Grammar.reads_assignment`: the rules for operators
  read back what binds tightly enough for them.
-/

namespace CoScript.Grammar

open CoScript.Parser Shape

variable {R : Rules} {n : ℕ} {c : Context} {k : List Shape} {e : Expr} {needed : Bool}

/-! ## Operators after an operand -/

theorem takesTypeArgs_of_bare {x : Expr} (h : x.bare = e.bare) :
    takesTypeArgs x = takesTypeArgs e := by
  have hbare (y : Expr) : takesTypeArgs y.bare = takesTypeArgs y := by cases y <;> rfl
  rw [← hbare x, h, hbare e]

theorem isTarget_of_bare {x : Expr} (h : x.bare = e.bare) : x.isTarget = e.isTarget := by
  rw [← x.isTarget_bare, h, e.isTarget_bare]

/-- What needs parentheses before a member could not be called with type arguments. -/
theorem takesTypeArgs_of_level (h : e.level < callLevel) : takesTypeArgs e = false := by
  cases e with
  | name | member => simp [Expr.level, callLevel, primaryLevel] at h
  | _ => rfl

/-- An operand that stands in parentheses just if it binds too loosely. -/
theorem operand_of_level {x : Expr} {level : ℕ} (hc : c.Complete) (hformed : x.Formed c.site)
    (hlegible : x.Legible (closing (x.level < level) k)) (hle : level ≤ callLevel)
    (hname : level ≤ x.level → x.NameLegible k) (hstops : Stops level k) :
    Operand c (x.level < level) x k level where
  complete := hc
  formed := hformed
  legible := hlegible
  fits h := Nat.not_lt.mp (of_decide_eq_false h)
  name h := hname (Nat.not_lt.mp (of_decide_eq_false h))
  closed h _ := takesTypeArgs_of_level (Nat.lt_of_lt_of_le (of_decide_eq_true h) hle)
  stops := hstops

/-- An operand with its members, indices and calls. -/
theorem reads_callMember (h : R.Back n) (b : Bool) (ho : Operand c needed e k callLevel)
    (hn : 4 * (parens needed e.shapes b ++ k).length ≤ n) :
    (callMember R).Reads c (parens needed e.shapes b) k fun x => x.bare = e.bare := by
  have hread := reads_spine (r := []) (Q := fun x => x.bare = e.bare) h ho.complete e ho.formed
    ho.legible ho.fits (ho.stops.mono (Nat.le_succ _)) hn fun x hx => ?_
  · rwa [List.append_nil] at hread
  · refine .loop_done ((turn_done h ho.complete ho.stops (fun hless htakes => ?_) ?_).mono
      fun _ ht => ⟨x, ht, hx⟩)
    · rw [takesTypeArgs_of_bare hx] at htakes
      cases needed with
      | true => simp [ho.closed rfl hless] at htakes
      | false =>
        refine ho.name rfl hless ?_
        cases e with
        | name | member => rfl
        | _ => simp [takesTypeArgs] at htakes
    · rw [List.length_append] at hn
      omega

/-- A stepping operator is not drawn to an operand on the line before. -/
theorem updateOp_of_pull {s : Shape} (h : s.pull < postfixLevel) {op : UpdateOp}
    (hop : updateOp? s.lexeme = some op) : s.afterBreak = true := by
  unfold updateOp? at hop
  split at hop
  · exact afterBreak_of_pull h (Nat.le_refl _) ‹_›
  · exact afterBreak_of_pull h (Nat.le_refl _) ‹_›
  · cases hop

theorem updateOp_mark (op : UpdateOp) : updateOp? (.mark op.mark) = some op := by
  cases op <;> rfl

/-- Without a stepping operator after it. -/
theorem reads_unstepped (h : R.Back n) (b : Bool) (ho : Operand c needed e k postfixLevel)
    (hfits : needed = false → callLevel ≤ e.level)
    (hn : 4 * (parens needed e.shapes b ++ k).length ≤ n) :
    (postfixExpr R).Reads c (parens needed e.shapes b) k fun x => x.bare = e.bare := by
  have hcall : Operand c needed e k callLevel :=
    { ho with fits := hfits, stops := ho.stops.mono (Nat.le_succ _) }
  refine .bind_all (reads_callMember h b hcall hn) fun x hx => .peek_bind ho.complete fun t ht => ?_
  split
  · rename_i op hop
    have hb : t.afterBreak = true := by
      have hpull : t.shape.pull < postfixLevel := by
        rw [ht]
        exact ho.stops
      exact updateOp_of_pull hpull hop
    simp only [hb, if_true]
    exact .pure hx
  · exact .pure hx

/-- A stepping operator after its target. -/
theorem reads_updateAfter (h : R.Back n) (b : Bool) {pos : Position} {op : UpdateOp} {target : Expr}
    (ho : Operand c false (.update pos op false target) k postfixLevel)
    (hn : 4 * ((Expr.update pos op false target).shapes b ++ k).length ≤ n) :
    (postfixExpr R).Reads c ((Expr.update pos op false target).shapes b) k
      fun x => x.bare = (Expr.update pos op false target).bare := by
  have hformed := ho.formed
  have hlegible : (Expr.update pos op false target).Legible k := ho.legible
  rw [Expr.Formed] at hformed
  rw [Expr.Legible, if_neg Bool.false_ne_true] at hlegible
  have htarget := Expr.callLevel_le_of_isTarget hformed.1
  have hneeded := decide_eq_false (Nat.not_lt.mpr htarget)
  have hshapes : (Expr.update pos op false target).shapes b
      = parens false target.shapes b ++ [mark op.mark] := by
    simp only [parens, Expr.shapes, hneeded, Bool.false_eq_true, if_false]
  rw [hshapes] at hn ⊢
  have htargetRead : Operand c false target (mark op.mark :: k) callLevel :=
    { complete := ho.complete
      formed := hformed.2
      legible := hlegible
      fits := fun _ => htarget
      name := fun _ hless => by cases op <;> simp [UpdateOp.mark] at hless
      closed := fun h => by cases h
      stops := by cases op <;> exact Nat.le_refl _ }
  refine .bind (reads_callMember h b htargetRead (by simpa using hn)) fun x hx => ?_
  refine .peek_bind ho.complete fun t ht => ?_
  have ht : t.shape = mark op.mark := ht
  have hl : t.lexeme = .mark op.mark := congrArg Shape.lexeme ht
  have hb : t.afterBreak = false := congrArg Shape.afterBreak ht
  have hx' : x.isTarget = true := by rw [isTarget_of_bare hx, hformed.1]
  rw [hl, updateOp_mark, hb]
  simp only [Bool.false_eq_true, if_false, checkUpdateTarget, hx', if_true]
  exact Reads.advance_bind fun _ _ => .pure (by rw [Expr.bare, Expr.bare, hx])

/-- An operand with a stepping operator after it, or without. -/
theorem reads_postfix (h : R.Back n) (b : Bool) (ho : Operand c needed e k postfixLevel)
    (hn : 4 * (parens needed e.shapes b ++ k).length ≤ n) :
    (postfixExpr R).Reads c (parens needed e.shapes b) k fun x => x.bare = e.bare := by
  by_cases hfits : needed = false → callLevel ≤ e.level
  · exact reads_unstepped h b ho hfits hn
  · -- only an operator after its target lies between the two levels
    obtain ⟨rfl, hlevel⟩ := Classical.not_imp.mp hfits
    have hpostfix := ho.fits rfl
    simp only [parens, Bool.false_eq_true, if_false] at hn ⊢
    cases e with
    | update pos op before target =>
      cases before with
      | true => exact absurd hpostfix (by simp [Expr.level, unaryLevel, postfixLevel])
      | false => exact reads_updateAfter h b ho hn
    | binary _ op _ _ =>
      cases op <;> simp [Expr.level, BinaryOp.level, BinaryOp.precedence, postfixLevel,
        conditionalLevel] at hpostfix
    | _ => simp [Expr.level, postfixLevel, callLevel, primaryLevel, unaryLevel, assignmentLevel,
        conditionalLevel] at hpostfix hlevel

/-! ## Operators before an operand -/

/-- A lexeme that is no operator before an operand. -/
def IsOperand (l : Lexeme) : Prop :=
  unaryOp? l = none ∧ l ≠ .keyword .awaitWord ∧ updateOp? l = none

theorem IsOperand.of_name {l : Lexeme} {s : String} (h : l.name? = some s) : IsOperand l := by
  cases l with
  | identifier name => exact ⟨rfl, by simp, rfl⟩
  | keyword w => cases w <;>
    simp_all [Lexeme.name?, Keyword.isContextual, IsOperand, unaryOp?, updateOp?]
  | _ => simp [Lexeme.name?] at h

/-- An expression that stands at the front of an operand does not begin with an operator. -/
theorem isOperand_of_isLead {site : Site} {b : Bool} {x : Expr} (hx : x.isLead)
    (hlevel : postfixLevel ≤ x.level) (hformed : x.Formed site) (l : List Shape) :
    IsOperand (firstOf (x.shapes b ++ l)).lexeme := by
  cases x with
  | name pos ident =>
    rw [Expr.Formed] at hformed
    exact .of_name (Lexer.wordLexeme_name hformed)
  | literal pos value =>
    cases value with
    | bool v => cases v <;> exact ⟨rfl, by simp [Expr.shapes, Literal.lexeme], rfl⟩
    | _ => exact ⟨rfl, by simp [Expr.shapes, Literal.lexeme], rfl⟩
  | function pos name ps body isAsync generics =>
    cases isAsync <;> exact ⟨rfl, by simp [Expr.shapes, afterAsync], rfl⟩
  | this | array | object | construct | superCall =>
    exact ⟨rfl, by simp [Expr.shapes], rfl⟩
  | update _ _ before =>
    cases before with
    | true => simp [Expr.level, postfixLevel, unaryLevel] at hlevel
    | false => simp [Expr.isLead] at hx
  | _ => simp [Expr.isLead, Expr.level, postfixLevel, unaryLevel, assignmentLevel] at hx hlevel

/-- An operand does not begin with an operator. -/
theorem operand_first {site : Site} {b : Bool} (hformed : e.Formed site)
    (hfits : needed = false → postfixLevel ≤ e.level) (l : List Shape) :
    IsOperand (firstOf (parens needed e.shapes b ++ l)).lexeme := by
  cases needed with
  | true => exact ⟨rfl, by simp [parens], rfl⟩
  | false =>
    have hspec := e.leadsWith b
    simp only [parens, Bool.false_eq_true, if_false]
    cases hlead : e.lead with
    | none =>
      rw [hlead] at hspec
      obtain ⟨-, r, -, hr⟩ := hspec
      rw [hr]
      exact ⟨rfl, by simp, rfl⟩
    | some x =>
      rw [hlead] at hspec
      obtain ⟨hx, hle, hex⟩ := hspec
      have hlevel := Nat.le_trans (hfits rfl) hle
      obtain rfl | ⟨hformed', -, m, r, -, hr⟩ := hex
      · exact isOperand_of_isLead hx hlevel hformed l
      · rw [hr, List.append_assoc]
        exact isOperand_of_isLead hx hlevel (hformed' site hformed) _

theorem unaryOp_lexeme (op : UnaryOp) : unaryOp? op.lexeme = some op := by
  cases op <;> rfl

/-- Without an operator before it. -/
theorem reads_unoperated (h : R.Back n) (b : Bool) (ho : Operand c needed e k unaryLevel)
    (hfits : needed = false → postfixLevel ≤ e.level)
    (hn : 4 * (parens needed e.shapes b ++ k).length ≤ n) :
    (Grammar.unary R).Reads c (parens needed e.shapes b) k fun x => x.bare = e.bare := by
  have hread := reads_postfix h b
    { ho with fits := hfits, stops := ho.stops.mono (Nat.le_succ _) } hn
  obtain ⟨hunary, hawait, hupdate⟩ := operand_first (b := b) ho.formed hfits k
  unfold Grammar.unary
  refine .peek_bind ho.complete fun t ht => ?_
  have hl : t.lexeme = _ := congrArg Shape.lexeme ht
  rw [hl, hunary, isKeyword_false hawait, hupdate]
  exact hread

/-- An operator with its operand. -/
theorem reads_unaryOp (h : R.Back n) (b : Bool) {pos : Position} {op : UnaryOp} {operand : Expr}
    (ho : Operand c false (.unary pos op operand) k unaryLevel)
    (hn : 4 * ((Expr.unary pos op operand).shapes b ++ k).length ≤ n) :
    (Grammar.unary R).Reads c ((Expr.unary pos op operand).shapes b) k
      fun x => x.bare = (Expr.unary pos op operand).bare := by
  have hformed := ho.formed
  have hlegible : (Expr.unary pos op operand).Legible k := ho.legible
  rw [Expr.Formed] at hformed
  rw [Expr.Legible] at hlegible
  rw [Expr.shapes] at hn ⊢
  have hbehind := operand_of_level ho.complete hformed hlegible (by decide)
    (fun hlevel hless hends => ho.name rfl hless (by
      rw [Expr.endsInName, decide_eq_false (Nat.not_lt.mpr hlevel), hends]
      rfl)) ho.stops
  unfold Grammar.unary
  refine .peek_bind ho.complete fun t ht => ?_
  have hl : t.lexeme = op.lexeme := congrArg Shape.lexeme ht
  rw [hl, unaryOp_lexeme]
  refine Reads.advance_bind fun _ _ => ?_
  refine .bind_all (h.unary false hbehind ?_) fun x hx => .pure (by rw [Expr.bare, Expr.bare, hx])
  simp only [List.cons_append, List.length_cons] at hn
  omega

/-- What is awaited, where it may be. -/
theorem reads_await (h : R.Back n) (b : Bool) {pos : Position} {value : Expr}
    (ho : Operand c false (.await pos value) k unaryLevel)
    (hn : 4 * ((Expr.await pos value).shapes b ++ k).length ≤ n) :
    (Grammar.unary R).Reads c ((Expr.await pos value).shapes b) k
      fun x => x.bare = (Expr.await pos value).bare := by
  have hformed := ho.formed
  have hlegible : (Expr.await pos value).Legible k := ho.legible
  rw [Expr.Formed] at hformed
  rw [Expr.Legible] at hlegible
  rw [Expr.shapes] at hn ⊢
  have hbehind := operand_of_level ho.complete hformed.2 hlegible (by decide)
    (fun hlevel hless hends => ho.name rfl hless (by
      rw [Expr.endsInName, decide_eq_false (Nat.not_lt.mpr hlevel), hends]
      rfl)) ho.stops
  have hallowed : (c.inFunction && !c.inAsync) = false := by
    cases hfunction : c.inFunction with
    | false => rfl
    | true =>
      have hasync : c.inAsync = true := hformed.1 hfunction
      rw [hasync]
      rfl
  unfold Grammar.unary
  refine .peek_bind ho.complete fun t ht => ?_
  have hl : t.lexeme = .keyword .awaitWord := congrArg Shape.lexeme ht
  rw [hl]
  refine Reads.context_bind ?_
  simp only [hallowed, Bool.false_eq_true, if_false]
  refine Reads.advance_bind fun _ _ => ?_
  refine .bind_all (h.unary false hbehind ?_) fun x hx => .pure (by rw [Expr.bare, Expr.bare, hx])
  simp only [List.cons_append, List.length_cons] at hn
  omega

/-- A stepping operator before its target. -/
theorem reads_updateBefore (h : R.Back n) (b : Bool) {pos : Position}
    {op : UpdateOp} {target : Expr}
    (ho : Operand c false (.update pos op true target) k unaryLevel)
    (hn : 4 * ((Expr.update pos op true target).shapes b ++ k).length ≤ n) :
    (Grammar.unary R).Reads c ((Expr.update pos op true target).shapes b) k
      fun x => x.bare = (Expr.update pos op true target).bare := by
  have hformed := ho.formed
  have hlegible : (Expr.update pos op true target).Legible k := ho.legible
  rw [Expr.Formed] at hformed
  rw [Expr.Legible, if_pos rfl] at hlegible
  have htarget := Expr.callLevel_le_of_isTarget hformed.1
  have hcall := decide_eq_false (Nat.not_lt.mpr htarget)
  have hneeded : decide (target.level < unaryLevel) = false :=
    decide_eq_false (Nat.not_lt.mpr (Nat.le_trans (by decide) htarget))
  have hbehind := operand_of_level ho.complete hformed.2 (by rwa [hneeded]) (by decide)
    (fun _ hless hends => ho.name rfl hless hends) ho.stops
  rw [hneeded] at hbehind
  simp only [Expr.shapes, hcall, if_true] at hn ⊢
  unfold Grammar.unary
  refine .peek_bind ho.complete fun t ht => ?_
  have hl : t.lexeme = .mark op.mark := congrArg Shape.lexeme ht
  have hunaryOp : unaryOp? (.mark op.mark) = none := by cases op <;> rfl
  rw [hl, hunaryOp, updateOp_mark]
  simp only [Lexeme.isKeyword, Bool.false_eq_true, if_false]
  refine Reads.advance_bind fun _ _ => ?_
  refine .bind_all (h.unary false hbehind ?_) fun x hx => ?_
  · simp only [List.cons_append, List.length_cons] at hn
    omega
  · have hx' : x.isTarget = true := by rw [isTarget_of_bare hx, hformed.1]
    simp only [checkUpdateTarget, hx', if_true]
    exact .pure (by rw [Expr.bare, Expr.bare, hx])

/-- An operand with the operators before it. -/
theorem reads_unary (h : R.Back n) (b : Bool) (ho : Operand c needed e k unaryLevel)
    (hn : 4 * (parens needed e.shapes b ++ k).length ≤ n) :
    (Grammar.unary R).Reads c (parens needed e.shapes b) k fun x => x.bare = e.bare := by
  by_cases hfits : needed = false → postfixLevel ≤ e.level
  · exact reads_unoperated h b ho hfits hn
  · -- only the expressions that begin with an operator lie between the two levels
    obtain ⟨rfl, hlevel⟩ := Classical.not_imp.mp hfits
    have hunary := ho.fits rfl
    simp only [parens, Bool.false_eq_true, if_false] at hn ⊢
    cases e with
    | unary => exact reads_unaryOp h b ho hn
    | await => exact reads_await h b ho hn
    | update pos op before target =>
      cases before with
      | false => exact absurd (Nat.le_refl _) hlevel
      | true => exact reads_updateBefore h b ho hn
    | binary _ op _ _ =>
      cases op <;> simp [Expr.level, BinaryOp.level, BinaryOp.precedence, unaryLevel,
        conditionalLevel] at hunary
    | _ => simp [Expr.level, postfixLevel, callLevel, primaryLevel, unaryLevel, assignmentLevel,
        conditionalLevel] at hunary hlevel

/-! ## Operators between operands -/

theorem level_lt_unary (op : BinaryOp) : op.level < unaryLevel := by
  cases op <;> decide

theorem binaryOp_mark (op : BinaryOp) : binaryOp? (.mark op.mark) = some op :=
  BinaryOp.ofMark_mark op

theorem pull_mark (op : BinaryOp) : op.mark.pull false = op.level := by
  cases op <;> rfl

/-- A binary operator and its right operand. -/
theorem turn_binary (h : R.Back n) {x left right : Expr} {pos : Position}
    {op : BinaryOp} {level : ℕ}
    (hlevel : level ≤ op.precedence) (hx : x.bare = left.bare)
    (ho : Operand c (right.level < op.level + 1) right k (op.level + 1))
    (hn : 4 * (parens (right.level < op.level + 1) right.shapes false ++ k).length + 2 ≤ n) :
    (binaryTurn R level x).Reads c
      (mark op.mark :: parens (right.level < op.level + 1) right.shapes false) k
      fun turn => ∃ y, turn = .again y ∧ y.bare = (Expr.binary pos op left right).bare := by
  have hc := ho.complete
  refine .peek_bind hc fun t ht => ?_
  have hl : t.lexeme = .mark op.mark := congrArg Shape.lexeme ht
  rw [hl, binaryOp_mark]
  simp only [Lexeme.isKeyword, Bool.false_and, Bool.false_eq_true, if_false,
    if_neg (Nat.not_lt.mpr hlevel)]
  refine Reads.advance_bind fun _ _ => ?_
  have ho : Operand c (right.level < op.level + 1) right k
    (op.precedence + 1 + conditionalLevel) := by
    have : op.precedence + 1 + conditionalLevel = op.level + 1 := by
      rw [BinaryOp.level]
      omega
    rwa [this]
  refine .bind_all (h.binary _ false (Nat.le_add_left 1 _) (by cases op <;> decide) ho hn)
    fun y hy => .pure ⟨_, rfl, ?_⟩
  rw [Expr.bare, Expr.bare, hx, hy]

/-- No operator that binds tightly enough follows. -/
theorem turn_binary_done (hc : c.Complete) {x : Expr} {level : ℕ}
    (hstops : Stops (level + conditionalLevel) k) (hlevel : level + conditionalLevel ≤ unaryLevel) :
    (binaryTurn R level x).Reads c [] k (· = .done x) := by
  refine .peek_bind hc fun t ht => ?_
  have hpull : t.shape.pull < level + conditionalLevel := by
    rw [ht]
    exact hstops
  have has :
      (t.lexeme.isKeyword .asWord && !t.afterBreak && decide (level ≤ asPrecedence)) = false := by
    rw [Bool.and_eq_false_iff, Bool.and_eq_false_iff]
    by_cases hword : t.lexeme = .keyword .asWord
    · have hb : t.afterBreak = true :=
        afterBreak_of_name hpull (Nat.le_trans hlevel (by decide)) (by
        show (t.lexeme.name?).isSome
        rw [hword]
        rfl)
      exact .inl (.inr (by simp [hb]))
    · exact .inl (.inl (isKeyword_false hword))
  rw [has]
  simp only [Bool.false_eq_true, if_false]
  split
  · rename_i op hop
    have hprecedence : op.precedence < level := precedence_lt_of_pull hpull hop
    rw [if_pos hprecedence]
    exact .pure rfl
  · exact .pure rfl

/-- Operands between binary operators, along the operands that their text begins with. -/
theorem reads_binarySpine (h : R.Back n) (hc : c.Complete) {level : ℕ} (hlevel : 1 ≤ level)
    {Q : Expr → Prop} : ∀ (e : Expr) {needed b : Bool} {r k : List Shape}, e.Formed c.site →
      e.Legible (closing needed (r ++ k)) → (needed = false → level + conditionalLevel ≤ e.level) →
      (needed = false → e.NameLegible (r ++ k)) →
      (needed = true → (firstOf (r ++ k)).lexeme = .mark .less → takesTypeArgs e = false) →
      Stops unaryLevel (r ++ k) → (needed = false → Stops (e.level + 1) (r ++ k)) →
      4 * (parens needed e.shapes b ++ (r ++ k)).length + 1 ≤ n →
      (∀ x, x.bare = e.bare → (loop (binaryTurn R level) x).Reads c r k Q) →
      (Grammar.binary R level).Reads c (parens needed e.shapes b ++ r) k Q
  | .binary pos op left right, false, b, r, k, hformed, hlegible, hfits, hname, _,
    hstops, hnext, hn,
      hloop => by
    rw [Expr.Formed] at hformed
    have hlegible : (Expr.binary pos op left right).Legible (r ++ k) := hlegible
    rw [Expr.Legible] at hlegible
    have hfits : level + conditionalLevel ≤ op.level := hfits rfl
    have hshapes : parens false (Expr.binary pos op left right).shapes b ++ r
        = parens (left.level < op.level) left.shapes b ++
          (mark op.mark :: parens (right.level < op.level + 1) right.shapes false ++ r) := by
      simp [parens, Expr.shapes]
    have hlength := congrArg List.length hshapes
    rw [hshapes]
    simp only [List.length_append, List.length_cons] at hlength hn
    have hrest : (mark op.mark :: parens (right.level < op.level + 1) right.shapes false ++ r) ++ k
        = mark op.mark :: parens (right.level < op.level + 1) right.shapes false ++ (r ++ k) := by
      simp
    refine reads_binarySpine h hc hlevel left hformed.1 ?_ ?_ ?_ ?_ ?_ ?_ ?_ fun x hx => ?_
    · rw [hrest]
      exact hlegible.1
    · exact fun hneeded => Nat.le_trans hfits (Nat.not_lt.mp (of_decide_eq_false hneeded))
    · intro hneeded
      rw [hrest]
      exact hlegible.2.1 (of_decide_eq_false hneeded)
    · intro hneeded _
      exact takesTypeArgs_of_level
        (Nat.lt_trans (of_decide_eq_true hneeded) (Nat.lt_trans (level_lt_unary op) (by decide)))
    · exact Stops.mark (by rw [pull_mark]; exact (level_lt_unary op))
    · intro hneeded
      refine Stops.mark ?_
      rw [pull_mark]
      exact Nat.lt_succ_of_le (Nat.not_lt.mp (of_decide_eq_false hneeded))
    · simp only [List.length_append, List.length_cons]
      omega
    · have ho := operand_of_level hc hformed.2 hlegible.2.2
        (Nat.le_trans (level_lt_unary op) (by decide))
        (fun hright hless hends => hname rfl hless (by
          rw [Expr.endsInName, decide_eq_false (Nat.not_lt.mpr hright), hends]
          rfl)) (hnext rfl)
      refine .loop_again (by simp) (turn_binary h ?_ hx ho ?_) hloop
      · rw [BinaryOp.level] at hfits
        omega
      · simp only [List.length_append]
        omega
  | e, true, b, r, k, hformed, hlegible, _, hname, hclosed, hstops, _, hn, hloop =>
    .bind (h.unary b ⟨hc, hformed, hlegible, by simp, hname, hclosed, hstops⟩ hn) hloop
  | .literal .., false, b, r, k, hformed, hlegible, hfits, hname, hclosed, hstops, _, hn, hloop
  | .name .., false, b, r, k, hformed, hlegible, hfits, hname, hclosed, hstops, _, hn, hloop
  | .this .., false, b, r, k, hformed, hlegible, hfits, hname, hclosed, hstops, _, hn, hloop
  | .array .., false, b, r, k, hformed, hlegible, hfits, hname, hclosed, hstops, _, hn, hloop
  | .object .., false, b, r, k, hformed, hlegible, hfits, hname, hclosed, hstops, _, hn, hloop
  | .unary .., false, b, r, k, hformed, hlegible, hfits, hname, hclosed, hstops, _, hn, hloop
  | .call .., false, b, r, k, hformed, hlegible, hfits, hname, hclosed, hstops, _, hn, hloop
  | .member .., false, b, r, k, hformed, hlegible, hfits, hname, hclosed, hstops, _, hn, hloop
  | .index .., false, b, r, k, hformed, hlegible, hfits, hname, hclosed, hstops, _, hn, hloop
  | .construct .., false, b, r, k, hformed, hlegible, hfits, hname, hclosed, hstops, _, hn, hloop
  | .superCall .., false, b, r, k, hformed, hlegible, hfits, hname, hclosed, hstops, _, hn, hloop
  | .await .., false, b, r, k, hformed, hlegible, hfits, hname, hclosed, hstops, _, hn, hloop
  | .function .., false, b, r, k, hformed, hlegible, hfits, hname, hclosed,
    hstops, _, hn, hloop => by
    refine .bind (h.unary b ⟨hc, hformed, hlegible, fun _ => ?_, hname, hclosed, hstops⟩ hn) hloop
    simp [Expr.level, unaryLevel, callLevel, primaryLevel]
  | .update _ _ before _, false, b, r, k, hformed, hlegible, _, hname, hclosed, hstops, _, hn,
      hloop => by
    refine .bind (h.unary b ⟨hc, hformed, hlegible, fun _ => ?_, hname, hclosed, hstops⟩ hn) hloop
    cases before <;> simp [Expr.level, unaryLevel, postfixLevel]
  | .assign .., false, _, _, _, _, _, hfits, _, _, _, _, _, _
  | .conditional .., false, _, _, _, _, _, hfits, _, _, _, _, _, _
  | .arrow .., false, _, _, _, _, _, hfits, _, _, _, _, _, _ => by
    have := hfits rfl
    simp only [Expr.level, assignmentLevel, conditionalLevel] at this
    omega

/-- Operands joined by binary operators of at least a level. -/
theorem reads_binary (h : R.Back n) {level : ℕ} (b : Bool) (hlevel : 1 ≤ level)
    (hle : level + conditionalLevel ≤ unaryLevel)
    (ho : Operand c needed e k (level + conditionalLevel))
    (hn : 4 * (parens needed e.shapes b ++ k).length + 1 ≤ n) :
    (Grammar.binary R level).Reads c (parens needed e.shapes b) k fun x => x.bare = e.bare := by
  have hread := reads_binarySpine (r := []) (Q := fun x => x.bare = e.bare) h ho.complete hlevel e
    ho.formed ho.legible ho.fits ho.name ho.closed (ho.stops.mono hle)
    (fun hneeded => ho.stops.mono (Nat.le_succ_of_le (ho.fits hneeded))) hn fun x hx =>
      .loop_done ((turn_binary_done ho.complete ho.stops hle).mono fun _ ht => ⟨x, ht, hx⟩)
  rwa [List.append_nil] at hread

/-! ## Choices and assignments -/

/-- A mark of an assignment is not drawn to an expression. -/
theorem assignOp_none (hstops : Stops assignmentLevel k) : assignOp? (firstOf k).lexeme = none :=
  assignOp_of_pull hstops

theorem assignOp_mark (op : AssignOp) : assignOp? (.mark op.mark) = some op := by
  cases op <;> decide

theorem pull_assign (op : AssignOp) : op.mark.pull false = assignmentLevel := by
  cases op <;> rfl

/-- An expression that chooses nothing. -/
theorem reads_unconditional (h : R.Back n) (b : Bool)
    (ho : Operand c needed e k (conditionalLevel + 1)) (hstops : Stops conditionalLevel k)
    (hn : 4 * (parens needed e.shapes b ++ k).length + 2 ≤ n) :
    (conditional R).Reads c (parens needed e.shapes b) k fun x => x.bare = e.bare := by
  refine .bind_all (h.binary 1 b (Nat.le_refl _) (by decide) ho hn) fun x hx => ?_
  refine .peek_bind ho.complete fun t ht => ?_
  have hmark : t.lexeme.isMark .question = false := by
    have hpull : t.shape.pull < conditionalLevel := by
      rw [ht]
      exact hstops
    exact isMark_of_pull hpull fun _ => Nat.le_refl _
  rw [hmark]
  exact .pure hx

/-- An expression that chooses between two others. -/
theorem reads_conditional (h : R.Back n) (b : Bool) {pos : Position}
    {condition thenValue elseValue : Expr} (hc : c.Complete)
    (hformed : (Expr.conditional pos condition thenValue elseValue).Formed c.site)
    (hlegible : (Expr.conditional pos condition thenValue elseValue).Legible k)
    (hstops : Stops assignmentLevel k)
    (hn : 4 * ((Expr.conditional pos condition thenValue elseValue).shapes b ++ k).length + 2 ≤ n) :
    (conditional R).Reads c ((Expr.conditional pos condition thenValue elseValue).shapes b) k
      fun x => x.bare = (Expr.conditional pos condition thenValue elseValue).bare := by
  rw [Expr.Formed] at hformed
  rw [Expr.Legible] at hlegible
  obtain ⟨hcondition, hthen, hthenHead, helse, helseHead⟩ := hlegible
  have hshapes : (Expr.conditional pos condition thenValue elseValue).shapes b
      = parens (condition.level < conditionalLevel + 1) condition.shapes b ++
        (mark .question :: (thenValue.shapes false ++
        (mark .colon :: elseValue.shapes false))) := by
    simp [Expr.shapes, parens]
  rw [hshapes] at hn ⊢
  simp only [List.length_append, List.length_cons] at hn
  have ho : Operand c (condition.level < conditionalLevel + 1) condition
      (mark .question :: (thenValue.shapes false ++ mark .colon :: elseValue.shapes false) ++ k)
      (conditionalLevel + 1) :=
    operand_of_level hc hformed.1 (by simpa using hcondition) (by decide)
      (fun _ hless => by simp at hless) (.mark (by decide))
  unfold conditional
  refine .bind (h.binary 1 b (Nat.le_refl _) (by decide) ho ?_) fun x hx => ?_
  · simp only [List.length_append, List.length_cons]
    omega
  refine .peek_bind hc fun t ht => ?_
  have hl : t.lexeme = .mark .question := congrArg Shape.lexeme ht
  rw [hl]
  refine Reads.advance_bind fun _ _ => ?_
  refine .bind (h.whole false hc hformed.2.1 ?_ (.mark (by decide)) ?_ ?_) fun y hy => ?_
  · simpa using hthen
  · simpa using hthenHead
  · simp only [List.length_append, List.length_cons]
    omega
  refine .expectMark_bind hc fun _ => ?_
  refine .bind_all (h.whole false hc hformed.2.2 helse hstops helseHead ?_) fun z hz => .pure ?_
  · simp only [List.length_append]
    omega
  · rw [Expr.bare, Expr.bare, hx, hy, hz]

/-! ## Arrow functions -/

/-- The head of an arrow function after its `async`. -/
theorem reads_arrowHead (h : R.Back n) (hc : c.Complete) {ps : List Param} (b : Bool)
    (hformed : ParamsFormed ps c.site)
    (hlegible : ParamsLegible ps (mark .closeParen :: mark .arrow :: k))
    (hn : 4 * (commas (paramShapes ps) ++ mark .closeParen :: mark .arrow :: k).length + 3 ≤ n) :
    (arrowHead R).Reads c
      (⟨.mark .openParen, b⟩ :: commas (paramShapes ps) ++ [mark .closeParen, mark .arrow]) k
      fun xs => bareParams xs = bareParams ps := by
  have hshapes : ⟨.mark .openParen, b⟩ :: commas (paramShapes ps) ++ [mark .closeParen, mark .arrow]
      = (⟨.mark .openParen, b⟩ :: commas (paramShapes ps) ++ [mark .closeParen]) ++
        [mark .arrow] := by
    simp
  rw [hshapes]
  refine .bind (reads_params h hc b hformed hlegible ?_) fun xs hxs => ?_
  · simp only [List.length_append, List.length_cons, List.length_nil] at hn ⊢
    omega
  refine annotation_bind hc (by simp) (.peek_bind hc fun t ht => ?_)
  have ht : t.shape = mark .arrow := ht
  have hl : t.lexeme = .mark .arrow := congrArg Shape.lexeme ht
  have hb : t.afterBreak = false := congrArg Shape.afterBreak ht
  rw [hl, hb]
  exact Reads.advance_bind fun _ _ => .pure hxs

/-- What an arrow function does. -/
theorem reads_arrowBody (h : R.Back n) (hc : c.Complete) {body : FunctionBody} {isAsync : Bool}
    (hformed : body.Formed (c.site.enterFunction isAsync)) (hlegible : body.Legible k)
    (hstops : Stops assignmentLevel k) (hn : 4 * (body.shapes ++ k).length + 3 ≤ n) :
    (arrowBody R isAsync).Reads c body.shapes k fun x => x.bare = body.bare := by
  unfold arrowBody
  cases body with
  | block body =>
    rw [FunctionBody.Formed] at hformed
    rw [FunctionBody.Legible] at hlegible
    rw [FunctionBody.shapes] at hn ⊢
    refine .atMark_bind hc true (by rw [firstOf_block]; rfl) ?_
    simp only [if_true]
    refine .bind_all (reads_functionBlock h hc false hformed hlegible (by omega)) fun x hx =>
      .pure ?_
    rw [FunctionBody.bare, FunctionBody.bare, hx]
  | expr value =>
    rw [FunctionBody.Formed] at hformed
    rw [FunctionBody.Legible] at hlegible
    rw [FunctionBody.shapes, Expr.level_lt_assignment, Bool.false_or] at hn ⊢
    obtain ⟨hvalue, hhead, hbrace⟩ := hlegible
    refine .atMark_bind hc false (isMark_false fun hl => ?_) ?_
    · cases hobject : value.isObject with
      | true => simp [hobject, parens] at hl
      | false =>
        obtain hisObject | hfirst := hbrace
        · simp [hisObject] at hobject
        · obtain ⟨s, r, hs, -⟩ := value.shapes_begin false hformed
          rw [hobject, parens, if_neg Bool.false_ne_true, hs] at hl
          rw [hs] at hfirst
          exact hfirst hl
    · simp only [Bool.false_eq_true, if_false]
      have ho : Operand (c.enterFunction isAsync) value.isObject value k assignmentLevel :=
        { complete := hc
          formed := hformed
          legible := hvalue
          stops := hstops
          fits := fun _ => value.level_pos
          name := fun _ hless => absurd hless (hstops.ne_less (by decide))
          closed := fun _ hless => absurd hless (hstops.ne_less (by decide)) }
      refine .bind_all (.within (h.assignment false ho ?_ hn)) fun x hx => .pure ?_
      · unfold HeadFits
        split
        · exact fun _ => ‹_›
        · exact hhead
      · rw [FunctionBody.bare, FunctionBody.bare, hx]

/-- An arrow function. -/
theorem reads_arrow (h : R.Back n) (hc : c.Complete) {pos : Position} {ps : List Param}
    {body : FunctionBody} {isAsync : Bool} (b : Bool)
    (hformed : (Expr.arrow pos ps body isAsync).Formed c.site)
    (hlegible : (Expr.arrow pos ps body isAsync).Legible k) (hstops : Stops assignmentLevel k)
    (hn : 4 * ((Expr.arrow pos ps body isAsync).shapes b ++ k).length + 3 ≤ n + 1) :
    (arrow? R).Reads c ((Expr.arrow pos ps body isAsync).shapes b) k
      fun o => ∃ x, o = some x ∧ x.bare = (Expr.arrow pos ps body isAsync).bare := by
  rw [Expr.Formed] at hformed
  rw [Expr.Legible] at hlegible
  have hhead (b : Bool) := reads_arrowHead (k := body.shapes ++ k) h hc b hformed.1
    (by simpa using hlegible.1)
  have hbody := reads_arrowBody (k := k) h hc hformed.2 hlegible.2 hstops
  have htail (pos' : Position) {xs : List Param} (hxs : bareParams xs = bareParams ps)
      (hn : 4 * (body.shapes ++ k).length + 3 ≤ n) : Reads (do
        let body ← arrowBody R isAsync
        return some (Expr.arrow pos' xs body isAsync)) c body.shapes k
        fun o => ∃ x, o = some x ∧ x.bare = (Expr.arrow pos ps body isAsync).bare :=
    .bind_all (hbody hn) fun x hx => .pure ⟨_, rfl, by rw [Expr.bare, Expr.bare, hxs, hx]⟩
  unfold arrow?
  cases isAsync with
  | false =>
    have hshapes : (Expr.arrow pos ps body false).shapes b
        = (⟨.mark .openParen, b⟩ :: commas (paramShapes ps) ++ [mark .closeParen, mark .arrow])
          ++ body.shapes := by
      simp [Expr.shapes, afterAsync]
    rw [hshapes] at hn ⊢
    simp only [List.length_append, List.length_cons, List.length_nil] at hn
    refine .peek_bind hc fun t ht => ?_
    have hl : t.lexeme = .mark .openParen := congrArg Shape.lexeme ht
    rw [hl]
    refine .bind (P := fun o => ∃ xs, o = some xs ∧ bareParams xs = bareParams ps) ?_ ?_
    · refine .peekAt_bind hc fun u hu => ?_
      have hul : u.lexeme = .mark .openParen := congrArg Shape.lexeme hu
      rw [hul]
      refine .speculate_some (hhead b ?_)
      simp only [List.length_append, List.length_cons]
      omega
    · rintro _ ⟨xs, rfl, hxs⟩
      refine htail t.pos hxs ?_
      simp only [List.length_append]
      omega
  | true =>
    have hshapes : (Expr.arrow pos ps body true).shapes b = (⟨.keyword .asyncWord, b⟩ ::
        (mark .openParen :: commas (paramShapes ps) ++ [mark .closeParen, mark .arrow]))
          ++ body.shapes := by
      simp [Expr.shapes, afterAsync, Shape.mark]
    rw [hshapes] at hn ⊢
    simp only [List.length_append, List.length_cons, List.length_nil] at hn
    refine .peek_bind hc fun t ht => ?_
    have hl : t.lexeme = .keyword .asyncWord := congrArg Shape.lexeme ht
    rw [hl]
    refine .peekAt_bind hc fun u hu => ?_
    have hu : u.shape = mark .openParen := hu
    have hul : u.lexeme = .mark .openParen := congrArg Shape.lexeme hu
    have hub : u.afterBreak = false := congrArg Shape.afterBreak hu
    rw [hul, hub]
    refine .bind (P := fun o => ∃ xs, o = some xs ∧ bareParams xs = bareParams ps) ?_ ?_
    · refine .peekAt_bind hc fun v hv => ?_
      have hvl : v.lexeme = .mark .openParen := congrArg Shape.lexeme hv
      rw [hvl]
      refine .speculate_some (Reads.advance_bind fun _ _ => hhead false ?_)
      simp only [List.length_append, List.length_cons]
      omega
    · rintro _ ⟨xs, rfl, hxs⟩
      refine htail t.pos hxs ?_
      simp only [List.length_append]
      omega

/-! ## Expressions -/

/-- An expression that assigns nothing. -/
theorem reads_unassigned (hc : c.Complete) {l : List Shape} (hnone : NotArrow R c (l ++ k))
    (hread : (conditional R).Reads c l k fun x => x.bare = e.bare)
    (hstops : Stops assignmentLevel k) :
    (Grammar.assignment R).Reads c l k fun x => x.bare = e.bare := by
  refine .bind_nil hnone fun o ho => ?_
  subst ho
  refine .peek_bind hc fun start _ => .bind_all hread fun x hx => .peek_bind hc fun t ht => ?_
  have hl : t.lexeme = (firstOf k).lexeme := congrArg Shape.lexeme ht
  rw [hl, assignOp_none hstops]
  exact .pure hx

/-- An assignment. -/
theorem reads_assign (h : R.Back n) (hc : c.Complete) {pos : Position} {op : AssignOp}
    {target value : Expr} (b : Bool) (hformed : (Expr.assign pos op target value).Formed c.site)
    (hlegible : (Expr.assign pos op target value).Legible k)
    (hnone : NotArrow R c ((Expr.assign pos op target value).shapes b ++ k))
    (hstops : Stops assignmentLevel k)
    (hn : 4 * ((Expr.assign pos op target value).shapes b ++ k).length + 3 ≤ n + 1) :
    (Grammar.assignment R).Reads c ((Expr.assign pos op target value).shapes b) k
      fun x => x.bare = (Expr.assign pos op target value).bare := by
  rw [Expr.Formed] at hformed
  rw [Expr.Legible] at hlegible
  have htarget := Expr.callLevel_le_of_isTarget hformed.1
  have hneeded := decide_eq_false (Nat.not_lt.mpr htarget)
  have hshapes : (Expr.assign pos op target value).shapes b
      = parens false target.shapes b ++ (mark op.mark :: value.shapes false) := by
    simp [Expr.shapes, hneeded, parens]
  rw [hshapes] at hn hnone ⊢
  simp only [List.length_append, List.length_cons] at hn
  have ho : Operand c false target ((mark op.mark :: value.shapes false) ++ k)
      (conditionalLevel + 1) :=
    { complete := hc
      formed := hformed.2.1
      legible := hlegible.1
      fits := fun _ => Nat.le_trans (by decide) htarget
      name := fun _ hless => by cases op <;> simp [AssignOp.mark] at hless
      closed := fun h => by cases h
      stops := Stops.mark (by rw [pull_assign]; decide) }
  refine .bind_nil hnone fun o ho' => ?_
  subst ho'
  refine .peek_bind hc fun start _ => .bind (reads_unconditional h b ho ?_ ?_) fun x hx => ?_
  · exact Stops.mark (by rw [pull_assign]; decide)
  · simp only [List.length_append, List.length_cons]
    omega
  refine .peek_bind hc fun t ht => ?_
  have ht : t.shape = mark op.mark := ht
  have hl : t.lexeme = .mark op.mark := congrArg Shape.lexeme ht
  have hx' : x.isTarget = true := by rw [isTarget_of_bare hx, hformed.1]
  rw [hl, assignOp_mark]
  simp only [hx', if_true]
  refine Reads.advance_bind fun _ _ => ?_
  refine .bind_all (h.whole false hc hformed.2.2 hlegible.2.1 hstops hlegible.2.2 ?_)
    fun y hy => .pure (by rw [Expr.bare, Expr.bare, hx, hy])
  simp only [List.length_append]
  omega

/-- An expression, which may stand in parentheses. -/
theorem reads_assignment (h : R.Back n) (b : Bool) (ho : Operand c needed e k assignmentLevel)
    (hhead : HeadFits needed e k) (hn : 4 * (parens needed e.shapes b ++ k).length + 3 ≤ n + 1) :
    (Grammar.assignment R).Reads c (parens needed e.shapes b) k fun x => x.bare = e.bare := by
  have hc := ho.complete
  have hstops := ho.stops
  have hplain (hnone : NotArrow R c (parens needed e.shapes b ++ k))
      (hfits : needed = false → conditionalLevel + 1 ≤ e.level) :
      (Grammar.assignment R).Reads c (parens needed e.shapes b) k fun x => x.bare = e.bare :=
    reads_unassigned hc hnone (reads_unconditional h b
      { ho with fits := hfits, stops := hstops.mono (by decide) }
      (hstops.mono (by decide)) (by omega))
      hstops
  cases needed with
  | true =>
    refine hplain ?_ (by simp)
    exact notArrow_parens h hc ho.formed ho.legible (hstops.mono (by decide)) (by
      simpa [HeadFits] using hhead) hn
  | false =>
    have hnone (harrow : isArrow e = false) : NotArrow R c (e.shapes b ++ k) :=
      notArrow h hc e ho.formed ho.legible (hstops.mono (by decide)) hhead
        (fun _ _ hparen => afterBreak_of_pull hstops (by decide) hparen) harrow hn
    have hlegible : e.Legible k := ho.legible
    have hformed := ho.formed
    cases e with
    | arrow pos ps body isAsync =>
      refine .bind_all (reads_arrow h hc b hformed hlegible hstops hn) ?_
      rintro _ ⟨x, rfl, hx⟩
      exact .pure hx
    | assign pos op target value =>
      exact reads_assign h hc b hformed hlegible (hnone rfl) hstops hn
    | conditional pos condition thenValue elseValue =>
      refine reads_unassigned hc (hnone rfl) ?_ hstops
      exact reads_conditional h b hc hformed hlegible hstops (by
        simp only [parens, Bool.false_eq_true, if_false] at hn
        omega)
    | binary pos op left right =>
      refine hplain (hnone rfl) fun _ => ?_
      cases op <;> simp [Expr.level, BinaryOp.level, BinaryOp.precedence, conditionalLevel]
    | update pos op before target =>
      refine hplain (hnone rfl) fun _ => ?_
      cases before <;> simp [Expr.level, unaryLevel, postfixLevel, conditionalLevel]
    | _ =>
      exact hplain (hnone rfl) fun _ => by
        simp [Expr.level, unaryLevel, callLevel, primaryLevel, conditionalLevel]

end CoScript.Grammar
