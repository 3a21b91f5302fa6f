import CoScript.Proofs.Print.Back.Stmt

/-!
# Programs that are read back

The first lexeme of a statement tells which one it is. An expression that would be taken for another
statement stands in parentheses, so every statement is read by the rule that it was written for.
With that each level of the rules reads everything back that the level below does, up to a longer
length.

Results:
* `Grammar.reads_statement`: a statement in its place is read back by the rules of the next depth.
* `Rules.back_ofDepth`: the rules of a depth read everything back up to a quarter of it.
* `Program.ofTokens_shapes`: tokens that are the shapes of a program stand for that program.
-/

namespace CoScript

open CoScript.Parser Shape

namespace Grammar

variable {R : Rules} {n : ℕ} {c : Context} {k : List Shape} {β : Type} {Q : β → Prop}

/-! ## Leaving -/

theorem reads_breakStmt {pos : Position} (b : Bool) (hs : Stmt.Placed c (.breakStmt pos) k) :
    breakStmt.Reads c ((Stmt.breakStmt pos).shapes b) k
      fun x => x.bare = (Stmt.breakStmt pos).bare := by
  have hc := hs.complete
  have hplace : (c.inLoop || c.inSwitch) = true := hs.formed
  refine .expectKeyword_bind hc fun start => .context_bind ?_
  simp only [hplace, if_true]
  exact endStatement_done hc hs.fresh (hs.ends_line rfl) (.pure rfl)

theorem reads_continueStmt {pos : Position} (b : Bool) (hs : Stmt.Placed c (.continueStmt pos) k) :
    continueStmt.Reads c ((Stmt.continueStmt pos).shapes b) k
      fun x => x.bare = (Stmt.continueStmt pos).bare := by
  have hc := hs.complete
  have hplace : c.inLoop = true := hs.formed
  refine .expectKeyword_bind hc fun start => .context_bind ?_
  simp only [hplace, if_true]
  exact endStatement_done hc hs.fresh (hs.ends_line rfl) (.pure rfl)

/-- A return, whose value starts on the same line. -/
theorem reads_returnStmt (h : R.Back n) {pos : Position} {value : Option Expr} (b : Bool)
    (hs : Stmt.Placed c (.returnStmt pos value) k)
    (hn : 4 * ((Stmt.returnStmt pos value).shapes b ++ k).length + 3 ≤ n) :
    (returnStmt R).Reads c ((Stmt.returnStmt pos value).shapes b) k
      fun x => x.bare = (Stmt.returnStmt pos value).bare := by
  have hc := hs.complete
  have hformed := hs.formed
  have hlegible := hs.legible
  have hends := hs.ends_line rfl
  rw [Stmt.Formed] at hformed
  rw [Stmt.Legible] at hlegible
  rw [Stmt.shapes] at hn ⊢
  have hplace : c.inFunction = true := hformed.1
  refine .expectKeyword_bind hc fun start => .context_bind ?_
  simp only [hplace, if_true]
  refine .peek_bind hc fun t ht => ?_
  cases value with
  | none =>
    have hl : t.lexeme = (firstOf k).lexeme := congrArg Shape.lexeme ht
    have hb : t.afterBreak = (firstOf k).afterBreak := congrArg Shape.afterBreak ht
    have hcond : (t.lexeme.isMark .semicolon || t.lexeme.isMark .closeBrace || t.lexeme.isEnd
        || t.afterBreak) = true := by
      rw [hl, hb]
      obtain h | h := hends <;> simp [h]
    simp only [hcond, if_true, pure_bind]
    exact endStatement_done hc hs.fresh hends (.pure rfl)
  | some e =>
    rw [OptionFormed] at hformed
    rw [OptionLegible] at hlegible
    rw [optionShapes, List.cons_append, List.length_cons] at hn
    obtain ⟨s, r, hshapes, hbegins, hbreak⟩ := e.shapes_begin false hformed.2
    have hcond : (t.lexeme.isMark .semicolon || t.lexeme.isMark .closeBrace || t.lexeme.isEnd
        || t.afterBreak) = false := by
      rw [optionShapes, hshapes] at ht
      have hl : t.lexeme = s.lexeme := congrArg Shape.lexeme ht
      have hb : t.afterBreak = s.afterBreak := congrArg Shape.afterBreak ht
      have hend : s.lexeme.isEnd = false := by
        cases hs : s.lexeme <;> simp_all [Lexeme.begins, Lexeme.isEnd]
      rw [hl, hb, hbreak, hend, Lexeme.isMark_of_begins hbegins rfl,
        Lexeme.isMark_of_begins hbegins rfl]
      rfl
    simp only [hcond, Bool.false_eq_true, if_false, map_eq_pure_bind, bind_assoc, pure_bind]
    refine .bind_all (placed_value h hs false hformed.2 hlegible (by omega)) fun x hx => ?_
    refine endStatement_done hc hs.fresh hends (.pure ?_)
    rw [Stmt.bare, Stmt.bare, bareOption, bareOption, hx]

/-- A throw, whose value starts on the same line. -/
theorem reads_throwStmt (h : R.Back n) {pos : Position} {value : Expr} (b : Bool)
    (hs : Stmt.Placed c (.throwStmt pos value) k)
    (hn : 4 * ((Stmt.throwStmt pos value).shapes b ++ k).length + 3 ≤ n) :
    (throwStmt R).Reads c ((Stmt.throwStmt pos value).shapes b) k
      fun x => x.bare = (Stmt.throwStmt pos value).bare := by
  have hc := hs.complete
  have hformed := hs.formed
  have hlegible := hs.legible
  rw [Stmt.Formed] at hformed
  rw [Stmt.Legible] at hlegible
  rw [Stmt.shapes] at hn ⊢
  rw [List.cons_append, List.length_cons] at hn
  refine .expectKeyword_bind hc fun start => .peek_bind hc fun t ht => ?_
  have hb : t.afterBreak = false := by
    obtain ⟨s, r, hshapes, -, hbreak⟩ := value.shapes_begin false hformed
    rw [hshapes] at ht
    rw [← hbreak]
    exact congrArg Shape.afterBreak ht
  simp only [hb, Bool.false_eq_true, if_false]
  refine .bind_all (placed_value h hs false hformed hlegible (by omega)) fun x hx => ?_
  refine endStatement_done hc hs.fresh (hs.ends_line rfl) (.pure ?_)
  rw [Stmt.bare, Stmt.bare, hx]

/-! ## Guarded statements -/

/-- The name that a handler binds, if it binds one. -/
theorem reads_catchName (hc : c.Complete) {name : Option String} (hname : ∀ x ∈ name, isName x)
    (hk : (firstOf k).lexeme ≠ .mark .openParen) :
    (catchName R).Reads c (catchShapes name) k (· = name) := by
  unfold catchName
  cases name with
  | none =>
    refine .acceptMark_miss hc (isMark_false hk) ?_
    exact .pure rfl
  | some x =>
    refine .acceptMark_hit hc ?_
    simp only [if_true]
    refine .expectName_bind hc (Lexer.wordLexeme_name (hname x rfl)) ?_
    refine annotation_bind hc (by simp) ?_
    exact .expectMark_bind hc fun _ => .pure rfl

/-- A finalizer, if there is one. -/
theorem finalizer_bind (h : R.Back n) (hc : c.Complete) {finalizer : Option Block}
    {f : Option Block → Parser β} (hformed : BlockOptionFormed finalizer c.site)
    (hlegible : BlockOptionLegible finalizer k)
    (hfinally : (firstOf k).lexeme ≠ .keyword .finallyWord)
    (hn : 4 * (clauseShapes [Shape.keyword .finallyWord] finalizer ++ k).length ≤ n)
    (hf : ∀ x, bareBlockOption x = bareBlockOption finalizer → (f x).Reads c [] k Q) :
    Reads (do
      let x ← if ← acceptKeyword .finallyWord then some <$> block R else pure none
      f x) c (clauseShapes [Shape.keyword .finallyWord] finalizer) k Q := by
  cases finalizer with
  | none =>
    refine .acceptKeyword_miss hc (isKeyword_false hfinally) ?_
    exact hf none rfl
  | some body =>
    rw [BlockOptionFormed] at hformed
    rw [BlockOptionLegible] at hlegible
    rw [clauseShapes, List.cons_append, List.nil_append, List.cons_append, List.length_cons] at hn
    refine .acceptKeyword_hit hc ?_
    simp only [if_true, map_eq_pure_bind, bind_assoc, pure_bind]
    refine .bind_all (reads_block h hc false hformed hlegible (by omega)) fun x hx => hf _ ?_
    rw [bareBlockOption, bareBlockOption, hx]

/-- A handler, if there is one, with the name that it binds. -/
theorem handler_bind (h : R.Back n) (hc : c.Complete) {name : Option String}
    {handler : Option Block} {l : List Shape} {f : Option String × Option Block → Parser β}
    (hname : ∀ x ∈ name, isName x ∧ handler.isSome) (hformed : BlockOptionFormed handler c.site)
    (hlegible : BlockOptionLegible handler (l ++ k))
    (hcatch : (firstOf (l ++ k)).lexeme ≠ .keyword .catchWord)
    (hn : 4 * (clauseShapes (Shape.keyword .catchWord :: catchShapes name) handler ++
      (l ++ k)).length ≤ n)
    (hf : ∀ x, bareBlockOption x = bareBlockOption handler → (f (name, x)).Reads c l k Q) :
    Reads (do
      let x ← if ← acceptKeyword .catchWord then do
          let name ← catchName R
          pure (name, some (← block R))
        else pure (none, none)
      f x) c (clauseShapes (Shape.keyword .catchWord :: catchShapes name) handler ++ l) k Q := by
  cases handler with
  | none =>
    obtain rfl : name = none := by
      cases name with
      | none => rfl
      | some x => simpa using (hname x rfl).2
    refine .acceptKeyword_miss hc (isKeyword_false hcatch) ?_
    exact hf none rfl
  | some body =>
    rw [BlockOptionFormed] at hformed
    rw [BlockOptionLegible] at hlegible
    simp only [clauseShapes, List.cons_append, List.append_assoc, List.length_cons,
      List.length_append] at hn ⊢
    refine .acceptKeyword_hit hc ?_
    simp only [if_true, pure_bind]
    refine .bind (P := (· = name)) (reads_catchName hc (fun x hx => (hname x hx).1) ?_) ?_
    · rw [List.append_assoc, firstOf_block]
      simp
    rintro _ rfl
    refine .bind (reads_block h hc false hformed hlegible ?_) fun x hx => hf _ ?_
    · simp only [List.length_append]
      omega
    · rw [bareBlockOption, bareBlockOption, hx]

theorem isNone_of_bareBlock {x y : Option Block} (h : bareBlockOption x = bareBlockOption y) :
    x.isNone = y.isNone := by
  cases x <;> cases y <;> simp_all [bareBlockOption]

/-- Guarded statements. -/
theorem reads_tryStmt (h : R.Back n) {pos : Position} {body : Block} {name : Option String}
    {handler finalizer : Option Block} (b : Bool)
    (hs : Stmt.Placed c (.tryStmt pos body name handler finalizer) k)
    (hn : 4 * ((Stmt.tryStmt pos body name handler finalizer).shapes b ++ k).length + 3 ≤ n) :
    (tryStmt R).Reads c ((Stmt.tryStmt pos body name handler finalizer).shapes b) k
      fun x => x.bare = (Stmt.tryStmt pos body name handler finalizer).bare := by
  have hc := hs.complete
  have hformed := hs.formed
  have hlegible := hs.legible
  rw [Stmt.Formed] at hformed
  rw [Stmt.Legible] at hlegible
  obtain ⟨hbody, hhandler, hfinalizer, hsome, hname⟩ := hformed
  have hcatch : (firstOf (clauseShapes [Shape.keyword .finallyWord] finalizer ++ k)).lexeme ≠
      .keyword .catchWord := by
    cases finalizer with
    | none =>
      intro hcatch
      have hfresh := hs.fresh
      rw [show (firstOf k).lexeme = .keyword .catchWord from hcatch] at hfresh
      cases hfresh
    | some body => simp [clauseShapes, Shape.keyword]
  have hfinally : (firstOf k).lexeme ≠ .keyword .finallyWord := by
    intro hfinally
    have hfresh := hs.fresh
    rw [hfinally] at hfresh
    cases hfresh
  have hshapes : (Stmt.tryStmt pos body name handler finalizer).shapes b = ⟨.keyword .tryWord, b⟩ ::
      (body.shapes false ++ (clauseShapes (Shape.keyword .catchWord :: catchShapes name) handler ++
        clauseShapes [Shape.keyword .finallyWord] finalizer)) := by
    simp [Stmt.shapes]
  rw [hshapes] at hn ⊢
  simp only [List.cons_append, List.append_assoc, List.length_cons, List.length_append] at hn
  refine .expectKeyword_bind hc fun start => ?_
  refine .bind (reads_block h hc false hbody ?_ ?_) fun x hx => ?_
  · rw [List.append_assoc]
    exact hlegible.1
  · simp only [List.length_append]
    omega
  refine handler_bind h hc hname hhandler hlegible.2.1 hcatch ?_ fun y hy => ?_
  · simp only [List.length_append]
    omega
  refine finalizer_bind h hc hfinalizer hlegible.2.2 hfinally ?_ fun z hz => ?_
  · simp only [List.length_append]
    omega
  have hcond : (y.isNone && z.isNone) = false := by
    rw [isNone_of_bareBlock hy, isNone_of_bareBlock hz]
    cases handler <;> cases finalizer <;> simp_all
  simp only [hcond, Bool.false_eq_true, if_false]
  exact .pure (by rw [Stmt.bare, Stmt.bare, hx, hy, hz])

/-! ## Expressions and names of types -/

/-- A name for a type, which is always `any`. -/
theorem reads_typeAlias (h : R.Back n) {pos : Position} {name : String}
    {names : TypeParams} (b : Bool)
    (hs : Stmt.Placed c (.typeAlias pos name names) k)
    (hn : 4 * ((Stmt.typeAlias pos name names).shapes b ++ k).length + 3 ≤ n) :
    (typeAlias R).Reads c ((Stmt.typeAlias pos name names).shapes b) k
      fun x => x.bare = (Stmt.typeAlias pos name names).bare := by
  have hc := hs.complete
  have hformed := hs.formed
  rw [Stmt.Formed] at hformed
  have hshapes : (Stmt.typeAlias pos name names).shapes b = ⟨.keyword .typeWord, b⟩ :: word name ::
      (generics names ++ (mark .assign :: [word "any"])) := by
    simp [Stmt.shapes]
  rw [hshapes] at hn ⊢
  simp only [List.cons_append, List.length_cons, List.length_append, List.length_nil] at hn
  refine .expectKeyword_bind hc fun start =>
    .expectName_bind hc (Lexer.wordLexeme_name hformed.1) ?_
  refine .bind (P := (· = names)) (reads_typeParams hc hformed.2 (by simp)) ?_
  rintro _ rfl
  refine .expectMark_bind hc fun _ => ?_
  refine .bind_all (h.any hc hs.stops hs.fresh ?_) fun _ _ => ?_
  · rw [List.length_cons]
    omega
  · exact endStatement_done hc hs.fresh (hs.ends_line rfl) (.pure rfl)

/-- An expression as a statement. -/
theorem reads_exprStmt (h : R.Back n) {pos : Position} {value : Expr} (b : Bool)
    (hs : Stmt.Placed c (.expr pos value) k)
    (hn : 4 * ((Stmt.expr pos value).shapes b ++ k).length + 3 ≤ n) :
    (exprStmt R).Reads c ((Stmt.expr pos value).shapes b) k
      fun x => x.bare = (Stmt.expr pos value).bare := by
  have hc := hs.complete
  have hformed := hs.formed
  have hlegible := hs.legible
  rw [Stmt.Formed] at hformed
  rw [Stmt.Legible] at hlegible
  rw [Stmt.shapes] at hn ⊢
  have hless : (firstOf k).lexeme ≠ .mark .less := hs.stops.ne_less (by decide)
  have hoperand : Operand c (needsStatementParens value.text) value k assignmentLevel :=
    ⟨hc, hformed, hlegible.1, fun _ => value.level_pos, fun _ h => absurd h hless,
      fun _ h => absurd h hless, hs.stops⟩
  refine .peek_bind hc fun t _ => ?_
  refine .bind_all (h.assignment b hoperand (.of_ne (ne_of_isFresh hs.fresh rfl)) hn) fun x hx => ?_
  refine endStatement_done hc hs.fresh (hs.ends_line rfl) (.pure ?_)
  rw [Stmt.bare, Stmt.bare, hx]

/-! ## All statements -/

/-- A statement that begins with a keyword which declares no variable. -/
theorem statement_keyword (hc : c.Complete) {w : Keyword} {l : List Shape}
    (hl : (firstOf (l ++ k)).lexeme = .keyword w) (hw : declKind? (.keyword w) = none)
    {P : Stmt → Prop} (h : (keywordStmt R w).Reads c l k P) : (statement R).Reads c l k P := by
  refine .peek_bind hc fun t ht => ?_
  have hlexeme : t.lexeme = .keyword w := (congrArg Shape.lexeme ht).trans hl
  simp only [hlexeme, hw]
  exact h

/-- The keyword that starts a declaration where a name follows starts none here. -/
def StartsNoDecl (l : List Shape) : Prop :=
  ((firstOf l).lexeme = .keyword .asyncWord →
      (firstOf (l.drop 1)).lexeme = .keyword .functionWord → (firstOf (l.drop 1)).afterBreak) ∧
    ((firstOf l).lexeme = .keyword .typeWord → (firstOf (l.drop 1)).lexeme.name? = none)

/-- A statement that begins like an expression, and not like another statement. -/
theorem statement_expr (hc : c.Complete) {l : List Shape}
    (hbegins : (firstOf (l ++ k)).lexeme.begins)
    (hbrace : (firstOf (l ++ k)).lexeme ≠ .mark .openBrace)
    (hfunction : (firstOf (l ++ k)).lexeme ≠ .keyword .functionWord) (hdecl : StartsNoDecl (l ++ k))
    {P : Stmt → Prop} (h : (exprStmt R).Reads c l k P) : (statement R).Reads c l k P := by
  cases hl : (firstOf (l ++ k)).lexeme with
  | keyword w =>
    rw [hl] at hbegins hfunction
    refine statement_keyword hc hl (declKind_of_begins hbegins) ?_
    obtain ⟨hasync, htype⟩ := hdecl
    cases w with
    | asyncWord =>
      refine .peekAt_bind hc fun u hu => ?_
      have hcond : (u.lexeme.isKeyword .functionWord && !u.afterBreak) = false := by
        cases hword : u.lexeme.isKeyword .functionWord with
        | false => rfl
        | true =>
          have hul : u.lexeme = (firstOf ((l ++ k).drop 1)).lexeme := congrArg Shape.lexeme hu
          have hub : u.afterBreak = (firstOf ((l ++ k).drop 1)).afterBreak :=
            congrArg Shape.afterBreak hu
          rw [hub, hasync hl (hul ▸ lexeme_of_isKeyword hword)]
          rfl
      simp only [hcond, Bool.false_eq_true, if_false]
      exact h
    | typeWord =>
      refine .peekAt_bind hc fun u hu => ?_
      have hul : u.lexeme.name? = none := by
        rw [← htype hl]
        exact congrArg (fun s => s.lexeme.name?) hu
      simp only [hul, Option.isSome_none, Bool.false_eq_true, if_false]
      exact h
    | functionWord => exact absurd rfl hfunction
    | thisWord | trueWord | falseWord | nullWord | newWord | superWord | awaitWord
    | voidWord | asWord | fromWord | ofWord | promiseWord | undefinedWord => exact h
    | _ => cases hbegins
  | mark m =>
    rw [hl] at hbegins hbrace
    refine .peek_bind hc fun t ht => ?_
    have hlexeme : t.lexeme = .mark m := (congrArg Shape.lexeme ht).trans hl
    rw [hlexeme]
    cases m with
    | openBrace => exact absurd rfl hbrace
    | semicolon => cases hbegins
    | _ => exact h
  | identifier | number | string | endOfInput =>
    refine .peek_bind hc fun t ht => ?_
    have hlexeme := (congrArg Shape.lexeme ht).trans hl
    dsimp only [Token.shape] at hlexeme
    rw [hlexeme]
    exact h

/-- An expression statement starts no declaration. -/
theorem startsNoDecl_of_opens {pos : Position} {value : Expr} (b : Bool)
    (hs : Stmt.Placed c (.expr pos value) k) (hopens : value.Opens b) :
    StartsNoDecl (value.shapes b ++ k) := by
  obtain ⟨x, r, hshapes, -, -, -, -, -, hname⟩ := hopens
  have hlegible := hs.legible
  rw [Stmt.Legible] at hlegible
  have hends := hs.ends_line rfl
  rw [StartsNoDecl, hshapes]
  constructor
  · intro hasync hfunction
    have hasync : x.lexeme = .keyword .asyncWord := hasync
    obtain ⟨-, -, -, rfl⟩ | ⟨m, r', rfl⟩ := hname (by rw [hasync]; rfl)
    · obtain hends | hends := hends
      · have hfunction : (firstOf k).lexeme = .keyword .functionWord := hfunction
        rw [hfunction] at hends
        cases hends
      · exact hends
    · simp [Shape.mark] at hfunction
  · intro htype
    have htype : x.lexeme = .keyword .typeWord := htype
    obtain ⟨p, ident, hvalue, rfl⟩ | ⟨m, r', rfl⟩ := hname (by rw [htype]; rfl)
    · rw [hvalue, Expr.shapes] at hshapes
      obtain ⟨rfl, -⟩ := List.cons.inj hshapes
      have hword := Lexer.wordLexeme_word ident
      rw [show Lexer.wordLexeme ident.toList = .keyword .typeWord from htype] at hword
      obtain rfl : "type" = ident := Option.some.inj hword
      exact hlegible.2 p hvalue
    · rfl

/-- A statement in its place is read back. -/
theorem reads_statement (h : R.Back n) {s : Stmt} (b : Bool) (hs : Stmt.Placed c s k)
    (hn : 4 * (s.shapes b ++ k).length + 3 ≤ n) :
    (statement R).Reads c (s.shapes b) k fun x => x.bare = s.bare := by
  have hc := hs.complete
  have hformed := hs.formed
  have hlegible := hs.legible
  rw [Stmt.Formed.eq_def] at hformed
  rw [Stmt.Legible.eq_def] at hlegible
  cases s with
  | block body =>
    rw [Stmt.shapes] at hn ⊢
    refine .peek_bind hc fun t ht => ?_
    rw [firstOf_block] at ht
    have hl : t.lexeme = .mark .openBrace := congrArg Shape.lexeme ht
    rw [hl]
    refine .bind_all (reads_block h hc b hformed hlegible (by omega)) fun x hx => .pure ?_
    rw [Stmt.bare, Stmt.bare, hx]
  | varDecl d =>
    rw [Stmt.shapes] at hn ⊢
    refine .peek_bind hc fun t ht => ?_
    have hl : t.lexeme = .keyword d.kind.keyword := by
      obtain ⟨_, kind, name, value⟩ := d
      cases value with
      | none => exact congrArg Shape.lexeme ht
      | some e => exact congrArg Shape.lexeme ht
    simp only [hl, declKind_keyword]
    refine .bind_all (reads_varDecl h hc b hformed hlegible hs.stops (ne_of_isFresh hs.fresh rfl)
      (by omega)) fun x hx => ?_
    exact endStatement_done hc hs.fresh (hs.ends_line rfl)
      (.pure (by rw [Stmt.bare, Stmt.bare, hx]))
  | functionDecl d =>
    rw [Stmt.shapes] at hn ⊢
    rw [List.append_assoc, List.cons_append, List.length_append, List.length_cons] at hn
    have hread := reads_functionDecl h hc (!d.isAsync && b) hformed.1 hformed.2 hlegible (by omega)
    cases hasync : d.isAsync with
    | false =>
      rw [hasync] at hread
      refine statement_keyword (w := .functionWord) hc rfl rfl
        (.bind_all hread fun x hx => .pure ?_)
      rw [Stmt.bare, Stmt.bare, hx]
    | true =>
      rw [hasync] at hread
      refine statement_keyword (w := .asyncWord) hc rfl rfl (.peekAt_bind hc fun u hu => ?_)
      have hul : u.lexeme = .keyword .functionWord := congrArg Shape.lexeme hu
      have hub : u.afterBreak = false := congrArg Shape.afterBreak hu
      have hcond : (u.lexeme.isKeyword .functionWord && !u.afterBreak) = true := by
        rw [hul, hub]
        rfl
      simp only [hcond, if_true]
      refine Reads.advance_bind fun _ _ => .bind_all hread fun x hx => .pure ?_
      rw [Stmt.bare, Stmt.bare, hx]
  | classDecl d =>
    rw [Stmt.shapes] at hn ⊢
    refine statement_keyword (w := .classWord) hc (by cases d; rfl) rfl
      (.bind_all (reads_classDecl h hc b hformed hlegible (by omega)) fun x hx => .pure ?_)
    rw [Stmt.bare, Stmt.bare, hx]
  | interfaceDecl d =>
    rw [Stmt.shapes] at hn ⊢
    refine statement_keyword (w := .interfaceWord) hc rfl rfl (.peekAt_bind hc fun u hu => ?_)
    have hname : u.lexeme.name? = some d.name := by
      rw [← Lexer.wordLexeme_name hformed.1]
      exact congrArg (fun s => s.lexeme.name?) hu
    simp only [hname, Option.isSome_some, if_true]
    refine .bind_all (reads_interfaceDecl h hc b hformed (by omega)) fun x hx => .pure ?_
    rw [Stmt.bare, Stmt.bare, hx]
  | typeAlias pos name names =>
    refine statement_keyword (w := .typeWord) hc rfl rfl (.peekAt_bind hc fun u hu => ?_)
    have hname : u.lexeme.name? = some name := by
      rw [← Lexer.wordLexeme_name hformed.1]
      exact congrArg (fun s => s.lexeme.name?) hu
    simp only [hname, Option.isSome_some, if_true]
    exact reads_typeAlias h b hs hn
  | importDecl d =>
    rw [Stmt.shapes] at hn ⊢
    refine statement_keyword (w := .importWord) hc ?_ rfl
      (.bind_all (reads_importDecl hc b hformed.1 hformed.2 hlegible hs.fresh (hs.ends_line rfl))
        fun x hx => .pure ?_)
    · unfold ImportDecl.shapes
      split
      · rfl
      · rfl
    · rw [Stmt.bare, Stmt.bare, hx]
  | branch => exact statement_keyword (w := .ifWord) hc rfl rfl (reads_branch h b hs hn)
  | forLoop => exact statement_keyword (w := .forWord) hc rfl rfl (reads_forLoop h b hs hn)
  | forOf => exact statement_keyword (w := .forWord) hc rfl rfl (reads_forOf h b hs hn)
  | whileLoop => exact statement_keyword (w := .whileWord) hc rfl rfl (reads_whileLoop h b hs hn)
  | switchStmt => exact statement_keyword (w := .switchWord) hc rfl rfl (reads_switchStmt h b hs hn)
  | breakStmt => exact statement_keyword (w := .breakWord) hc rfl rfl (reads_breakStmt b hs)
  | continueStmt =>
    exact statement_keyword (w := .continueWord) hc rfl rfl (reads_continueStmt b hs)
  | returnStmt => exact statement_keyword (w := .returnWord) hc rfl rfl (reads_returnStmt h b hs hn)
  | throwStmt => exact statement_keyword (w := .throwWord) hc rfl rfl (reads_throwStmt h b hs hn)
  | tryStmt => exact statement_keyword (w := .tryWord) hc rfl rfl (reads_tryStmt h b hs hn)
  | expr pos value =>
    have hread := reads_exprStmt h b hs hn
    cases hneeded : needsStatementParens value.text with
    | true =>
      rw [Stmt.shapes, hneeded] at hread ⊢
      exact statement_expr hc rfl (by simp [parens]) (by simp [parens])
        ⟨by simp [parens], by simp [parens]⟩ hread
    | false =>
      rw [Stmt.shapes, hneeded, parens, if_neg Bool.false_ne_true] at hread ⊢
      have hopens := Expr.opens_of_plain b hformed hneeded
      have hdecl := startsNoDecl_of_opens b hs hopens
      obtain ⟨x, r, hshapes, -, hbegins, -, hbrace, hfunction, -⟩ := hopens
      rw [hshapes] at hread hdecl ⊢
      exact statement_expr (l := x :: r) hc hbegins hbrace hfunction hdecl hread

/-- The statements of a program, up to the end of the input. -/
theorem reads_program (h : R.Back n) (hc : c.Complete) {p : Program}
    (hformed : StmtsFormed p.statements c.site) (hlegible : p.Legible)
    (hn : 4 * p.shapes.length + 4 ≤ n) :
    (program R).Reads c p.shapes [] fun x => x.bare = p.bare := by
  have hshapes : p.shapes = lineShapes false p.statements := by
    obtain ⟨ss⟩ := p
    cases ss <;> rfl
  rw [hshapes] at hn ⊢
  have hlines : EndsLine [] := ⟨Nat.zero_lt_one, rfl, .inr rfl, by simp [firstOf]⟩
  refine .bind_all (reads_stmts h hc ?_ ?_ hlines false p.statements [] rfl hformed hlegible ?_)
    fun xs hxs => .pure ?_
  · intro acc l k P hstart hstmt
    refine .peek_bind hc fun t ht => ?_
    have hl : t.lexeme = (firstOf (l ++ k)).lexeme := congrArg Shape.lexeme ht
    rw [hl, (not_end_of_startsStmt hstart).2]
    simp only [Bool.false_eq_true, if_false]
    exact .bind_all hstmt fun s hs => .pure ⟨s, hs, rfl⟩
  · intro acc
    refine .peek_bind hc fun t ht => ?_
    have hl : t.lexeme = .endOfInput := congrArg Shape.lexeme ht
    rw [hl]
    exact .pure rfl
  · rwa [List.append_nil]
  · rw [Program.bare, Program.bare, bareStmts_eq, bareStmts_eq, hxs]
    rfl

end Grammar

/-! ## Programs -/

/-- The rules of a depth read everything back up to a quarter of it. -/
theorem Rules.back_ofDepth (n : ℕ) : (Rules.ofDepth n).Back n := by
  induction n with
  | zero =>
    constructor
    case enough => exact Rules.enough_ofDepth 0
    case depth => exact ⟨0, rfl⟩
    case construction =>
      intro c pos cls args k b _ _ _ hn
      simp [Expr.shapes] at hn
    all_goals intros
    all_goals omega
  | succ n ih =>
    exact {
      enough := Rules.enough_ofDepth (n + 1)
      depth := ⟨n + 1, rfl⟩
      statement := fun b hs hn => Grammar.reads_statement ih b hs (by omega)
      assignment := fun b ho hhead hn => Grammar.reads_assignment ih b ho hhead hn
      binary := fun level b hlevel hle ho hn =>
        Grammar.reads_binary ih b hlevel hle ho (by omega)
      unary := fun b ho hn => Grammar.reads_unary ih b ho (by omega)
      construction := fun b hc hformed hlegible hn =>
        Grammar.reads_construction ih hc b hformed hlegible hn
      any := fun hc hstops hfresh _ => Grammar.reads_any hc hstops hfresh }

/-- Tokens that are the shapes of a program stand for that program, up to positions. -/
theorem Program.ofTokens_shapes {tokens : Tokens} {pos : Position} {p : Program}
    (hending : tokens.ending = .complete pos) (hformed : StmtsFormed p.statements .topLevel)
    (hlegible : p.Legible) (hshapes : tokens.list.map Token.shape = p.shapes) :
    ∃ q, Program.ofTokens tokens = .ok q ∧ q.bare = p.bare := by
  have hc : (Context.topLevel tokens.ending).Complete := ⟨pos, hending⟩
  have hlength : 4 * p.shapes.length + 4 ≤ depthFor tokens.list.length := by
    rw [← hshapes, List.length_map]
    exact Nat.le_refl _
  obtain ⟨q, hq, hbare⟩ := Grammar.reads_program (Rules.back_ofDepth _) hc hformed hlegible hlength
    tokens.list [] hshapes rfl
  rw [List.append_nil] at hq
  refine ⟨q, ?_, hbare⟩
  rw [Program.ofTokens, hq]

end CoScript
