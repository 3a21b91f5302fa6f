import CoScript.Proofs.Print.Back.Class

/-!
# Branches, loops and choices that are read back

Where a header governs a statement, what comes after the statement comes after the part too. The
parts of a choice stand one after the other up to a brace on a line of its own.

Results:
* `Grammar.reads_branch`, `Grammar.reads_whileLoop`, `Grammar.reads_forOf`, `Grammar.reads_forLoop`,
  `Grammar.reads_switchStmt`: each statement is read back.
-/

namespace CoScript

open CoScript.Parser Shape

/-- The part of a statement that a header governs stands before what comes after the statement. -/
theorem Stmt.Placed.part {c c' : Context} {s t : Stmt} {k : List Shape} (hs : Stmt.Placed c s k)
    (hblock : s.isBlock = false) (hc : c'.Complete) (hformed : t.Formed c'.site)
    (hlegible : t.Legible k) (hdangles : t.dangles → s.dangles) : Stmt.Placed c' t k where
  complete := hc
  formed := hformed
  legible := hlegible
  stops := hs.stops
  fresh := hs.fresh
  ends := by
    obtain hends | hends := hs.ends
    · rw [hblock] at hends
      cases hends
    · exact .inr hends
  closed h := hs.closed (hdangles h)

/-- A statement that is no block ends where the line does. -/
theorem Stmt.Placed.ends_line {c : Context} {s : Stmt} {k : List Shape} (hs : Stmt.Placed c s k)
    (hblock : s.isBlock = false) :
    (firstOf k).lexeme.isMark .closeBrace ∨ (firstOf k).afterBreak := by
  obtain hends | hends := hs.ends
  · rw [hblock] at hends
    cases hends
  · exact hends

namespace Grammar

variable {R : Rules} {n : ℕ} {c : Context} {k : List Shape} {β : Type} {Q : β → Prop}

/-! ## Loops and branches -/

/-- An expression in parentheses. -/
theorem reads_parenthesized (h : R.Back n) (hc : c.Complete) {e : Expr} (hformed : e.Formed c.site)
    (hlegible : e.Legible (mark .closeParen :: k))
    (hn : 4 * (e.shapes false ++ mark .closeParen :: k).length + 3 ≤ n) :
    (parenthesized R).Reads c (mark .openParen :: (e.shapes false ++ [mark .closeParen])) k
      fun x => x.bare = e.bare :=
  .expectMark_bind hc fun _ =>
    .bind (h.beforeMark false (by decide) (by decide) hc hformed hlegible hn) fun _ hx =>
      .expectMark_bind hc fun _ => .pure hx

/-- The body of a loop. -/
theorem reads_loopBody (h : R.Back n) {s body : Stmt} (hs : Stmt.Placed c s k)
    (hblock : s.isBlock = false) (hformed : body.Formed c.site.enterLoop)
    (hlegible : body.Legible k)
    (hdangles : body.dangles → s.dangles) (b : Bool)
    (hn : 4 * (body.shapes b ++ k).length + 4 ≤ n) :
    (loopBody R).Reads c (body.shapes b) k fun x => x.bare = body.bare :=
  have hpart : Stmt.Placed c.enterLoop body k :=
    hs.part hblock hs.complete hformed hlegible hdangles
  .within (h.statement b hpart hn)

/-- A loop with a test. -/
theorem reads_whileLoop (h : R.Back n) {pos : Position} {condition : Expr} {body : Stmt} (b : Bool)
    (hs : Stmt.Placed c (.whileLoop pos condition body) k)
    (hn : 4 * ((Stmt.whileLoop pos condition body).shapes b ++ k).length + 3 ≤ n) :
    (whileLoop R).Reads c ((Stmt.whileLoop pos condition body).shapes b) k
      fun x => x.bare = (Stmt.whileLoop pos condition body).bare := by
  have hc := hs.complete
  have hformed := hs.formed
  have hlegible := hs.legible
  rw [Stmt.Formed] at hformed
  rw [Stmt.Legible] at hlegible
  have hshapes : (Stmt.whileLoop pos condition body).shapes b = ⟨.keyword .whileWord, b⟩ ::
      (mark .openParen :: (condition.shapes false ++ [mark .closeParen]) ++
        body.shapes (!body.isBlock)) := by
    simp [Stmt.shapes]
  rw [hshapes] at hn ⊢
  simp only [List.cons_append, List.length_cons, List.length_append, List.length_nil] at hn
  refine .expectKeyword_bind hc fun start => ?_
  refine .bind (reads_parenthesized h hs.complete hformed.1 hlegible.1 ?_) fun x hx => ?_
  · simp only [List.length_append, List.length_cons]
    omega
  refine .bind_all (reads_loopBody h hs rfl hformed.2 hlegible.2 (by simp [Stmt.dangles]) _ ?_)
    fun y hy => .pure ?_
  · simp only [List.length_append]
    omega
  · rw [Stmt.bare, Stmt.bare, hx, hy]

/-- What comes after the first branch. -/
theorem placed_thenBranch {pos : Position} {condition : Expr} {thenBranch : Stmt}
    {elseBranch : Option Stmt}
    (hs : Stmt.Placed c (.branch pos condition thenBranch elseBranch) k) :
    Stmt.Placed c thenBranch (elseShapes (!thenBranch.isBlock) elseBranch ++ k) := by
  have hformed := hs.formed
  have hlegible := hs.legible
  rw [Stmt.Formed] at hformed
  rw [Stmt.Legible] at hlegible
  cases elseBranch with
  | none =>
    simp only [elseShapes, List.nil_append] at hlegible ⊢
    exact hs.part rfl hs.complete hformed.2.1 hlegible.2.1 fun _ => rfl
  | some s =>
    refine ⟨hs.complete, hformed.2.1, hlegible.2.1, ?_, rfl, ?_, fun hdangles => ?_⟩
    · exact Nat.zero_lt_one
    · cases hblock : thenBranch.isBlock with
      | true => exact .inl rfl
      | false => exact .inr (.inr rfl)
    · rw [hformed.2.2.2 rfl] at hdangles
      cases hdangles

/-- A conditional statement. -/
theorem reads_branch (h : R.Back n) {pos : Position} {condition : Expr} {thenBranch : Stmt}
    {elseBranch : Option Stmt} (b : Bool)
    (hs : Stmt.Placed c (.branch pos condition thenBranch elseBranch) k)
    (hn : 4 * ((Stmt.branch pos condition thenBranch elseBranch).shapes b ++ k).length + 3 ≤ n) :
    (branch R).Reads c ((Stmt.branch pos condition thenBranch elseBranch).shapes b) k
      fun x => x.bare = (Stmt.branch pos condition thenBranch elseBranch).bare := by
  have hc := hs.complete
  have hformed := hs.formed
  have hlegible := hs.legible
  rw [Stmt.Formed] at hformed
  rw [Stmt.Legible] at hlegible
  have hthen := placed_thenBranch hs
  have hshapes : (Stmt.branch pos condition thenBranch elseBranch).shapes b =
      ⟨.keyword .ifWord, b⟩ :: (mark .openParen :: (condition.shapes false ++ [mark .closeParen]) ++
        (thenBranch.shapes (!thenBranch.isBlock) ++
          elseShapes (!thenBranch.isBlock) elseBranch)) := by
    simp [Stmt.shapes]
  rw [hshapes] at hn ⊢
  simp only [List.cons_append, List.length_cons, List.length_append, List.length_nil] at hn
  refine .expectKeyword_bind hc fun start => ?_
  refine .bind (reads_parenthesized h hc hformed.1 ?_ ?_) fun x hx => ?_
  · simpa using hlegible.1
  · simp only [List.length_append, List.length_cons]
    omega
  refine .bind (h.statement _ hthen ?_) fun y hy => ?_
  · simp only [List.length_append]
    omega
  cases elseBranch with
  | none =>
    refine .acceptKeyword_miss hc (isKeyword_false (hs.closed rfl)) ?_
    exact .pure (by rw [Stmt.bare, Stmt.bare, hx, hy])
  | some s =>
    rw [elseShapes, List.length_cons] at hn
    refine .acceptKeyword_hit hc ?_
    simp only [if_true, map_eq_pure_bind, bind_assoc, pure_bind]
    have helse : Stmt.Placed c s k := hs.part rfl hc hformed.2.2.1 hlegible.2.2 fun h => h
    refine .bind_all (h.statement _ helse ?_) fun z hz => .pure ?_
    · simp only [List.length_append]
      omega
    · rw [Stmt.bare, Stmt.bare, bareStmtOption, bareStmtOption, hx, hy, hz]

/-! ## Loops with a head of their own -/

/-- A loop over the items of a value. -/
theorem reads_forOf (h : R.Back n) {pos : Position} {kind : DeclKind} {name : String}
    {iterable : Expr} {body : Stmt} (b : Bool)
    (hs : Stmt.Placed c (.forOf pos kind name iterable body) k)
    (hn : 4 * ((Stmt.forOf pos kind name iterable body).shapes b ++ k).length + 3 ≤ n) :
    (forLoop R).Reads c ((Stmt.forOf pos kind name iterable body).shapes b) k
      fun x => x.bare = (Stmt.forOf pos kind name iterable body).bare := by
  have hc := hs.complete
  have hformed := hs.formed
  have hlegible := hs.legible
  rw [Stmt.Formed] at hformed
  rw [Stmt.Legible] at hlegible
  have hshapes : (Stmt.forOf pos kind name iterable body).shapes b = ⟨.keyword .forWord, b⟩ ::
      mark .openParen :: Shape.keyword kind.keyword :: word name :: Shape.keyword .ofWord ::
        (iterable.shapes false ++ mark .closeParen :: body.shapes (!body.isBlock)) := by
    simp [Stmt.shapes]
  rw [hshapes] at hn ⊢
  simp only [List.cons_append, List.length_cons, List.length_append] at hn
  refine .expectKeyword_bind hc fun start => .expectMark_bind hc fun _ =>
    .peek_bind hc fun t ht => ?_
  have hl : t.lexeme = .keyword kind.keyword := congrArg Shape.lexeme ht
  simp only [hl, declKind_keyword]
  refine .peekAt_bind hc fun u hu => ?_
  have hof : u.lexeme.isKeyword .ofWord = true := by
    have hl : u.lexeme = .keyword .ofWord := congrArg Shape.lexeme hu
    rw [hl]
    rfl
  simp only [hof, if_true]
  refine Reads.advance_bind fun _ _ => .expectName_bind hc (Lexer.wordLexeme_name hformed.1)
    (.expectKeyword_bind hc fun _ => ?_)
  refine .bind (h.beforeMark (k := body.shapes (!body.isBlock) ++ k) false
    (by decide) (by decide) hc
    hformed.2.1 hlegible.1 ?_) fun x hx => ?_
  · simp only [List.length_append, List.length_cons]
    omega
  refine .expectMark_bind hc fun _ => ?_
  refine .bind_all (reads_loopBody h hs rfl hformed.2.2 hlegible.2 (by simp [Stmt.dangles]) _ ?_)
    fun y hy => .pure ?_
  · simp only [List.length_append]
    omega
  · rw [Stmt.bare, Stmt.bare, hx, hy]

/-- No expression begins with the keyword of a declaration. -/
theorem declKind_of_begins {l : Lexeme} (h : l.begins) : declKind? l = none := by
  cases l with
  | keyword w => cases w <;> simp_all [Lexeme.begins, Keyword.isContextual, declKind?]
  | _ => rfl

/-- What a `for` loop does first, before the semicolon. -/
theorem reads_forInit (h : R.Back n) (hc : c.Complete) {init : Option ForInit}
    (hformed : InitFormed init c.site) (hlegible : InitLegible init (mark .semicolon :: k))
    (hn : 4 * (initShapes init ++ mark .semicolon :: k).length + 3 ≤ n) :
    (forInit R).Reads c (initShapes init) (mark .semicolon :: k) fun x => bareInit x =
      bareInit init := by
  cases init with
  | none =>
    refine .peek_bind hc fun t ht => ?_
    have hl : t.lexeme = .mark .semicolon := congrArg Shape.lexeme ht
    rw [hl]
    exact .pure rfl
  | some i =>
    rw [InitFormed] at hformed
    cases i with
    | declare d =>
      rw [ForInit.Formed] at hformed
      rw [InitLegible] at hlegible
      rw [initShapes, ForInit.shapes] at hn ⊢
      have hread := reads_varDecl h hc false hformed hlegible (.mark (by decide))
        (by simp) (by omega)
      have hfirst : firstOf (d.shapes false) = Shape.keyword d.kind.keyword := by
        obtain ⟨_, _, _, value⟩ := d
        cases value <;> rfl
      have hne : d.shapes false ≠ [] := by
        obtain ⟨_, _, _, value⟩ := d
        cases value <;> simp [VarDecl.shapes]
      refine .peek_bind hc fun t ht => ?_
      rw [firstOf_append hne, hfirst] at ht
      have hl : t.lexeme = .keyword d.kind.keyword := congrArg Shape.lexeme ht
      simp only [hl, Lexeme.isMark, Bool.false_eq_true, if_false, declKind_keyword]
      refine .bind_all hread fun x hx => .pure ?_
      rw [bareInit, bareInit, ForInit.bare, ForInit.bare, hx]
    | expr pos e =>
      rw [ForInit.Formed] at hformed
      rw [InitLegible] at hlegible
      rw [initShapes, ForInit.shapes] at hn ⊢
      refine .peek_bind hc fun t ht => ?_
      have hbegins : t.lexeme.begins := by
        obtain ⟨s, r, hshapes, hs, -⟩ := e.shapes_begin false hformed
        rw [hshapes] at ht
        have hl : t.lexeme = s.lexeme := congrArg Shape.lexeme ht
        rw [hl]
        exact hs
      rw [Lexeme.isMark_of_begins hbegins rfl]
      simp only [Bool.false_eq_true, if_false, declKind_of_begins hbegins]
      refine .bind_all (h.beforeMark false (by decide)
        (by decide) hc hformed hlegible hn) fun x hx =>
        .pure ?_
      rw [bareInit, bareInit, ForInit.bare, ForInit.bare, hx]

/-- An expression that may be left out, before a mark. -/
theorem reads_exprUnless (h : R.Back n) (hc : c.Complete) {m : Mark} (hm : m ≠ .colon)
    (hpull : m.pull false < assignmentLevel) (hbegins : (Lexeme.mark m).begins = false)
    {value : Option Expr} (hformed : OptionFormed value c.site)
    (hlegible : OptionLegible value (mark m :: k))
    (hn : 4 * (optionShapes value ++ mark m :: k).length + 3 ≤ n) :
    (exprUnless R m).Reads c (optionShapes value) (mark m :: k)
      fun x => bareOption x = bareOption value := by
  unfold exprUnless
  cases value with
  | none =>
    refine .atMark_bind hc true ?_ (.pure rfl)
    simp [optionShapes, Lexeme.isMark]
  | some e =>
    rw [OptionFormed] at hformed
    rw [OptionLegible] at hlegible
    rw [optionShapes] at hn ⊢
    refine .atMark_bind hc false ?_ ?_
    · obtain ⟨s, r, hshapes, hs, -⟩ := e.shapes_begin false hformed
      rw [hshapes]
      exact Lexeme.isMark_of_begins hs hbegins
    · simp only [Bool.false_eq_true, if_false]
      refine .map ((h.beforeMark false hm hpull hc hformed hlegible hn).mono fun x hx => ?_)
      rw [bareOption, bareOption, hx]

/-- A loop with a start, a test and an update. -/
theorem reads_forClassic (h : R.Back n) (start : Position) {pos : Position} {init : Option ForInit}
    {condition update : Option Expr} {body : Stmt}
    (hs : Stmt.Placed c (.forLoop pos init condition update body) k)
    (hn : 4 * ((Stmt.forLoop pos init condition update body).shapes true ++ k).length + 3 ≤ n) :
    (forClassic R start).Reads c (initShapes init ++ (mark .semicolon :: (optionShapes condition ++
      (mark .semicolon :: (optionShapes update ++ (mark .closeParen ::
        body.shapes (!body.isBlock))))))) k
      fun x => x.bare = (Stmt.forLoop pos init condition update body).bare := by
  have hc := hs.complete
  have hformed := hs.formed
  have hlegible := hs.legible
  rw [Stmt.Formed] at hformed
  rw [Stmt.Legible] at hlegible
  rw [Stmt.shapes] at hn
  simp only [List.cons_append, List.append_assoc, List.length_cons, List.length_append] at hn
  refine .bind (reads_forInit (k := (optionShapes condition ++ (mark .semicolon ::
    (optionShapes update ++ (mark .closeParen :: body.shapes (!body.isBlock))))) ++ k)
    h hc hformed.1 ?_ ?_) fun i hi => ?_
  · simpa using hlegible.1
  · simp only [List.length_append, List.length_cons]
    omega
  refine .expectMark_bind hc fun _ => ?_
  refine .bind (reads_exprUnless (k := (optionShapes update ++
    (mark .closeParen :: body.shapes (!body.isBlock))) ++ k) h hc (by decide) (by decide) rfl
    hformed.2.1 ?_ ?_) fun x hx => ?_
  · simpa using hlegible.2.1
  · simp only [List.length_append, List.length_cons]
    omega
  refine .expectMark_bind hc fun _ => ?_
  refine .bind (reads_exprUnless (k := body.shapes (!body.isBlock) ++ k) h hc
    (by decide) (by decide) rfl
    hformed.2.2.1 hlegible.2.2.1 ?_) fun y hy => ?_
  · simp only [List.length_append, List.length_cons]
    omega
  refine .expectMark_bind hc fun _ => ?_
  refine .bind_all (reads_loopBody h hs rfl hformed.2.2.2 hlegible.2.2.2
    (by simp [Stmt.dangles]) _ ?_)
    fun z hz => .pure ?_
  · simp only [List.length_append]
    omega
  · rw [Stmt.bare, Stmt.bare, hi, hx, hy, hz]

/-- A loop with a start, a test and an update, with its keyword. -/
theorem reads_forLoop (h : R.Back n) {pos : Position} {init : Option ForInit}
    {condition update : Option Expr} {body : Stmt} (b : Bool)
    (hs : Stmt.Placed c (.forLoop pos init condition update body) k)
    (hn : 4 * ((Stmt.forLoop pos init condition update body).shapes b ++ k).length + 3 ≤ n) :
    (forLoop R).Reads c ((Stmt.forLoop pos init condition update body).shapes b) k
      fun x => x.bare = (Stmt.forLoop pos init condition update body).bare := by
  have hc := hs.complete
  have hformed := hs.formed
  rw [Stmt.Formed] at hformed
  have hshapes (b : Bool) : (Stmt.forLoop pos init condition update body).shapes b =
      ⟨.keyword .forWord, b⟩ :: mark .openParen :: (initShapes init ++ (mark .semicolon ::
        (optionShapes condition ++ (mark .semicolon :: (optionShapes update ++ (mark .closeParen ::
          body.shapes (!body.isBlock))))))) := by
    simp [Stmt.shapes]
  have hlength : ((Stmt.forLoop pos init condition update body).shapes true ++ k).length =
      ((Stmt.forLoop pos init condition update body).shapes b ++ k).length := by
    rw [hshapes, hshapes]
    rfl
  have hclassic (start : Token) := reads_forClassic h start.pos hs (by rwa [hlength])
  rw [hshapes]
  refine .expectKeyword_bind hc fun start => .expectMark_bind hc fun _ =>
    .peek_bind hc fun t ht => ?_
  obtain hnone | ⟨d, rfl⟩ : declKind? t.lexeme = none ∨ ∃ d, init = some (.declare d) := by
    cases init with
    | none =>
      have hl : t.lexeme = .mark .semicolon := congrArg Shape.lexeme ht
      exact .inl (by rw [hl]; rfl)
    | some i =>
      cases i with
      | declare d => exact .inr ⟨d, rfl⟩
      | expr pos e =>
        rw [InitFormed, ForInit.Formed] at hformed
        obtain ⟨s, r, hshapes, hbegins, -⟩ := e.shapes_begin false hformed.1
        rw [initShapes, ForInit.shapes, hshapes] at ht
        have hl : t.lexeme = s.lexeme := congrArg Shape.lexeme ht
        exact .inl (by rw [hl, declKind_of_begins hbegins])
  · rw [hnone]
    exact hclassic start
  · obtain ⟨dpos, kind, name, value⟩ := d
    have hfirst : t.lexeme = .keyword kind.keyword := by
      cases value with
      | none => exact congrArg Shape.lexeme ht
      | some e => exact congrArg Shape.lexeme ht
    simp only [hfirst, declKind_keyword]
    refine .peekAt_bind hc fun u hu => ?_
    have hof : u.lexeme.isKeyword .ofWord = false := by
      cases value with
      | none =>
        have hl : u.lexeme = .mark .semicolon := congrArg Shape.lexeme hu
        rw [hl]
        rfl
      | some e =>
        have hl : u.lexeme = .mark .assign := congrArg Shape.lexeme hu
        rw [hl]
        rfl
    simp only [hof, Bool.false_eq_true, if_false]
    exact hclassic start

/-! ## Choices -/

/-- What stands before the colon of a clause. -/
def testShapes : Option Expr → List Shape
  | none => [⟨.keyword .defaultWord, true⟩]
  | some e => ⟨.keyword .caseWord, true⟩ :: e.shapes false

theorem case_shapes (x : SwitchCase) :
    x.shapes = testShapes x.test ++ (mark .colon :: lineShapes true x.body) := by
  obtain ⟨_, test, body⟩ := x
  cases test <;> simp [SwitchCase.shapes, testShapes, stmtShapes_flatten]

/-- The test of a clause is read as such before the colon. -/
def TestLegible (test : Option Expr) (k : List Shape) : Prop :=
  ∀ e ∈ test, e.Legible (mark .colon :: k) ∧ e.HeadLegible (mark .colon :: k)

theorem case_legible {x : SwitchCase} (h : x.Legible k) :
    TestLegible x.test (lineShapes true x.body ++ k) ∧ StmtsLegible x.body k := by
  obtain ⟨_, test, body⟩ := x
  cases test with
  | none =>
    rw [SwitchCase.Legible] at h
    exact ⟨by simp [TestLegible], h⟩
  | some e =>
    rw [SwitchCase.Legible, stmtShapes_flatten] at h
    exact ⟨by simpa [TestLegible] using ⟨h.1, h.2.1⟩, h.2.2⟩

/-- The test of a clause. -/
theorem reads_caseTest (h : R.Back n) (hc : c.Complete) {test : Option Expr} {seen : Bool}
    (hseen : test = none → seen = false) (hformed : OptionFormed test c.site)
    (hlegible : TestLegible test k)
    (hn : 4 * (testShapes test ++ mark .colon :: k).length ≤ n + 1) :
    (caseTest R seen).Reads c (testShapes test) (mark .colon :: k)
      fun x => bareOption x = bareOption test := by
  unfold caseTest
  cases test with
  | none =>
    refine .peek_bind hc fun t ht => ?_
    have hl : t.lexeme = .keyword .defaultWord := congrArg Shape.lexeme ht
    have hcase : (Lexeme.keyword .defaultWord).isKeyword .caseWord = false := rfl
    have hdefault : (Lexeme.keyword .defaultWord).isKeyword .defaultWord = true := rfl
    simp only [hl, hcase, hdefault, hseen rfl, Bool.false_eq_true, if_false, if_true]
    exact Reads.advance_bind fun _ _ => .pure rfl
  | some e =>
    rw [OptionFormed] at hformed
    obtain ⟨hlegible, hhead⟩ := hlegible e rfl
    refine .peek_bind hc fun t ht => ?_
    have hl : t.lexeme = .keyword .caseWord := congrArg Shape.lexeme ht
    have hcase : (Lexeme.keyword .caseWord).isKeyword .caseWord = true := rfl
    simp only [hl, hcase, if_true]
    refine Reads.advance_bind fun _ _ => .map ?_
    refine (h.whole false hc hformed hlegible (.mark (by decide)) hhead ?_).mono fun x hx => ?_
    · simp only [testShapes, List.cons_append, List.length_cons] at hn ⊢
      omega
    · rw [bareOption, bareOption, hx]

/-- What comes after a clause: another one, or the end of the choice. -/
def EndsCase (k : List Shape) : Prop :=
  (firstOf k).afterBreak ∧ ((firstOf k).lexeme = .keyword .caseWord ∨
    (firstOf k).lexeme = .keyword .defaultWord ∨ (firstOf k).lexeme = .mark .closeBrace)

theorem EndsCase.line (h : EndsCase k) : EndsLine k := by
  obtain ⟨hbreak, hlexeme⟩ := h
  have hfresh : (firstOf k).lexeme.isFresh := by
    obtain h | h | h := hlexeme <;> rw [h] <;> rfl
  refine ⟨?_, hfresh, .inr hbreak, ?_⟩
  · exact Nat.lt_of_le_of_lt (Nat.le_of_eq (pull_of_isFresh hfresh hbreak)) Nat.zero_lt_one
  · obtain h | h | h := hlexeme <;> simp [h]

theorem endsCase_cases (cs : List SwitchCase) (k : List Shape) :
    EndsCase (caseShapes cs ++ ⟨.mark .closeBrace, true⟩ :: k) := by
  cases cs with
  | nil => exact ⟨rfl, .inr (.inr rfl)⟩
  | cons x r =>
    rw [caseShapes, case_shapes]
    cases hx : x.test with
    | none => exact ⟨rfl, .inr (.inl rfl)⟩
    | some e => exact ⟨rfl, .inl rfl⟩

/-- A lexeme that a statement may begin with ends no clause. -/
theorem not_case_of_startsStmt {l : Lexeme} (h : l.startsStmt) :
    l.isKeyword .caseWord = false ∧ l.isKeyword .defaultWord = false := by
  constructor
  · refine isKeyword_false ?_
    rintro rfl
    cases h
  · refine isKeyword_false ?_
    rintro rfl
    cases h

/-- A clause of a choice. -/
theorem reads_switchCase (h : R.Back n) (hc : c.Complete) {x : SwitchCase} {seen : Bool}
    (hseen : x.test = none → seen = false) (hformed : x.Formed c.site) (hlegible : x.Legible k)
    (hk : EndsCase k) (hn : 4 * (x.shapes ++ k).length ≤ n + 1) :
    (switchCase R seen).Reads c x.shapes k fun y => y.bare = x.bare := by
  have hlegible := case_legible hlegible
  rw [case_shapes] at hn ⊢
  obtain ⟨pos, test, body⟩ := x
  rw [SwitchCase.Formed] at hformed
  simp only [List.append_assoc, List.cons_append, List.length_append, List.length_cons] at hn
  refine .peek_bind hc fun start _ => ?_
  refine .bind (reads_caseTest (k := lineShapes true body ++ k) h hc hseen hformed.1 hlegible.1 ?_)
    fun x hx => ?_
  · simp only [List.length_append, List.length_cons]
    omega
  refine .expectMark_bind hc fun _ => ?_
  refine .bind_all (reads_stmts h hc ?_ ?_ hk.line true body [] rfl hformed.2 hlegible.2 ?_)
    fun xs hxs => .pure ?_
  · intro acc l k' P hstart hstmt
    refine .peek_bind hc fun t ht => ?_
    have hl : t.lexeme = (firstOf (l ++ k')).lexeme := congrArg Shape.lexeme ht
    obtain ⟨hcase, hdefault⟩ := not_case_of_startsStmt hstart
    obtain ⟨hbrace, hend⟩ := not_end_of_startsStmt hstart
    simp only [hl, hcase, hdefault, hbrace, hend, Bool.or_self, Bool.false_eq_true, if_false]
    exact .bind_all hstmt fun s hs => .pure ⟨s, hs, rfl⟩
  · intro acc
    refine .peek_bind hc fun t ht => ?_
    have hl : t.lexeme = (firstOf k).lexeme := congrArg Shape.lexeme ht
    have hends : (t.lexeme.isKeyword .caseWord || t.lexeme.isKeyword .defaultWord
        || t.lexeme.isMark .closeBrace) = true := by
      rw [hl]
      obtain h | h | h := hk.2 <;> rw [h] <;> rfl
    simp only [hends, if_true]
    exact .pure rfl
  · have htest : 1 ≤ (testShapes test).length := by cases test <;> simp [testShapes]
    simp only [List.length_append]
    omega
  · rw [SwitchCase.bare, SwitchCase.bare, hx, bareStmts_eq, bareStmts_eq, hxs]
    rfl

/-- Whether a default clause has been read does not depend on positions. -/
theorem any_default_of_bare {xs ys : List SwitchCase}
    (h : xs.map SwitchCase.bare = ys.map SwitchCase.bare) :
    xs.any (·.test.isNone) = ys.any (·.test.isNone) := by
  have hbare (x : SwitchCase) : x.bare.test.isNone = x.test.isNone := by
    obtain ⟨_, test, _⟩ := x
    cases test <;> rfl
  have hany (zs : List SwitchCase) :
      (zs.map SwitchCase.bare).any (·.test.isNone) = zs.any (·.test.isNone) := by
    simp [List.any_map, Function.comp_def, hbare]
  rw [← hany, h, hany]

/-- The clauses of a choice and the closing brace; `pre` are the clauses before them. -/
theorem reads_cases (h : R.Back n) (hc : c.Complete) (cs pre acc : List SwitchCase)
    (hacc : acc.map SwitchCase.bare = pre.map SwitchCase.bare) (hformed : CasesFormed cs c.site)
    (hlegible : CasesLegible cs (⟨.mark .closeBrace, true⟩ :: k))
    (hcount : (pre ++ cs).countP (·.test.isNone) ≤ 1)
    (hn : 4 * (caseShapes cs ++ ⟨.mark .closeBrace, true⟩ :: k).length ≤ n + 1) :
    (loop (fun cases : List SwitchCase => do
      if ← acceptMark .closeBrace then return Turn.done cases
      else return .again (cases ++ [← switchCase R (cases.any (·.test.isNone))])) acc).Reads c
        (caseShapes cs ++ [⟨.mark .closeBrace, true⟩]) k
        fun xs => xs.map SwitchCase.bare = (pre ++ cs).map SwitchCase.bare := by
  induction cs generalizing pre acc with
  | nil =>
    refine .loop_done (.acceptMark_hit hc ?_)
    exact .pure ⟨_, rfl, by rwa [List.append_nil]⟩
  | cons x r ih =>
    rw [CasesFormed] at hformed
    rw [CasesLegible] at hlegible
    rw [caseShapes, List.append_assoc] at hn ⊢
    have hseen : x.test = none → acc.any (·.test.isNone) = false := by
      intro hx
      rw [any_default_of_bare hacc, Bool.eq_false_iff]
      intro hany
      have hpos : 0 < pre.countP (·.test.isNone) := by
        rw [List.countP_pos_iff]
        simpa using hany
      rw [List.countP_append, List.countP_cons_of_pos (by simp [hx])] at hcount
      omega
    have hne : x.shapes ≠ [] := by
      rw [case_shapes]
      cases x.test <;> simp [testShapes]
    have hbrace :
        (firstOf (x.shapes ++ ((caseShapes r ++ [⟨.mark .closeBrace, true⟩]) ++ k))).lexeme.isMark
        .closeBrace = false := by
      rw [case_shapes]
      cases x.test <;> rfl
    refine .loop_again (I := fun xs => xs.map SwitchCase.bare =
      (pre ++ [x]).map SwitchCase.bare) hne ?_
      fun xs hxs => ?_
    · refine .acceptMark_miss hc hbrace ?_
      simp only [Bool.false_eq_true, if_false]
      have hends : EndsCase ((caseShapes r ++ [⟨.mark .closeBrace, true⟩]) ++ k) := by
        rw [List.append_assoc]
        exact endsCase_cases r k
      refine .bind_all (reads_switchCase h hc hseen hformed.1 ?_ hends ?_) fun y hy =>
        .pure ⟨_, rfl, by simp [hacc, hy]⟩
      · rw [List.append_assoc]
        exact hlegible.1
      · rw [List.append_assoc]
        exact hn
    · have hrest := ih (pre ++ [x]) xs hxs hformed.2 hlegible.2 (by simpa using hcount) (by
        rw [List.length_append] at hn
        omega)
      simpa using hrest

/-- A choice between clauses. -/
theorem reads_switchStmt (h : R.Back n) {pos : Position} {discriminant : Expr}
    {cases : List SwitchCase} (b : Bool)
    (hs : Stmt.Placed c (.switchStmt pos discriminant cases) k)
    (hn : 4 * ((Stmt.switchStmt pos discriminant cases).shapes b ++ k).length + 3 ≤ n) :
    (switchStmt R).Reads c ((Stmt.switchStmt pos discriminant cases).shapes b) k
      fun x => x.bare = (Stmt.switchStmt pos discriminant cases).bare := by
  have hc := hs.complete
  have hformed := hs.formed
  have hlegible := hs.legible
  rw [Stmt.Formed] at hformed
  rw [Stmt.Legible] at hlegible
  have hshapes : (Stmt.switchStmt pos discriminant cases).shapes b = ⟨.keyword .switchWord, b⟩ ::
      (mark .openParen :: (discriminant.shapes false ++ [mark .closeParen]) ++
        mark .openBrace :: (caseShapes cases ++ [⟨.mark .closeBrace, true⟩])) := by
    simp [Stmt.shapes]
  rw [hshapes] at hn ⊢
  simp only [List.cons_append, List.length_cons, List.length_append, List.length_nil] at hn
  refine .expectKeyword_bind hc fun start => ?_
  refine .bind (reads_parenthesized h hc hformed.1 ?_ ?_) fun x hx => ?_
  · simpa using hlegible.1
  · simp only [List.length_append, List.length_cons, List.length_nil]
    omega
  refine .expectMark_bind hc fun _ => ?_
  refine .bind_all (.within (reads_cases (c := c.enterSwitch) h hc cases [] [] rfl hformed.2.1
    hlegible.2 hformed.2.2 ?_)) fun xs hxs => .pure ?_
  · simp only [List.length_append, List.length_cons]
    omega
  · simp only [List.nil_append] at hxs
    rw [Stmt.bare, Stmt.bare, bareCases_eq, bareCases_eq, hx, hxs]

end Grammar

end CoScript
