import CoScript.Proofs.Parse.Depth

/-!
# No text nests too deep

The rules for statements take words that close their brackets, as those for expressions do. So at
the depth that the number of tokens asks for, no rule gives up, and neither does the parser of a
program.

Results:
* `Rules.enough_ofDepth`: the rules of a depth are enough for a quarter of it.
* `Program.ofTokens_cases`: what tokens stand for.
* `parse_ne_tooDeep`: no text nests too deep.
-/

namespace CoScript

open CoScript.Parser

namespace Grammar

variable {R : Rules} {n : ℕ} {c : Context} {ts : List Token} {a : ℕ}

/-! ## Declarations -/

theorem nest_of_declKind {l : Lexeme} {kind : DeclKind} (h : declKind? l = some kind) (a : ℕ) :
    l ≠ .endOfInput ∧ l.nest a = some a := by
  unfold declKind? at h
  split at h
  all_goals first | exact ⟨by simp, rfl⟩ | simp at h

theorem takes_initializer (h : R.Enough n) (hts : 4 * ts.length ≤ n + 1) :
    (initializer R).Takes c ts a (fun _ => a) fun _ => 0 :=
  .acceptMark_bind rfl (fun rest hr => .map (h.assignment c rest a (by omega)) (fun _ => rfl)
    fun _ => Nat.zero_le _) (.pure rfl rfl)

theorem takes_varDecl (h : R.Enough n) {t : Token} {kind : DeclKind} (ht : Ahead ts 0 t)
    (hkind : declKind? t.lexeme = some kind) (hts : 4 * ts.length ≤ n + 1) :
    (varDecl R kind).Takes c ts a (fun _ => a) fun _ => 1 := by
  obtain ⟨hend, hnest⟩ := nest_of_declKind hkind a
  refine .advance_shorter ht hend hnest fun rest hrest => ?_
  refine .bind .expectName fun name rest' hr' => .bind (takes_annotated h (by omega))
    fun _ rest'' hr'' => .bind (takes_initializer h (by omega)) fun value _ _ => ?_
  split
  · exact .reject
  · exact .pure rfl rfl

theorem takes_functionRest (h : R.Enough n) (pos : Position) (name : String) (isAsync : Bool)
    (hts : 4 * ts.length ≤ n) :
    (functionRest R pos name isAsync).Takes c ts a (fun _ => a) fun _ => 1 :=
  .bind (takes_typeParams h (by omega)) fun _ _ _ => .bind (takes_params h (by omega))
    fun _ _ _ => .bind (takes_annotated h (by omega)) fun _ _ _ =>
    .bind (takes_functionBlock h isAsync (by omega)) fun _ _ _ => .pure rfl rfl

theorem takes_functionDecl (h : R.Enough n) (isAsync : Bool) (hts : 4 * ts.length ≤ n + 1) :
    (functionDecl R isAsync).Takes c ts a (fun _ => a) fun _ => 1 :=
  .bind .expectKeyword fun _ _ _ => .bind .expectName fun _ _ _ =>
    (takes_functionRest h _ _ isAsync (by omega)).mono fun _ => by omega

theorem takes_modifierTurn {u : Unit} :
    (modifierTurn u).Takes c ts a (Turn.nest (fun _ => a) fun _ => a) Turn.least := by
  refine .peek_bind fun t ht => ?_
  split
  · rename_i name hl
    split
    · simp only [wordFollows, bind_assoc, pure_bind]
      refine .peekAt_bind fun t' _ => ?_
      split
      · exact .advance_lexeme ht hl nofun rfl fun _ _ => .pure rfl rfl
      · exact .pure rfl rfl
    · exact .pure rfl rfl
  · exact .pure rfl rfl

theorem takes_skipModifiers : skipModifiers.Takes c ts a (fun _ => a) fun _ => 0 := by
  rw [skipModifiers_eq]
  exact .loop (N := fun _ => a) rfl fun _ _ _ => takes_modifierTurn

theorem takes_asyncModifier : asyncModifier.Takes c ts a (fun _ => a) fun _ => 0 := by
  unfold asyncModifier atKeyword
  simp only [bind_assoc, pure_bind]
  refine .peek_bind fun t ht => ?_
  split
  · rename_i hk
    have hl := lexeme_of_isKeyword hk
    simp only [wordFollows, bind_assoc, pure_bind]
    refine .peekAt_bind fun t' _ => ?_
    split
    · exact .advance_lexeme ht hl nofun rfl fun _ _ => .pure rfl rfl
    · exact .pure rfl rfl
  · exact .pure rfl rfl

theorem takes_classMember (h : R.Enough n) (hts : 4 * ts.length ≤ n + 1) :
    (classMember R).Takes c ts a (fun _ => a) fun _ => 1 := by
  refine .bind takes_skipModifiers fun _ rest hr => .bind takes_asyncModifier
    fun isAsync rest' hr' => .peek_bind fun start _ => .bind .expectPropertyName
    fun name mid hmid => .atMark_bind fun b _ => .atMark_bind fun b' _ => ?_
  have hfield {mid' : List Token} (hmid' : mid'.length ≤ mid.length) : Takes (do
      annotation R
      let value ← initializer R
      endStatement
      return (.inl ⟨start.pos, name, value⟩ : FieldDecl ⊕ FunctionDecl)) c mid' a
      (fun _ => a) fun _ => 0 :=
    .bind (takes_annotated h (by omega)) fun _ _ _ => .bind (takes_initializer h (by omega))
      fun _ _ _ => .bind .endStatement fun _ _ _ => .pure rfl rfl
  split
  · exact .bind (takes_functionRest h _ _ _ (by omega)) fun _ _ _ => .pure rfl rfl
  · split
    · exact .reject
    · refine .acceptMark_bind rfl (fun mid' hmid' => ?_) ?_
      · exact (hfield (by omega)).mono fun _ => by omega
      · exact (hfield (Nat.le_refl _)).mono fun _ => by omega

theorem takes_memberTurn (h : R.Enough n) {members : List (FieldDecl ⊕ FunctionDecl)}
    (hts : 4 * ts.length ≤ n + 1) :
    (memberTurn R members).Takes c ts (a + 1) (Turn.nest (fun _ => a + 1) fun _ => a)
      Turn.least := by
  refine .acceptMark_bind (b := a) rfl (fun _ _ => .pure rfl rfl) ?_
  refine .peek_bind fun t _ => ?_
  split
  · exact .reject
  · refine .acceptMark_bind (b := a + 1) rfl (fun _ _ => .pure rfl rfl) ?_
    exact .bind (takes_classMember h (by omega)) fun _ _ _ => .pure rfl rfl

theorem takes_classBody (h : R.Enough n) (hts : 4 * ts.length ≤ n + 1) :
    (classBody R).Takes c ts a (fun _ => a) fun _ => 1 := by
  rw [classBody_eq]
  exact .bind (.expectMark (b := a + 1) rfl) fun _ rest hr => (Takes.loop (N := fun _ => a + 1) rfl
    fun _ rest' hr' => takes_memberTurn h (by omega)).mono fun _ => by omega

theorem takes_superclass (h : R.Enough n) (hts : 4 * ts.length ≤ n + 1) :
    (superclass R).Takes c ts a (fun _ => a) fun _ => 0 :=
  .acceptKeyword_bind (fun _ _ => .bind .expectName fun _ _ _ => .atMark_bind fun _ _ =>
    .skip (fun _ => takes_typeArgs h (by omega)) fun _ _ => .pure rfl (by omega)) (.pure rfl rfl)

theorem takes_typeRefsAfter (h : R.Enough n) (k : Keyword) (hts : 4 * ts.length ≤ n + 1) :
    (typeRefsAfter R k).Takes c ts a (fun _ => a) fun _ => 0 :=
  .acceptKeyword_bind (fun _ _ => (Takes.sepBy fun _ _ => takes_typeRef h (by omega)).mono
    fun _ => by omega) (.pure rfl rfl)

theorem takes_classDecl (h : R.Enough n) (hts : 4 * ts.length ≤ n + 1) :
    (classDecl R).Takes c ts a (fun _ => a) fun _ => 1 :=
  .bind .expectKeyword fun _ _ _ => .bind .expectName fun _ _ _ =>
    .bind (takes_typeParams h (by omega)) fun _ _ _ => .bind (takes_superclass h (by omega))
    fun _ _ _ => .bind (takes_typeRefsAfter h _ (by omega)) fun _ _ _ =>
    .bind (takes_classBody h (by omega)) fun _ _ _ => .pure rfl rfl

theorem takes_interfaceDecl (h : R.Enough n) (hts : 4 * ts.length ≤ n + 1) :
    (interfaceDecl R).Takes c ts a (fun _ => a) fun _ => 1 :=
  .bind .expectKeyword fun _ _ _ => .bind .expectName fun _ _ _ =>
    .bind (takes_typeParams h (by omega)) fun _ _ _ => .bind (takes_typeRefsAfter h _ (by omega))
    fun _ _ _ => .bind (takes_objectType h (by omega)) fun _ _ _ => .pure rfl rfl

theorem takes_typeAlias (h : R.Enough n) (hts : 4 * ts.length ≤ n + 1) :
    (typeAlias R).Takes c ts a (fun _ => a) fun _ => 1 :=
  .bind .expectKeyword fun _ _ _ => .bind .expectName fun _ _ _ =>
    .bind (takes_typeParams h (by omega)) fun _ _ _ => .bind (.expectMark rfl) fun _ rest _ =>
    .bind (h.type c rest a (by omega)) fun _ _ _ => .bind .endStatement fun _ _ _ => .pure rfl rfl

/-! ## Imports -/

theorem takes_importedName : importedName.Takes c ts a (fun _ => a) fun _ => 1 :=
  .bind .expectPropertyName fun _ _ _ => .acceptKeyword_bind
    (fun _ _ => .bind (B := fun _ => a) (I := fun _ => 1) (.map .expectName (fun _ => rfl)
      fun _ => Nat.le_refl 1) fun _ _ _ => .pure rfl rfl) (.pure rfl rfl)

theorem takes_importBindings : importBindings.Takes c ts a (fun _ => a) fun _ => 1 := by
  refine .acceptMark_bind rfl (fun _ _ => ?_) (.acceptMark_bind (b := a + 1) rfl (fun _ _ => ?_) ?_)
  · exact .bind .expectKeyword fun _ _ _ => .bind .expectName fun _ _ _ => .pure rfl rfl
  · exact (Takes.listUntil rfl fun _ _ => takes_importedName).mono fun _ => Nat.zero_le _
  · exact .bind .expectName fun _ _ _ => .pure rfl rfl

theorem takes_specifier : specifier.Takes c ts a (fun _ => a) fun _ => 1 := by
  refine .peek_bind fun t ht => ?_
  split
  · rename_i hl
    exact .advance_lexeme ht hl nofun rfl fun _ _ => .pure rfl rfl
  · exact .reject

theorem takes_importDecl : importDecl.Takes c ts a (fun _ => a) fun _ => 1 := by
  refine .bind .expectKeyword fun start rest hr => .context_bind ?_
  have hsource {rest : List Token} {bindings : List ImportBinding} : Takes (do
      let source ← specifier
      endStatement
      return (⟨start.pos, source, bindings⟩ : ImportDecl)) c rest a (fun _ => a) fun _ => 0 :=
    .bind takes_specifier fun _ _ _ => .bind .endStatement fun _ _ _ => .pure rfl (by omega)
  dsimp only
  split
  · exact .rejectAt
  · refine .peek_bind fun t _ => ?_
    split
    · exact hsource
    · exact .bind takes_importBindings fun _ _ _ => .bind .expectKeyword fun _ _ _ =>
        hsource.mono fun _ => by omega

/-! ## Branches and loops -/

theorem takes_parenthesized (h : R.Enough n) (hts : 4 * ts.length ≤ n + 1) :
    (parenthesized R).Takes c ts a (fun _ => a) fun _ => 1 :=
  .bind (.expectMark (b := a + 1) rfl) fun _ rest _ =>
    .bind (h.assignment c rest (a + 1) (by omega))
    fun _ _ _ => .bind (.expectMark rfl) fun _ _ _ => .pure rfl rfl

theorem takes_branch (h : R.Enough n) (hts : 4 * ts.length ≤ n) :
    (branch R).Takes c ts a (fun _ => a) fun _ => 1 := by
  refine .bind .expectKeyword fun start rest hr => .bind (takes_parenthesized h (by omega))
    fun condition rest' hr' =>
      .bind (h.statement c rest' a (by omega)) fun thenBranch mid hmid => ?_
  refine .acceptKeyword_bind (fun rest'' hr'' => ?_) (.pure rfl rfl)
  exact .bind (B := fun _ => a) (I := fun _ => 1) (.map (h.statement c rest'' a (by omega))
    (fun _ => rfl) fun _ => Nat.le_refl 1) fun _ _ _ => .pure rfl (by omega)

theorem takes_loopBody (h : R.Enough n) (hts : 4 * ts.length + 4 ≤ n) :
    (loopBody R).Takes c ts a (fun _ => a) fun _ => 1 :=
  .within rfl (h.statement _ ts a hts)

theorem takes_forOf (h : R.Enough n) (pos : Position) {t : Token} {kind : DeclKind}
    (ht : Ahead ts 0 t) (hkind : declKind? t.lexeme = some kind) (hts : 4 * ts.length ≤ n) :
    (forOf R pos kind).Takes c ts (a + 1) (fun _ => a) fun _ => 1 := by
  obtain ⟨hend, hnest⟩ := nest_of_declKind hkind (a + 1)
  obtain ⟨rest, rfl⟩ := ht.eq_cons hend
  refine .bind (.advance_any fun s hs => ?_) fun _ mid hmid => .bind .expectName fun _ _ _ =>
    .bind .expectKeyword fun _ mid _ => .bind (h.assignment c mid (a + 1) (by omega)) fun _ _ _ =>
    .bind (.expectMark (b := a) rfl) fun _ _ _ => .bind (takes_loopBody h (by omega)) fun _ _ _ =>
    .pure rfl rfl
  obtain rfl : t = s := by simpa [Ahead] using hs
  exact hnest

theorem takes_exprUnless (h : R.Enough n) (m : Mark) (hts : 4 * ts.length + 3 ≤ n) :
    (exprUnless R m).Takes c ts a (fun _ => a) fun _ => 0 := by
  refine .atMark_bind fun b _ => ?_
  split
  · exact .pure rfl rfl
  · exact .map (h.assignment c ts a hts) (fun _ => rfl) fun _ => Nat.zero_le _

theorem takes_forInit (h : R.Enough n) (hts : 4 * ts.length + 3 ≤ n) :
    (forInit R).Takes c ts a (fun _ => a) fun _ => 0 := by
  refine .peek_bind fun t ht => ?_
  split
  · exact .pure rfl rfl
  · split
    · rename_i kind hkind
      exact .bind (takes_varDecl h ht hkind (by omega)) fun _ _ _ => .pure rfl rfl
    · exact .bind (h.assignment c ts a hts) fun _ _ _ => .pure rfl rfl

theorem takes_forClassic (h : R.Enough n) (pos : Position) (hts : 4 * ts.length + 3 ≤ n) :
    (forClassic R pos).Takes c ts (a + 1) (fun _ => a) fun _ => 1 :=
  .bind (takes_forInit h hts) fun _ _ _ => .bind (.expectMark (b := a + 1) rfl) fun _ _ _ =>
    .bind (takes_exprUnless h _ (by omega)) fun _ _ _ => .bind (.expectMark (b := a + 1) rfl)
    fun _ _ _ => .bind (takes_exprUnless h _ (by omega)) fun _ _ _ =>
    .bind (.expectMark (b := a) rfl) fun _ _ _ => .bind (takes_loopBody h (by omega)) fun _ _ _ =>
    .pure rfl rfl

theorem takes_forLoop (h : R.Enough n) (hts : 4 * ts.length ≤ n + 1) :
    (forLoop R).Takes c ts a (fun _ => a) fun _ => 1 := by
  refine .bind .expectKeyword fun start rest hr => .bind (.expectMark (b := a + 1) rfl)
    fun _ rest' hr' => .peek_bind fun t ht => ?_
  have hlength : 4 * rest'.length + 3 ≤ n := by omega
  have hclassic := takes_forClassic (c := c) (a := a) h start.pos hlength
  split
  · rename_i kind hkind
    refine .peekAt_bind fun t' _ => ?_
    split
    · exact (takes_forOf h start.pos ht hkind (by omega)).mono fun _ => by omega
    · exact hclassic.mono fun _ => by omega
  · exact hclassic.mono fun _ => by omega

theorem takes_whileLoop (h : R.Enough n) (hts : 4 * ts.length ≤ n + 1) :
    (whileLoop R).Takes c ts a (fun _ => a) fun _ => 1 :=
  .bind .expectKeyword fun _ _ _ => .bind (takes_parenthesized h (by omega)) fun _ _ _ =>
    .bind (takes_loopBody h (by omega)) fun _ _ _ => .pure rfl rfl

theorem takes_caseTest (h : R.Enough n) (seenDefault : Bool) (hts : 4 * ts.length ≤ n + 1) :
    (caseTest R seenDefault).Takes c ts a (fun _ => a) fun _ => 1 := by
  refine .peek_bind fun t ht => ?_
  split
  · rename_i hk
    have hl := lexeme_of_isKeyword hk
    refine .advance_lexeme ht hl nofun rfl fun rest hrest => ?_
    exact .map (h.assignment c rest a (by omega)) (fun _ => rfl) fun _ => by omega
  · split
    · rename_i hk
      have hl := lexeme_of_isKeyword hk
      split
      · exact .rejectAt
      · exact .advance_lexeme ht hl nofun rfl fun _ _ => .pure rfl rfl
    · exact .reject

theorem takes_clauseTurn (h : R.Enough n) {body : List Stmt} (hts : 4 * ts.length + 4 ≤ n) :
    (clauseTurn R body).Takes c ts a (Turn.nest (fun _ => a) fun _ => a) Turn.least := by
  refine .peek_bind fun t _ => ?_
  split
  · exact .pure rfl rfl
  · split
    · exact .reject
    · exact .bind (h.statement c ts a hts) fun _ _ _ => .pure rfl rfl

theorem takes_switchCase (h : R.Enough n) (seenDefault : Bool) (hts : 4 * ts.length ≤ n + 1) :
    (switchCase R seenDefault).Takes c ts a (fun _ => a) fun _ => 1 := by
  rw [switchCase_eq]
  exact .peek_bind fun start _ => .bind (takes_caseTest h seenDefault hts) fun test rest hr =>
    .bind (.expectMark (b := a) rfl) fun _ rest' hr' => .bind (.loop (N := fun _ => a)
      (B := fun _ => a) rfl fun _ _ _ => takes_clauseTurn h (by omega)) fun _ _ _ => .pure rfl rfl

theorem takes_switchTurn (h : R.Enough n) {cases : List SwitchCase}
    (hts : 4 * ts.length ≤ n + 1) :
    (switchTurn R cases).Takes c ts (a + 1) (Turn.nest (fun _ => a + 1) fun _ => a)
      Turn.least := by
  refine .acceptMark_bind (b := a) rfl (fun _ _ => .pure rfl rfl) ?_
  exact .bind (takes_switchCase h _ hts) fun _ _ _ => .pure rfl rfl

theorem takes_switchStmt (h : R.Enough n) (hts : 4 * ts.length ≤ n + 1) :
    (switchStmt R).Takes c ts a (fun _ => a) fun _ => 1 := by
  rw [switchStmt_eq]
  exact .bind .expectKeyword fun start rest hr => .bind (takes_parenthesized h (by omega))
    fun d rest' hr' => .bind (.expectMark (b := a + 1) rfl) fun _ rest'' hr'' =>
    .bind (.within rfl (.loop (N := fun _ => a + 1) (B := fun _ => a) rfl fun _ mid hmid =>
      takes_switchTurn h (by omega))) fun cases _ _ => .pure rfl rfl

/-! ## Leaving -/

theorem takes_breakStmt : breakStmt.Takes c ts a (fun _ => a) fun _ => 1 := by
  refine .bind .expectKeyword fun start rest hr => .context_bind ?_
  split
  · exact .bind .endStatement fun _ _ _ => .pure rfl rfl
  · exact .rejectAt

theorem takes_continueStmt : continueStmt.Takes c ts a (fun _ => a) fun _ => 1 := by
  refine .bind .expectKeyword fun start rest hr => .context_bind ?_
  split
  · exact .bind .endStatement fun _ _ _ => .pure rfl rfl
  · exact .rejectAt

theorem takes_returnStmt (h : R.Enough n) (hts : 4 * ts.length ≤ n + 1) :
    (returnStmt R).Takes c ts a (fun _ => a) fun _ => 1 := by
  refine .bind .expectKeyword fun start rest hr => .context_bind ?_
  split
  · exact .peek_bind fun t _ => .join (B := fun _ => a) (I := fun _ => 0)
      (fun _ => .pure rfl rfl) (fun _ => .map (h.assignment c rest a (by omega)) (fun _ => rfl)
        fun _ => Nat.zero_le _) fun _ _ _ => .bind .endStatement fun _ _ _ => .pure rfl rfl
  · exact .rejectAt

theorem takes_throwStmt (h : R.Enough n) (hts : 4 * ts.length ≤ n + 1) :
    (throwStmt R).Takes c ts a (fun _ => a) fun _ => 1 := by
  refine .bind .expectKeyword fun start rest hr => .peek_bind fun t _ => ?_
  split
  · exact .reject
  · exact .bind (h.assignment c rest a (by omega)) fun _ _ _ => .bind .endStatement fun _ _ _ =>
      .pure rfl (by omega)

theorem takes_catchName (h : R.Enough n) (hts : 4 * ts.length ≤ n + 1) :
    (catchName R).Takes c ts a (fun _ => a) fun _ => 0 :=
  .acceptMark_bind (b := a + 1) rfl (fun _ _ => .bind .expectName fun _ _ _ =>
    .bind (takes_annotated h (by omega)) fun _ _ _ => .bind (.expectMark rfl) fun _ _ _ =>
    .pure rfl (by omega)) (.pure rfl rfl)

theorem takes_tryStmt (h : R.Enough n) (hts : 4 * ts.length ≤ n + 1) :
    (tryStmt R).Takes c ts a (fun _ => a) fun _ => 1 := by
  have hfinalizer {rest : List Token} (pos : Position) (body : Block) (name : Option String)
      (handler : Option Block) (hr : rest.length + 1 ≤ ts.length) : Takes (do
        let finalizer ← if ← acceptKeyword .finallyWord then some <$> block R else pure none
        if handler.isNone && finalizer.isNone then reject .catchOrFinally
        else return Stmt.tryStmt pos body name handler finalizer) c rest a
        (fun _ => a) fun _ => 0 := by
    refine .acceptKeyword_bind (fun rest' hr' => ?_) ?_
    · refine .bind (B := fun _ => a) (I := fun _ => 1) (.map (takes_block h (by omega))
        (fun _ => rfl) fun _ => Nat.le_refl 1) fun finalizer _ _ => ?_
      dsimp only
      split
      · exact .reject
      · exact .pure rfl (by omega)
    · dsimp only
      refine .bind (B := fun _ => a) (I := fun _ => 0) (.pure rfl rfl) fun finalizer _ _ => ?_
      split
      · exact .reject
      · exact .pure rfl (by omega)
  refine .bind .expectKeyword fun start rest hr => .bind (takes_block h (by omega))
    fun body rest' hr' => .acceptKeyword_bind (fun rest'' hr'' => ?_) ?_
  · exact .bind (takes_catchName h (by omega)) fun name _ _ => .bind (takes_block h (by omega))
      fun handler _ _ => (hfinalizer _ _ _ _ (by omega)).mono fun _ => by omega
  · exact (hfinalizer _ _ _ _ (by omega)).mono fun _ => by omega

/-! ## All statements -/

theorem takes_exprStmt (h : R.Enough n) (hts : 4 * ts.length + 4 ≤ n + 1) :
    (exprStmt R).Takes c ts a (fun _ => a) fun _ => 1 :=
  .peek_bind fun _ _ => .bind (h.assignment c ts a (by omega)) fun _ _ _ =>
    .bind .endStatement fun _ _ _ => .pure rfl rfl

theorem takes_keywordStmt (h : R.Enough n) {t : Token} {k : Keyword} (ht : Ahead ts 0 t)
    (hk : t.lexeme = .keyword k) (hts : 4 * ts.length + 4 ≤ n + 1) :
    (keywordStmt R k).Takes c ts a (fun _ => a) fun _ => 1 := by
  have hexpr := takes_exprStmt (c := c) (a := a) h hts
  unfold keywordStmt
  split
  · exact .bind (takes_functionDecl h false (by omega)) fun _ _ _ => .pure rfl rfl
  · refine .peekAt_bind fun next _ => ?_
    split
    · refine .advance_lexeme ht hk nofun rfl fun rest hrest => ?_
      exact .bind (takes_functionDecl h true (by omega)) fun _ _ _ => .pure rfl rfl
    · exact hexpr
  · exact .bind (takes_classDecl h (by omega)) fun _ _ _ => .pure rfl rfl
  · refine .peekAt_bind fun next _ => ?_
    split
    · exact .bind (takes_interfaceDecl h (by omega)) fun _ _ _ => .pure rfl rfl
    · exact hexpr
  · refine .peekAt_bind fun next _ => ?_
    split
    · exact takes_typeAlias h (by omega)
    · exact hexpr
  · exact .bind takes_importDecl fun _ _ _ => .pure rfl rfl
  · exact takes_branch h (by omega)
  · exact takes_forLoop h (by omega)
  · exact takes_whileLoop h (by omega)
  · exact takes_switchStmt h (by omega)
  · exact takes_breakStmt
  · exact takes_continueStmt
  · exact takes_returnStmt h (by omega)
  · exact takes_throwStmt h (by omega)
  · exact takes_tryStmt h (by omega)
  · exact hexpr

theorem takes_statement (h : R.Enough n) (hts : 4 * ts.length + 4 ≤ n + 1) :
    (Grammar.statement R).Takes c ts a (fun _ => a) fun _ => 1 := by
  refine .peek_bind fun t ht => ?_
  split
  · rename_i hl
    exact .advance_lexeme ht hl nofun rfl fun _ _ => .pure rfl rfl
  · exact .bind (takes_block h (by omega)) fun _ _ _ => .pure rfl rfl
  · rename_i k hk
    split
    · rename_i kind hkind
      exact .bind (takes_varDecl h ht (by rw [hk]; exact hkind) (by omega)) fun _ _ _ =>
        .bind .endStatement fun _ _ _ => .pure rfl rfl
    · exact takes_keywordStmt h ht hk hts
  · exact takes_exprStmt h hts

theorem takes_programTurn (h : R.Enough n) {ss : List Stmt} (hts : 4 * ts.length + 4 ≤ n) :
    (programTurn R ss).Takes c ts a (Turn.nest (fun _ => a) fun _ => a) Turn.least := by
  refine .peek_bind fun t _ => ?_
  split
  · exact .pure rfl rfl
  · exact .bind (h.statement c ts a hts) fun _ _ _ => .pure rfl rfl

theorem takes_program (h : R.Enough n) (hts : 4 * ts.length + 4 ≤ n) :
    (program R).Takes c ts a (fun _ => a) fun _ => 0 := by
  rw [program_eq]
  exact .bind (.loop (N := fun _ => a) (B := fun _ => a) rfl fun _ rest hr =>
    takes_programTurn h (by omega)) fun _ _ _ => .pure rfl rfl

end Grammar

/-! ## Programs -/

/-- The rules of a depth are enough for a quarter of it. -/
theorem Rules.enough_ofDepth (n : ℕ) : (Rules.ofDepth n).Enough n := by
  induction n with
  | zero =>
    constructor
    all_goals intros
    all_goals omega
  | succ n ih =>
    exact {
      statement := fun c ts a hts => Grammar.takes_statement ih hts
      assignment := fun c ts a hts => Grammar.takes_assignment ih hts
      binary := fun level c ts a hts => Grammar.takes_binary ih level hts
      unary := fun c ts a hts => Grammar.takes_unary ih hts
      construction := fun c ts a _ hts => Grammar.takes_construction ih (by omega)
      type := fun c ts a hts => Grammar.takes_type ih hts }

/-- The parser of a program does not give up. -/
theorem Program.takes (tokens : Tokens) :
    (Grammar.program (.ofDepth (depthFor tokens.list.length))).Takes (.topLevel tokens.ending)
      tokens.list 0 (fun _ => 0) fun _ => 0 :=
  Grammar.takes_program (Rules.enough_ofDepth _) (Nat.le_refl _)

/-- What tokens stand for: a program, a rejection, or the lexical error at their end. -/
theorem Program.ofTokens_cases (tokens : Tokens) :
    let outcome := Grammar.program (.ofDepth (depthFor tokens.list.length))
      (.topLevel tokens.ending) tokens.list
    (∃ p rest, outcome = .ok p rest ∧ ofTokens tokens = .ok p) ∨
      (∃ e, outcome = .rejected e ∧ ofTokens tokens = .error (.grammatical e)) ∨
      ∃ e, tokens.ending = .broken e ∧ outcome = .broken e ∧
        ofTokens tokens = .error (.lexical e) := by
  have htakes := takes tokens
  unfold Takes at htakes
  unfold ofTokens
  dsimp only
  generalize Grammar.program _ _ tokens.list = o at htakes
  cases o with
  | ok p rest => exact .inl ⟨p, rest, rfl, rfl⟩
  | rejected e => exact .inr (.inl ⟨e, rfl, rfl⟩)
  | broken e => exact .inr (.inr ⟨e, htakes, rfl, rfl⟩)
  | tooDeep => exact htakes.elim

/-- No text nests too deep: it stands for a program, or an error in it is found. -/
theorem parse_ne_tooDeep (source : String) : parse source ≠ .error .tooDeep := by
  unfold parse
  obtain ⟨p, _, -, h⟩ | ⟨e, -, h⟩ | ⟨e, -, -, h⟩ := Program.ofTokens_cases (tokenize source)
  all_goals simp [h]

end CoScript
