import CoScript.Proofs.Parse.Paired.Expr

/-!
# Statements and programs read side by side

Over rules that go the same way, the rules for declarations, statements and programs do. Hence the
rules that follow an input to one depth go the same way as those that follow it deeper, as long as
the first ones do not give up.

Results:
* `Rules.tracks_ofDepth`: rules of one depth and deeper ones.
* `Grammar.tracks_program`: programs.
-/

namespace CoScript

namespace Grammar

open CoScript.Parser

variable {P : Pairing} {R R' : Rules}

/-! ## Declarations -/

theorem tracks_initializer (h : R.Tracks P R') :
    (initializer R).Tracks P (SameBy (Option.map (·.mapPos P.place))) (initializer R') :=
  .acceptMark_bind h.assignment.some (.pure rfl)

theorem tracks_varDecl (h : R.Tracks P R') (kind : DeclKind) :
    (varDecl R kind).Tracks P (SameBy (·.mapPos P.place)) (varDecl R' kind) := by
  refine Tracks.advance.bind fun start start' hstart => Tracks.expectName.bind_eq fun name =>
    (tracks_annotated h).bind fun _ _ _ => (tracks_initializer h).bind fun value value' hvalue => ?_
  have hnone : value.isNone = value'.isNone := hvalue.apply_eq fun _ => Option.isNone_map
  rw [hnone]
  refine .ite (fun _ => .reject) fun _ => .pure ?_
  simp only [SameBy, VarDecl.mapPos, mapPosOption_eq, P.place_eq hstart]
  rw [hvalue]

theorem tracks_functionRest (h : R.Tracks P R') {p p' : Position} (hp : P.place p = P.place p')
    (name : String) (isAsync : Bool) :
    (functionRest R p name isAsync).Tracks P (SameBy (·.mapPos P.place))
      (functionRest R' p' name isAsync) := by
  refine (tracks_typeParams h).bind_eq fun generics => (tracks_params h).bind fun ps ps' hps =>
    (tracks_annotated h).bind fun _ _ _ => (tracks_functionBlock h isAsync).bind
    fun body body' hbody => .pure ?_
  simp only [SameBy, FunctionDecl.mapPos, mapPosParams_eq, hp, hbody]
  rw [hps]

theorem tracks_functionDecl (h : R.Tracks P R') (isAsync : Bool) :
    (functionDecl R isAsync).Tracks P (SameBy (·.mapPos P.place)) (functionDecl R' isAsync) :=
  Tracks.expectKeyword.bind fun _ _ hstart => Tracks.expectName.bind_eq fun name =>
    tracks_functionRest h (P.place_eq hstart) name isAsync

theorem tracks_wordFollows : wordFollows.Tracks P Eq wordFollows :=
  .peekAt_bind fun _ _ _ _ _ => .pure rfl

theorem tracks_skipModifiers : skipModifiers.Tracks P Eq skipModifiers := by
  refine .loop rfl fun _ _ _ => .peek_bind fun x b p p' ht => ?_
  cases x with
  | identifier name =>
    refine .ite (fun _ => tracks_wordFollows.bind_eq fun _ => .ite (fun _ => ?_) fun _ => ?_)
      fun _ => .pure (.done rfl)
    · exact .advance_bind (.pure (.again rfl))
    · exact .pure (.done rfl)
  | _ => exact .pure (.done rfl)

theorem tracks_asyncModifier : asyncModifier.Tracks P Eq asyncModifier :=
  Tracks.atKeyword.bind_eq fun _ => .ite (fun _ => tracks_wordFollows.bind_eq fun _ =>
    .ite (fun _ => .advance_bind (.pure rfl)) fun _ => .pure rfl) fun _ => .pure rfl

/-- A member of a class with its positions moved. -/
abbrev memberMapPos (f : Position → Position) :
    FieldDecl ⊕ FunctionDecl → FieldDecl ⊕ FunctionDecl :=
  Sum.map (·.mapPos f) (·.mapPos f)

theorem tracks_classMember (h : R.Tracks P R') :
    (classMember R).Tracks P (SameBy (memberMapPos P.place)) (classMember R') := by
  refine tracks_skipModifiers.bind fun _ _ _ => tracks_asyncModifier.bind_eq fun isAsync =>
    .peek_bind fun x b p p' ht => Tracks.expectPropertyName.bind_eq fun name =>
    Tracks.atMark.bind_eq fun _ => Tracks.atMark.bind_eq fun _ => .ite (fun _ => ?_) fun _ =>
    .ite (fun _ => .reject) fun _ => ?_
  · exact (tracks_functionRest h (P.place_eq ht) name isAsync).bind fun _ _ hd =>
      .pure (congrArg Sum.inr hd)
  · refine Tracks.acceptMark.bind_eq fun _ => (tracks_annotated h).bind fun _ _ _ =>
      (tracks_initializer h).bind fun value value' hvalue => Tracks.endStatement.bind fun _ _ _ =>
      .pure ?_
    simp only [SameBy, memberMapPos, Sum.map_inl, FieldDecl.mapPos, mapPosOption_eq, P.place_eq ht]
    rw [hvalue]

theorem tracks_classBody (h : R.Tracks P R') :
    (classBody R).Tracks P (SameBy (List.map (memberMapPos P.place))) (classBody R') := by
  refine .expectMark_bind (.loop rfl fun ms ms' hms => .acceptMark_bind (.pure (.done hms)) ?_)
  refine .peek_bind fun _ _ _ _ _ => .ite (fun _ => .reject) fun _ =>
    .acceptMark_bind (.pure (.again hms)) ?_
  exact (tracks_classMember h).bind fun m m' hm => .pure (.again (SameBy.snoc hms hm))

theorem tracks_superclass (h : R.Tracks P R') : (superclass R).Tracks P Eq (superclass R') :=
  .acceptKeyword_bind (Tracks.expectName.bind_eq fun _ => Tracks.atMark.bind_eq fun _ =>
    .ite (fun _ => (tracks_typeArgs h).bind fun _ _ _ => .pure rfl) fun _ => .pure rfl) (.pure rfl)

theorem tracks_typeRefsAfter (h : R.Tracks P R') (k : Keyword) :
    (typeRefsAfter R k).Tracks P Eq (typeRefsAfter R' k) := by
  refine .acceptKeyword_bind ((Tracks.sepBy (g := id) (tracks_typeRef h)).mono ?_) (.pure rfl)
  intro names names' hnames
  simpa [SameBy] using hnames

theorem tracks_classDecl (h : R.Tracks P R') :
    (classDecl R).Tracks P (SameBy (·.mapPos P.place)) (classDecl R') := by
  refine Tracks.expectKeyword.bind fun start start' hstart => Tracks.expectName.bind_eq fun name =>
    (tracks_typeParams h).bind_eq fun generics => (tracks_superclass h).bind_eq fun base =>
    (tracks_typeRefsAfter h _).bind_eq fun interfaces => (tracks_classBody h).bind
    fun ms ms' hms => .pure ?_
  have hfields (l : List (FieldDecl ⊕ FunctionDecl)) :
      (l.filterMap (·.getLeft?)).map (·.mapPos P.place) =
        (l.map (memberMapPos P.place)).filterMap (·.getLeft?) := by
    rw [List.map_filterMap, List.filterMap_map]
    exact congrArg (List.filterMap · l) (funext fun m => by cases m <;> rfl)
  have hmethods (l : List (FieldDecl ⊕ FunctionDecl)) :
      (l.filterMap (·.getRight?)).map (·.mapPos P.place) =
        (l.map (memberMapPos P.place)).filterMap (·.getRight?) := by
    rw [List.map_filterMap, List.filterMap_map]
    exact congrArg (List.filterMap · l) (funext fun m => by cases m <;> rfl)
  simp only [SameBy, ClassDecl.mapPos, mapPosFields_eq, mapPosFunctions_eq, P.place_eq hstart,
    hfields, hmethods]
  rw [hms]

theorem tracks_interfaceDecl (h : R.Tracks P R') :
    (interfaceDecl R).Tracks P (SameBy (·.mapPos P.place)) (interfaceDecl R') := by
  refine Tracks.expectKeyword.bind fun start start' hstart => Tracks.expectName.bind_eq fun name =>
    (tracks_typeParams h).bind_eq fun generics => (tracks_typeRefsAfter h _).bind_eq fun bases =>
    (tracks_objectType h).bind_eq fun members => .pure ?_
  simp only [SameBy, InterfaceDecl.mapPos, P.place_eq hstart]

theorem tracks_typeAlias (h : R.Tracks P R') : (typeAlias R).Tracks P P.stmt (typeAlias R') := by
  refine Tracks.expectKeyword.bind fun start start' hstart => Tracks.expectName.bind_eq fun name =>
    (tracks_typeParams h).bind_eq fun generics => .expectMark_bind (h.type.bind fun _ _ _ =>
    Tracks.endStatement.bind fun _ _ _ => .pure ?_)
  simp only [Pairing.stmt, SameBy, Stmt.mapPos, P.place_eq hstart]

/-! ## Imports -/

theorem tracks_importedName : importedName.Tracks P Eq importedName :=
  Tracks.expectPropertyName.bind_eq fun _ => .acceptKeyword_bind
    ((Tracks.expectName.map (W := Eq) fun _ _ h => congrArg some h).bind_eq fun _ => .pure rfl)
    (.pure rfl)

theorem tracks_importBindings : importBindings.Tracks P Eq importBindings := by
  refine .acceptMark_bind ?_ (.acceptMark_bind ?_ ?_)
  · exact Tracks.expectKeyword.bind fun _ _ _ => Tracks.expectName.bind_eq fun _ => .pure rfl
  · refine (Tracks.listUntil (g := id) tracks_importedName).mono fun _ _ hbindings => ?_
    simpa [SameBy] using hbindings
  · exact Tracks.expectName.bind_eq fun _ => .pure rfl

theorem tracks_specifier : specifier.Tracks P Eq specifier := by
  refine .peek_bind fun x b p p' ht => ?_
  cases x with
  | string s => exact .advance_bind (.pure rfl)
  | _ => exact .reject

theorem tracks_importDecl :
    importDecl.Tracks P (SameBy (·.mapPos P.place)) importDecl := by
  refine Tracks.expectKeyword.bind fun start start' hstart => .context_bind fun c e =>
    .ite (fun _ => .rejectAt hstart) fun _ => .peek_bind fun x _ _ _ _ => ?_
  have hrest (bindings : List ImportBinding) : Tracks P (SameBy (·.mapPos P.place))
      (do
        let source ← specifier
        endStatement
        return (⟨start.pos, source, bindings⟩ : ImportDecl))
      (do
        let source ← specifier
        endStatement
        return (⟨start'.pos, source, bindings⟩ : ImportDecl)) := by
    refine tracks_specifier.bind_eq fun source => Tracks.endStatement.bind fun _ _ _ => .pure ?_
    simp only [SameBy, ImportDecl.mapPos, P.place_eq hstart]
  exact .ite (fun _ => hrest []) fun _ => tracks_importBindings.bind_eq fun bindings =>
    Tracks.expectKeyword.bind fun _ _ _ => hrest bindings

/-! ## Branches and loops -/

theorem tracks_parenthesized (h : R.Tracks P R') :
    (parenthesized R).Tracks P P.expr (parenthesized R') :=
  .expectMark_bind (h.assignment.bind fun _ _ he => .expectMark_bind (.pure he))

theorem tracks_branch (h : R.Tracks P R') : (branch R).Tracks P P.stmt (branch R') := by
  refine Tracks.expectKeyword.bind fun start start' hstart => (tracks_parenthesized h).bind
    fun e e' he => h.statement.bind fun s s' hs => .acceptKeyword_bind ?_ (.pure ?_)
  · refine h.statement.some.bind fun o o' ho => .pure ?_
    simp only [Pairing.stmt, SameBy, Stmt.mapPos, mapPosStmtOption_eq, P.place_eq hstart, he, hs]
    rw [ho]
  · simp only [Pairing.stmt, SameBy, Stmt.mapPos, mapPosStmtOption_eq, P.place_eq hstart, he, hs,
      Option.map_none]

theorem tracks_loopBody (h : R.Tracks P R') : (loopBody R).Tracks P P.stmt (loopBody R') :=
  .within (fun _ _ => rfl) h.statement

theorem tracks_forOf (h : R.Tracks P R') {p p' : Position} (hp : P.place p = P.place p')
    (kind : DeclKind) : (forOf R p kind).Tracks P P.stmt (forOf R' p' kind) := by
  refine .advance_bind (Tracks.expectName.bind_eq fun name => Tracks.expectKeyword.bind
    fun _ _ _ => h.assignment.bind fun e e' he => .expectMark_bind ((tracks_loopBody h).bind
    fun s s' hs => .pure ?_))
  simp only [Pairing.stmt, SameBy, Stmt.mapPos, hp, he, hs]

theorem tracks_forInit (h : R.Tracks P R') :
    (forInit R).Tracks P (SameBy (Option.map (·.mapPos P.place))) (forInit R') := by
  refine .peek_bind fun x b p p' ht => .ite (fun _ => .pure rfl) fun _ => ?_
  dsimp only
  cases declKind? x with
  | some kind =>
    refine (tracks_varDecl h kind).bind fun d d' hd => .pure ?_
    simp only [SameBy, Option.map_some, ForInit.mapPos, hd]
  | none =>
    refine h.assignment.bind fun e e' he => .pure ?_
    simp only [SameBy, Option.map_some, ForInit.mapPos, P.place_eq ht, he]

theorem tracks_exprUnless (h : R.Tracks P R') (m : Mark) :
    (exprUnless R m).Tracks P (SameBy (Option.map (·.mapPos P.place))) (exprUnless R' m) :=
  Tracks.atMark.bind_eq fun _ => .ite (fun _ => .pure rfl) fun _ => h.assignment.some

theorem tracks_forClassic (h : R.Tracks P R') {p p' : Position} (hp : P.place p = P.place p') :
    (forClassic R p).Tracks P P.stmt (forClassic R' p') := by
  refine (tracks_forInit h).bind
    fun init init' hinit => .expectMark_bind ((tracks_exprUnless h _).bind
    fun cond cond' hcond => .expectMark_bind ((tracks_exprUnless h _).bind
    fun update update' hupdate => .expectMark_bind ((tracks_loopBody h).bind
    fun s s' hs => .pure ?_)))
  simp only [Pairing.stmt, SameBy, Stmt.mapPos, mapPosInit_eq, mapPosOption_eq, hp, hs]
  rw [hinit, hcond, hupdate]

theorem tracks_forLoop (h : R.Tracks P R') : (forLoop R).Tracks P P.stmt (forLoop R') := by
  refine Tracks.expectKeyword.bind fun start start' hstart => .expectMark_bind
    (.peek_bind fun x _ _ _ _ => ?_)
  dsimp only
  cases declKind? x with
  | some kind =>
    exact .peekAt_bind fun _ _ _ _ _ => .ite (fun _ => tracks_forOf h (P.place_eq hstart) kind)
      fun _ => tracks_forClassic h (P.place_eq hstart)
  | none => exact tracks_forClassic h (P.place_eq hstart)

theorem tracks_whileLoop (h : R.Tracks P R') : (whileLoop R).Tracks P P.stmt (whileLoop R') := by
  refine Tracks.expectKeyword.bind fun start start' hstart => (tracks_parenthesized h).bind
    fun e e' he => (tracks_loopBody h).bind fun s s' hs => .pure ?_
  simp only [Pairing.stmt, SameBy, Stmt.mapPos, P.place_eq hstart, he, hs]

theorem tracks_caseTest (h : R.Tracks P R') (seenDefault : Bool) :
    (caseTest R seenDefault).Tracks P (SameBy (Option.map (·.mapPos P.place)))
      (caseTest R' seenDefault) := by
  refine .peek_bind fun x b p p' ht => .ite (fun _ => .advance_bind h.assignment.some) fun _ =>
    .ite (fun _ => ?_) fun _ => .reject
  exact .ite (fun _ => .rejectAt ht) fun _ => .advance_bind (.pure rfl)

theorem tracks_switchCase (h : R.Tracks P R') (seenDefault : Bool) :
    (switchCase R seenDefault).Tracks P (SameBy (·.mapPos P.place))
      (switchCase R' seenDefault) := by
  refine .peek_bind fun x b p p' ht => (tracks_caseTest h seenDefault).bind fun test test' htest =>
    .expectMark_bind ((Tracks.loop (V := SameBy (List.map (·.mapPos P.place))) rfl
      fun ss ss' hss => .peek_bind fun _ _ _ _ _ => ?_).bind fun ss ss' hss => .pure ?_)
  · refine .ite (fun _ => .pure (.done hss)) fun _ => .ite (fun _ => .reject) fun _ => ?_
    exact h.statement.bind fun s s' hs => .pure (.again (SameBy.snoc hss hs))
  · simp only [SameBy, SwitchCase.mapPos, mapPosOption_eq, mapPosStmts_eq, P.place_eq ht]
    rw [htest, hss]

/-- Whether clauses have a default clause among them does not depend on positions. -/
theorem any_isNone_mapPos (f : Position → Position) (cases : List SwitchCase) :
    (cases.map (·.mapPos f)).any (·.test.isNone) = cases.any (·.test.isNone) := by
  induction cases with
  | nil => rfl
  | cons c r ih =>
    obtain ⟨p, test, body⟩ := c
    simp only [List.map_cons, List.any_cons, SwitchCase.mapPos, mapPosOption_eq, Option.isNone_map,
      ih]

theorem tracks_switchStmt (h : R.Tracks P R') :
    (switchStmt R).Tracks P P.stmt (switchStmt R') := by
  refine Tracks.expectKeyword.bind fun start start' hstart => (tracks_parenthesized h).bind
    fun e e' he => .expectMark_bind ((Tracks.within (fun _ _ => rfl) (.loop
      (V := SameBy (List.map (·.mapPos P.place))) rfl fun cs cs' hcs =>
      .acceptMark_bind (.pure (.done hcs)) ?_)).bind fun cs cs' hcs => .pure ?_)
  · have hany : cs.any (·.test.isNone) = cs'.any (·.test.isNone) :=
      hcs.apply_eq (k := fun cs => cs.any (·.test.isNone)) (any_isNone_mapPos P.place)
    rw [hany]
    exact (tracks_switchCase h _).bind fun c c' hc => .pure (.again (SameBy.snoc hcs hc))
  · simp only [Pairing.stmt, SameBy, Stmt.mapPos, mapPosCases_eq, P.place_eq hstart, he]
    rw [hcs]

/-! ## Leaving -/

theorem tracks_breakStmt : breakStmt.Tracks P P.stmt breakStmt := by
  refine Tracks.expectKeyword.bind fun start start' hstart => .context_bind fun c e =>
    .ite (fun _ => Tracks.endStatement.bind fun _ _ _ => .pure ?_) fun _ => .rejectAt hstart
  simp only [Pairing.stmt, SameBy, Stmt.mapPos, P.place_eq hstart]

theorem tracks_continueStmt : continueStmt.Tracks P P.stmt continueStmt := by
  refine Tracks.expectKeyword.bind fun start start' hstart => .context_bind fun c e =>
    .ite (fun _ => Tracks.endStatement.bind fun _ _ _ => .pure ?_) fun _ => .rejectAt hstart
  simp only [Pairing.stmt, SameBy, Stmt.mapPos, P.place_eq hstart]

theorem tracks_returnStmt (h : R.Tracks P R') :
    (returnStmt R).Tracks P P.stmt (returnStmt R') := by
  refine Tracks.expectKeyword.bind fun start start' hstart => .context_bind fun c e =>
    .ite (fun _ => .peek_bind fun _ _ _ _ _ => ?_) fun _ => .rejectAt hstart
  have hend {o o' : Option Expr} (ho : SameBy (Option.map (·.mapPos P.place)) o o') :
      Tracks P P.stmt (endStatement >>= fun _ => pure (Stmt.returnStmt start.pos o))
        (endStatement >>= fun _ => pure (Stmt.returnStmt start'.pos o')) := by
    refine Tracks.endStatement.bind fun _ _ _ => .pure ?_
    simp only [Pairing.stmt, SameBy, Stmt.mapPos, mapPosOption_eq, P.place_eq hstart]
    rw [ho]
  exact .ite (fun _ => hend rfl) fun _ => h.assignment.some.bind fun _ _ ho => hend ho

theorem tracks_throwStmt (h : R.Tracks P R') : (throwStmt R).Tracks P P.stmt (throwStmt R') := by
  refine Tracks.expectKeyword.bind fun start start' hstart => .peek_bind fun _ _ _ _ _ =>
    .ite (fun _ => .reject) fun _ => h.assignment.bind fun e e' he => Tracks.endStatement.bind
    fun _ _ _ => .pure ?_
  simp only [Pairing.stmt, SameBy, Stmt.mapPos, P.place_eq hstart, he]

theorem tracks_catchName (h : R.Tracks P R') : (catchName R).Tracks P Eq (catchName R') :=
  .acceptMark_bind (Tracks.expectName.bind_eq fun _ => (tracks_annotated h).bind fun _ _ _ =>
    .expectMark_bind (.pure rfl)) (.pure rfl)

theorem tracks_tryStmt (h : R.Tracks P R') : (tryStmt R).Tracks P P.stmt (tryStmt R') := by
  refine Tracks.expectKeyword.bind fun start start' hstart => (tracks_block h).bind
    fun body body' hbody => ?_
  have hend {name : Option String} {handler handler' finalizer finalizer' : Option Block}
      (hh : SameBy (Option.map (·.mapPos P.place)) handler handler')
      (hf : SameBy (Option.map (·.mapPos P.place)) finalizer finalizer') : Tracks P P.stmt
        (if handler.isNone && finalizer.isNone then reject .catchOrFinally
          else pure (Stmt.tryStmt start.pos body name handler finalizer))
        (if handler'.isNone && finalizer'.isNone then reject .catchOrFinally
          else pure (Stmt.tryStmt start'.pos body' name handler' finalizer')) := by
    have hnone : handler.isNone = handler'.isNone := hh.apply_eq fun _ => Option.isNone_map
    have hnone' : finalizer.isNone = finalizer'.isNone := hf.apply_eq fun _ => Option.isNone_map
    rw [hnone, hnone']
    refine .ite (fun _ => .reject) fun _ => .pure ?_
    simp only [Pairing.stmt, SameBy, Stmt.mapPos, mapPosBlockOption_eq, P.place_eq hstart, hbody]
    rw [hh, hf]
  have hfinally {name : Option String} {handler handler' : Option Block}
      (hh : SameBy (Option.map (·.mapPos P.place)) handler handler') : Tracks P P.stmt
        (do
          let finalizer ← if ← acceptKeyword .finallyWord then some <$> block R else pure none
          if handler.isNone && finalizer.isNone then reject .catchOrFinally
          else return .tryStmt start.pos body name handler finalizer)
        (do
          let finalizer ← if ← acceptKeyword .finallyWord then some <$> block R' else pure none
          if handler'.isNone && finalizer.isNone then reject .catchOrFinally
          else return .tryStmt start'.pos body' name handler' finalizer) :=
    .acceptKeyword_bind ((tracks_block h).some.bind fun _ _ hf => hend hh hf) (hend hh rfl)
  refine .acceptKeyword_bind ((tracks_catchName h).bind_eq fun name => (tracks_block h).bind
    fun b b' hb => ?_) (hfinally rfl)
  exact hfinally (congrArg some hb)

/-! ## All statements -/

theorem tracks_exprStmt (h : R.Tracks P R') : (exprStmt R).Tracks P P.stmt (exprStmt R') := by
  refine .peek_bind fun x b p p' ht => h.assignment.bind fun e e' he => Tracks.endStatement.bind
    fun _ _ _ => .pure ?_
  simp only [Pairing.stmt, SameBy, Stmt.mapPos, P.place_eq ht, he]

theorem tracks_keywordStmt (h : R.Tracks P R') (k : Keyword) :
    (keywordStmt R k).Tracks P P.stmt (keywordStmt R' k) := by
  cases k with
  | functionWord =>
    exact (tracks_functionDecl h false).bind fun _ _ hd => .pure (congrArg Stmt.functionDecl hd)
  | asyncWord =>
    refine .peekAt_bind fun _ _ _ _ _ => .ite (fun _ => .advance_bind ?_) fun _ =>
      tracks_exprStmt h
    exact (tracks_functionDecl h true).bind fun _ _ hd => .pure (congrArg Stmt.functionDecl hd)
  | classWord =>
    exact (tracks_classDecl h).bind fun _ _ hd => .pure (congrArg Stmt.classDecl hd)
  | interfaceWord =>
    refine .peekAt_bind fun _ _ _ _ _ => .ite (fun _ => ?_) fun _ => tracks_exprStmt h
    exact (tracks_interfaceDecl h).bind fun _ _ hd => .pure (congrArg Stmt.interfaceDecl hd)
  | typeWord =>
    exact .peekAt_bind fun _ _ _ _ _ => .ite (fun _ => tracks_typeAlias h) fun _ =>
      tracks_exprStmt h
  | importWord =>
    exact tracks_importDecl.bind fun _ _ hd => .pure (congrArg Stmt.importDecl hd)
  | ifWord => exact tracks_branch h
  | forWord => exact tracks_forLoop h
  | whileWord => exact tracks_whileLoop h
  | switchWord => exact tracks_switchStmt h
  | breakWord => exact tracks_breakStmt
  | continueWord => exact tracks_continueStmt
  | returnWord => exact tracks_returnStmt h
  | throwWord => exact tracks_throwStmt h
  | tryWord => exact tracks_tryStmt h
  | _ => exact tracks_exprStmt h

theorem tracks_statement (h : R.Tracks P R') : (statement R).Tracks P P.stmt (statement R') := by
  refine .peek_bind fun x b p p' ht => ?_
  dsimp only
  split
  case h_1 =>
    refine .advance_bind (.pure ?_)
    simp only [Pairing.stmt, SameBy, Stmt.mapPos, Block.mapPos, P.place_eq ht, mapPosStmts_eq,
      List.map_nil]
  case h_2 => exact (tracks_block h).bind fun _ _ hb => .pure (congrArg Stmt.block hb)
  case h_3 k =>
    cases declKind? (.keyword k) with
    | some kind =>
      exact (tracks_varDecl h kind).bind fun _ _ hd => Tracks.endStatement.bind fun _ _ _ =>
        .pure (congrArg Stmt.varDecl hd)
    | none => exact tracks_keywordStmt h k
  case h_4 => exact tracks_exprStmt h

/-- The rules for programs go the same way over rules that do. -/
theorem tracks_program (h : R.Tracks P R') :
    (program R).Tracks P (SameBy (·.mapPos P.place)) (program R') := by
  refine (Tracks.loop (V := SameBy (List.map (·.mapPos P.place))) rfl fun ss ss' hss =>
    .peek_bind fun _ _ _ _ _ => ?_).bind fun ss ss' hss => .pure ?_
  · exact .ite (fun _ => .pure (.done hss)) fun _ => h.statement.bind fun s s' hs =>
      .pure (.again (SameBy.snoc hss hs))
  · simp only [SameBy, Program.mapPos, mapPosStmts_eq]
    rw [hss]

end Grammar

namespace Rules

/-- The rules of one depth go the same way as those of the same or a larger one, as long as they do
    not give up. -/
theorem tracks_ofDepth (P : Pairing) {n m : ℕ} (h : n ≤ m) :
    (ofDepth n).Tracks P (ofDepth m) := by
  induction n generalizing m with
  | zero =>
    exact ⟨.tooDeep _, .tooDeep _, fun _ => .tooDeep _, .tooDeep _, .tooDeep _, .tooDeep _⟩
  | succ n ih =>
    obtain ⟨m, rfl⟩ : ∃ k, m = k + 1 := ⟨m - 1, by omega⟩
    have hbelow := ih (m := m) (by omega)
    exact ⟨Grammar.tracks_statement hbelow, Grammar.tracks_assignment hbelow,
      Grammar.tracks_binary hbelow, Grammar.tracks_unary hbelow, Grammar.tracks_construction hbelow,
      Grammar.tracks_type hbelow⟩

end Rules

end CoScript
