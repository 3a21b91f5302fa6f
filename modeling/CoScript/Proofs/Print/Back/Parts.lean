import CoScript.Proofs.Print.Back.Basic
import CoScript.Proofs.Print.Opening

/-!
# Parts of functions that are read back

Results:
* `Grammar.reads_args`, `Grammar.reads_params`: lists in parentheses.
* `Grammar.reads_block`: statements between braces.
-/

namespace CoScript.Grammar

open CoScript.Parser Shape

variable {R : Rules} {n : ℕ} {c : Context} {k : List Shape} {β : Type} {Q : β → Prop}

theorem isMark_false {l : Lexeme} {m : Mark} (h : l ≠ .mark m) : l.isMark m = false := by
  rw [Bool.eq_false_iff]
  exact fun his => h (lexeme_of_isMark his)

theorem isKeyword_false {l : Lexeme} {w : Keyword} (h : l ≠ .keyword w) :
    l.isKeyword w = false := by
  rw [Bool.eq_false_iff]
  exact fun his => h (lexeme_of_isKeyword his)

/-! ## Types -/

/-- No type is written after a name. -/
theorem annotation_bind (hc : c.Complete) {l : List Shape} {f : Unit → Parser β}
    (hcolon : (firstOf (l ++ k)).lexeme ≠ .mark .colon) (hf : (f ()).Reads c l k Q) :
    ( annotation R >>= f).Reads c l k Q := by
  unfold annotation
  rw [bind_assoc]
  refine Reads.acceptMark_miss hc (isMark_false hcolon) ?_
  simpa using hf

/-- A generic parameter is a name that was not there before. -/
theorem reads_typeParam (hc : c.Complete) {names : List String} {name : String}
    (hname : isName name)
    (hnew : name ∉ names) (hextends : (firstOf k).lexeme ≠ .keyword .extendsWord)
    (hassign : (firstOf k).lexeme ≠ .mark .assign) :
    (typeParam R names).Reads c [word name] k (· = name) := by
  unfold typeParam
  refine .peek_bind hc fun t _ => .expectName_bind hc (Lexer.wordLexeme_name hname) ?_
  refine .acceptKeyword_miss hc (isKeyword_false hextends) ?_
  simp only [Bool.false_eq_true, if_false]
  refine .acceptMark_miss hc (isMark_false hassign) ?_
  simp only [Bool.false_eq_true, if_false, List.contains_iff_mem, hnew]
  exact .pure rfl

theorem reads_typeParamNames (hc : c.Complete) (x : String) (xs : List String) (acc : List String)
    (hnodup : (acc ++ x :: xs).Nodup) (hname : ∀ y ∈ x :: xs, isName y) :
    (loop (fun names : List String => do
      let names := names ++ [← typeParam R names]
      if ← acceptMark .comma then return Turn.again names else return .done names) acc).Reads c
        (commas ((x :: xs).map fun y => [word y])) (mark .greater :: k) (· = acc ++ x :: xs) := by
  have hnew : x ∉ acc := fun hx =>
    (List.nodup_append.mp hnodup).2.2 x hx x (List.mem_cons_self ..) rfl
  have hx := hname x (List.mem_cons_self ..)
  induction xs generalizing x acc with
  | nil =>
    refine .loop_done ?_
    have hparam := reads_typeParam (R := R) (k := mark .greater :: k) hc hx hnew (by simp) (by simp)
    refine .bind_all hparam fun name hn => .acceptMark_miss hc rfl ?_
    exact .pure ⟨_, rfl, by rw [hn]⟩
  | cons y xs ih =>
    rw [List.map_cons, Reads.commas_cons]
    refine .loop_again (I := (· = acc ++ [x])) (by simp) ?_ fun names hnames => ?_
    · refine .bind (P := (· = x)) (reads_typeParam hc hx hnew (by simp) (by simp)) fun name hn => ?_
      refine .acceptMark_hit hc (.pure ⟨_, rfl, by rw [hn]⟩)
    · subst hnames
      have hsplit : acc ++ x :: y :: xs = acc ++ [x] ++ y :: xs := by simp
      rw [hsplit] at hnodup ⊢
      refine ih y _ hnodup (fun z hz => hname z (List.mem_cons_of_mem _ hz)) (fun hy => ?_)
        (hname y (by simp))
      exact (List.nodup_append.mp hnodup).2.2 y hy y (List.mem_cons_self ..) rfl

/-- Generic parameters. -/
theorem reads_typeParams (hc : c.Complete) {names : TypeParams} (hformed : names.Formed)
    (hless : (firstOf k).lexeme ≠ .mark .less) :
    (typeParams R).Reads c (generics names) k (· = names) := by
  unfold typeParams
  cases names with
  | none =>
    refine .acceptMark_miss hc (isMark_false hless) ?_
    exact .pure rfl
  | some xs =>
    obtain ⟨hne, hnodup, hname⟩ := hformed xs rfl
    obtain ⟨x, xs, rfl⟩ := List.exists_cons_of_ne_nil hne
    rw [generics, if_neg (by simp)]
    refine .acceptMark_hit hc ?_
    simp only [if_true]
    refine .bind (reads_typeParamNames hc x xs [] (by simpa using hnodup) hname)
      fun names hnames => .expectMark_bind hc fun _ => .pure ?_
    rw [hnames]
    rfl

/-- What generic parameters before a parenthesis begin with. -/
theorem firstOf_generics (names : TypeParams) (l : List Shape) :
    firstOf (generics names ++ mark .openParen :: l) = mark .openParen ∨
      firstOf (generics names ++ mark .openParen :: l) = mark .less := by
  unfold generics
  split
  · exact .inl rfl
  · split
    · exact .inl rfl
    · exact .inr rfl

/-! ## Parameters -/

/-- A parameter before a comma or the closing parenthesis. -/
theorem reads_param (h : R.Back n) (hc : c.Complete) {p : Param} (hformed : p.Formed c.site)
    (hlegible : p.Legible k) (hk : ∃ m l, k = mark m :: l ∧ (m = .comma ∨ m = .closeParen))
    (hn : 4 * (p.shapes ++ k).length ≤ n + 1) :
    (param R).Reads c p.shapes k (Option.map Param.bare · = some p.bare) := by
  obtain ⟨m, l, rfl, hm⟩ := hk
  obtain ⟨name, value⟩ := p
  rw [Param.Formed] at hformed
  rw [Param.Legible] at hlegible
  have hname := Lexer.wordLexeme_name hformed.1
  have hthis : (Lexer.wordLexeme name.toList).isKeyword .thisWord = false := by
    refine isKeyword_false fun hl => ?_
    rw [hl] at hname
    simp [Lexeme.name?, Keyword.isContextual] at hname
  have hquestion : (Lexeme.mark m).isMark .question = false ∧ Lexeme.mark m ≠ .mark .colon ∧
      (Lexeme.mark m).isMark .assign = false := by
    obtain rfl | rfl := hm <;> exact ⟨rfl, by simp, rfl⟩
  unfold param
  cases value with
  | none =>
    refine .acceptKeyword_miss hc hthis ?_
    simp only [Bool.false_eq_true, if_false]
    refine .expectName_bind hc hname (.acceptMark_miss hc hquestion.1 ?_)
    refine annotation_bind hc hquestion.2.1 (.acceptMark_miss hc hquestion.2.2 ?_)
    exact .pure rfl
  | some e =>
    rw [Param.shapes, Expr.level_lt_assignment] at hn ⊢
    refine .acceptKeyword_miss hc hthis ?_
    simp only [Bool.false_eq_true, if_false]
    refine .expectName_bind hc hname (.acceptMark_miss hc rfl ?_)
    refine annotation_bind hc (by simp) (.acceptMark_hit hc ?_)
    simp only [if_true]
    refine .bind_all (P := fun o => o.map Expr.bare = some e.bare) (.map ?_) fun o ho => ?_
    · refine (h.beforeMark false ?_ ?_ hc hformed.2 hlegible ?_).mono fun x hx => by simp [hx]
      · exact fun h => hquestion.2.1 (by rw [h])
      · obtain rfl | rfl := hm <;> decide
      · simp only [parens, Bool.false_eq_true, if_false, List.cons_append, List.length_cons] at hn
        omega
    · obtain ⟨x, rfl, hx⟩ := Option.map_eq_some_iff.mp ho
      exact .pure (by simp [Param.bare, bareOption, hx])

/-- The parameters of a function, with their parentheses. -/
theorem reads_params (h : R.Back n) (hc : c.Complete) {ps : List Param} (b : Bool)
    (hformed : ParamsFormed ps c.site) (hlegible : ParamsLegible ps (mark .closeParen :: k))
    (hn :
      4 * (mark .openParen :: commas (paramShapes ps) ++ mark .closeParen :: k).length ≤ n + 1) :
    (params R).Reads c (⟨.mark .openParen, b⟩ :: commas (paramShapes ps) ++ [mark .closeParen]) k
      fun xs => bareParams xs = bareParams ps := by
  refine .expectMark_bind hc fun _ => ?_
  have hitems : Reads.Items (param R) c Param.shapes (Option.map Param.bare) (some ∘ Param.bare) ps
      (mark .closeParen :: k) := by
    intro p post hsuffix hlen
    rw [← paramShapes_eq] at hlen ⊢
    rw [← paramShapes_eq] at hlen
    refine reads_param h hc (paramsFormed_iff.mp hformed p (hsuffix.subset List.mem_cons_self))
      (hlegible.suffix p post hsuffix) ?_ ?_
    · unfold afterItem
      split
      · exact ⟨_, _, rfl, .inr rfl⟩
      · exact ⟨_, _, rfl, .inl rfl⟩
    · rw [List.cons_append, List.length_cons] at hn
      omega
  have hlist := Reads.listUntil hc ps (fun p hp => ?_) rfl hitems
  · rw [← paramShapes_eq] at hlist
    refine .bind_all hlist fun xs hxs => .pure ?_
    rw [bareParams_eq, bareParams_eq, List.map_filterMap]
    have hfilter := congrArg (List.filterMap id) hxs
    rw [List.filterMap_map, List.filterMap_map] at hfilter
    simpa [Function.comp_def] using hfilter
  · obtain ⟨name, value⟩ := p
    have hname := paramsFormed_iff.mp hformed _ hp
    rw [Param.Formed] at hname
    have hmark := Lexeme.isMark_of_begins (m := .closeParen)
      (Lexeme.begins_of_name (Lexer.wordLexeme_name hname.1)) rfl
    cases value with
    | none => exact ⟨_, _, rfl, hmark⟩
    | some e => exact ⟨_, _, rfl, hmark⟩

/-- The arguments of a call, with their parentheses. -/
theorem reads_args (h : R.Back n) (hc : c.Complete) {es : List Expr}
    (hformed : ExprsFormed es c.site) (hlegible : ExprsLegible es (mark .closeParen :: k))
    (hn : 4 * (mark .openParen :: commas (argShapes es) ++ mark .closeParen :: k).length ≤ n + 1) :
    (args R).Reads c (mark .openParen :: commas (argShapes es) ++ [mark .closeParen]) k
      fun xs => bareExprs xs = bareExprs es := by
  refine .expectMark_bind hc fun _ => ?_
  have hlist := Reads.listUntil hc es (args_begin hformed rfl) rfl
    (h.items hc hformed hlegible (.mark (by decide)) (by simp) (by
      rw [List.cons_append, List.length_cons] at hn
      omega))
  rw [← argShapes_eq] at hlist
  refine hlist.mono fun xs hxs => ?_
  rw [bareExprs_eq, bareExprs_eq, hxs]

/-! ## Statements -/

/-- What comes next leaves every statement alone that ends here. -/
structure EndsLine (k : List Shape) : Prop where
  stops : Stops assignmentLevel k
  fresh : (firstOf k).lexeme.isFresh
  ends : (firstOf k).lexeme.isMark .closeBrace ∨ (firstOf k).afterBreak
  closed : (firstOf k).lexeme ≠ .keyword .elseWord

theorem EndsLine.placed (h : EndsLine k) (hc : c.Complete) {s : Stmt} (hformed : s.Formed c.site)
    (hlegible : s.Legible k) : Stmt.Placed c s k where
  complete := hc
  formed := hformed
  legible := hlegible
  stops := h.stops
  fresh := h.fresh
  ends := .inr h.ends
  closed _ := h.closed

/-- A statement on a line of its own. -/
theorem EndsLine.of_stmt {s : Stmt} {site : Site} (h : s.Formed site) (k : List Shape) :
    EndsLine (s.shapes true ++ k) := by
  obtain ⟨x, r, hshapes, hbreak, hstart⟩ := s.shapes_opening true h
  have hfresh := Lexeme.isFresh_of_startsStmt hstart
  rw [hshapes]
  refine ⟨?_, hfresh, .inr hbreak, fun helse => ?_⟩
  · exact Nat.lt_of_le_of_lt (Nat.le_of_eq (pull_of_isFresh hfresh hbreak)) Nat.zero_lt_one
  · have helse : x.lexeme = .keyword .elseWord := helse
    rw [helse] at hstart
    cases hstart

theorem EndsLine.stmts (h : EndsLine k) {ss : List Stmt} {site : Site} (hs : StmtsFormed ss site) :
    EndsLine ((stmtShapes ss).flatten ++ k) := by
  cases ss with
  | nil => exact h
  | cons s r =>
    rw [StmtsFormed] at hs
    rw [stmtShapes, List.flatten_cons, List.append_assoc]
    exact .of_stmt hs.1 _

/-- The shapes of statements, of which the first may stand on the line before. -/
def lineShapes (b : Bool) : List Stmt → List Shape
  | [] => []
  | s :: r => s.shapes b ++ (stmtShapes r).flatten

theorem stmtShapes_flatten (ss : List Stmt) : (stmtShapes ss).flatten = lineShapes true ss := by
  cases ss with
  | nil => rfl
  | cons s r => rw [stmtShapes, List.flatten_cons, lineShapes]

/-- A loop over statements reads them one after the other. -/
theorem reads_stmts (h : R.Back n) (hc : c.Complete)
    {step : List Stmt → Parser (Turn (List Stmt) (List Stmt))}
    (hagain : ∀ acc l k P, (firstOf (l ++ k)).lexeme.startsStmt → R.statement.Reads c l k P →
      (step acc).Reads c l k fun turn => ∃ s, P s ∧ turn = .again (acc ++ [s]))
    (hdone : ∀ acc, (step acc).Reads c [] k (· = .done acc)) (hk : EndsLine k) (b : Bool)
    (ss : List Stmt) (acc : List Stmt) {ys : List Stmt} (hacc : acc.map Stmt.bare = ys)
    (hformed : StmtsFormed ss c.site) (hlegible : StmtsLegible ss k)
    (hn : 4 * (lineShapes b ss ++ k).length + 4 ≤ n) :
    (loop step acc).Reads c (lineShapes b ss) k
      fun xs => xs.map Stmt.bare = ys ++ ss.map Stmt.bare := by
  induction ss generalizing b acc ys with
  | nil =>
    refine .loop_done ((hdone acc).mono ?_)
    rintro _ rfl
    exact ⟨acc, rfl, by simpa using hacc⟩
  | cons s r ih =>
    rw [StmtsFormed] at hformed
    rw [StmtsLegible] at hlegible
    obtain ⟨x, l, hshapes, -, hstart⟩ := s.shapes_opening b hformed.1
    rw [lineShapes, List.append_assoc] at hn
    have hstmt := h.statement b ((hk.stmts hformed.2).placed hc hformed.1 hlegible.1) hn
    refine .loop_again (I := fun xs => xs.map Stmt.bare = ys ++ [s.bare]) (by simp [hshapes])
      ((hagain acc _ _ _ (by rw [hshapes]; exact hstart) hstmt).mono ?_) fun xs hxs => ?_
    · rintro _ ⟨x, hx, rfl⟩
      exact ⟨_, rfl, by simp [hacc, hx]⟩
    · rw [stmtShapes_flatten] at hn ⊢
      have hrest := ih true _ hxs hformed.2 hlegible.2 (by
        rw [List.length_append] at hn
        omega)
      simpa using hrest

theorem not_end_of_startsStmt {l : Lexeme} (h : l.startsStmt) :
    l.isMark .closeBrace = false ∧ l.isEnd = false := by
  constructor
  · refine isMark_false ?_
    rintro rfl
    cases h
  · cases l with
    | endOfInput => cases h
    | _ => rfl

/-- Statements between braces. -/
theorem reads_block (h : R.Back n) (hc : c.Complete) {body : Block} (b : Bool)
    (hformed : body.Formed c.site) (hlegible : body.Legible k)
    (hn : 4 * (body.shapes b ++ k).length ≤ n) :
    (block R).Reads c (body.shapes b) k fun x => x.bare = body.bare := by
  obtain ⟨pos, ss⟩ := body
  rw [Block.Formed] at hformed
  rw [Block.Legible] at hlegible
  rw [Block.shapes, braced, stmtShapes_flatten] at hn ⊢
  refine .expectMark_bind hc fun start => ?_
  have hlines : EndsLine (⟨.mark .closeBrace, !(stmtShapes ss).isEmpty⟩ :: k) :=
    ⟨Nat.zero_lt_one, rfl, .inl rfl, by simp⟩
  have hlegible' : StmtsLegible ss (⟨.mark .closeBrace, !(stmtShapes ss).isEmpty⟩ :: k) := by
    cases ss with
    | nil => trivial
    | cons s r => exact hlegible
  refine .bind (P := fun xs => xs.map Stmt.bare = ss.map Stmt.bare) (.within ?_) fun xs hxs =>
    Reads.advance_bind fun _ _ => .pure ?_
  · have hc : c.enterBlock.Complete := hc
    refine reads_stmts h hc ?_ ?_ hlines true ss [] rfl hformed hlegible' ?_
    · intro acc l k' P hstart hstmt
      refine .peek_bind hc fun t ht => ?_
      have hl : t.lexeme = (firstOf (l ++ k')).lexeme := congrArg Shape.lexeme ht
      obtain ⟨hbrace, hend⟩ := not_end_of_startsStmt hstart
      rw [hl, hbrace, hend]
      simp only [Bool.false_eq_true, if_false]
      exact .bind_all hstmt fun s hs => .pure ⟨s, hs, rfl⟩
    · intro acc
      refine .peek_bind hc fun t ht => ?_
      have hl : t.lexeme = .mark .closeBrace := congrArg Shape.lexeme ht
      rw [hl]
      exact .pure rfl
    · simp only [List.cons_append, List.append_assoc, List.length_cons, List.nil_append] at hn
      omega
  · rw [Block.bare, Block.bare, bareStmts_eq, bareStmts_eq, hxs]

/-- The statements of a function. -/
theorem reads_functionBlock (h : R.Back n) (hc : c.Complete) {isAsync : Bool}
    {body : Block} (b : Bool)
    (hformed : body.Formed (c.site.enterFunction isAsync)) (hlegible : body.Legible k)
    (hn : 4 * (body.shapes b ++ k).length ≤ n) :
    (functionBlock R isAsync).Reads c (body.shapes b) k fun x => x.bare = body.bare :=
  .within (reads_block h (c := c.enterFunction isAsync) hc b hformed hlegible hn)

theorem firstOf_block (body : Block) (b : Bool) (l : List Shape) :
    firstOf (body.shapes b ++ l) = ⟨.mark .openBrace, b⟩ := by
  cases body
  rfl

/-- Generic parameters, parameters and the statements of a function. -/
theorem functionTail_bind (h : R.Back n) (hc : c.Complete) {names : TypeParams} {ps : List Param}
    {body : Block} {isAsync : Bool} {f : TypeParams → List Param → Block → Parser β}
    (hnames : names.Formed) (hparams : ParamsFormed ps c.site)
    (hbody : body.Formed (c.site.enterFunction isAsync))
    (hparamsLegible : ParamsLegible ps (mark .closeParen :: body.shapes false ++ k))
    (hbodyLegible : body.Legible k)
    (hn : 4 * (generics names ++ mark .openParen :: commas (paramShapes ps) ++
      mark .closeParen :: body.shapes false ++ k).length ≤ n + 1)
    (hf : ∀ ps' body', bareParams ps' = bareParams ps → body'.bare = body.bare →
      (f names ps' body').Reads c [] k Q) :
    Reads (do
      let names ← typeParams R
      let ps ← params R
      annotation R
      let body ← functionBlock R isAsync
      f names ps body) c (generics names ++ mark .openParen :: commas (paramShapes ps) ++
        mark .closeParen :: body.shapes false) k Q := by
  have hshapes : generics names ++ mark .openParen :: commas (paramShapes ps) ++
      mark .closeParen :: body.shapes false = generics names ++
        ((mark .openParen :: commas (paramShapes ps) ++ [mark .closeParen]) ++
          body.shapes false) := by
    simp
  simp only [List.length_append, List.length_cons] at hn
  rw [hshapes]
  refine .bind (P := (· = names)) (reads_typeParams hc hnames (by simp)) ?_
  rintro _ rfl
  refine .bind (reads_params h hc false hparams hparamsLegible (by
    simp only [List.length_append, List.length_cons]
    omega)) fun ps' hps => ?_
  refine annotation_bind hc (by simp [firstOf_block]) ?_
  refine .bind_all (reads_functionBlock h hc false hbody hbodyLegible (by
    simp only [List.length_append]
    omega)) fun body' hbody' => ?_
  exact hf ps' body' hps hbody'

end CoScript.Grammar
