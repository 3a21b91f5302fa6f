import CoScript.Proofs.Parse.Gives

/-!
# The parser keeps its promises

Each tree that a parser gives for the tokens of a text is formed: names are names, targets can be
assigned to, jumps have a construct around them that catches them, imports stand outside of blocks
and functions, and an `else` belongs to the nearest `if`. The context of the parser describes what
surrounds the place, also after parts of the input were tried and taken back.

Results:
* `Rules.Formed`: rules that give formed trees.
* `Grammar.formed_assignment`, `Grammar.formed_statement`: the rules over such rules.
* `parse_formed`: a program that a text stands for is formed.
-/

namespace CoScript

open CoScript.Parser

/-! ## Names -/

/-- A name has no point in it. -/
theorem isDotted_of_name {s : String} (h : isName s) : isDotted s := by
  have hchars : ∀ c ∈ s.toList, c ≠ '.' := by
    have hword := isWord_of_isName h
    simp only [isWord, Bool.and_eq_true, List.all_eq_true] at hword
    rintro _ hc rfl
    exact absurd (hword.2 _ hc) (by decide)
  have hsplit : s.toList.splitOn '.' = [s.toList] :=
    List.splitOn_eq_singleton fun hc => hchars _ hc rfl
  simpa [isDotted, hsplit] using h

/-- One more name after a point. -/
theorem isDotted_append {s t : String} (hs : isDotted s) (ht : isName t) :
    isDotted (s ++ "." ++ t) := by
  have hchars : (s ++ "." ++ t).toList = s.toList ++ '.' :: t.toList := by simp
  have ht' := isDotted_of_name ht
  rw [isDotted] at hs ht' ⊢
  rw [hchars, List.splitOn_append_cons_self, List.all_append, hs, ht']
  rfl

/-! ## Rules -/

/-- The next token is not `else`. -/
def NoElse (ts : List Token) : Prop :=
  ∀ t ∈ ts.head?, t.lexeme ≠ .keyword .elseWord

/-- No `else` comes after a statement that it would belong to. -/
def Parser.Attaches (p : Parser Stmt) : Prop :=
  ∀ c ts s rest, p c ts = .ok s rest → s.dangles = true → NoElse rest

/-- Rules that give formed trees. -/
structure Rules.Formed (R : Rules) : Prop where
  tracks : R.Tracks (.same (·.lexeme.Known)) R
  statement : ∀ c, R.statement.Gives c (·.Formed c.site)
  attaches : R.statement.Attaches
  assignment : ∀ c, R.assignment.Gives c (·.Formed c.site)
  binary : ∀ level c, (R.binary level).Gives c (·.Formed c.site)
  unary : ∀ c, R.unary.Gives c (·.Formed c.site)
  construction : ∀ c, R.construction.Gives c (·.Formed c.site)

namespace Grammar

variable {R : Rules} {c : Context}

/-! ## Types and parameters -/

theorem formed_type (h : R.Formed) : R.type.Gives c fun _ => True :=
  .tracked h.tracks.type

theorem formed_annotated (h : R.Formed) : ( annotation R).Gives c fun _ => True :=
  .tracked (tracks_annotated h.tracks)

theorem formed_typeArgs (h : R.Formed) : (typeArgs R).Gives c fun _ => True :=
  .tracked (tracks_typeArgs h.tracks)

theorem formed_typeRef (h : R.Formed) : (typeRef R).Gives c (isDotted · = true) := by
  have htail {first : String} (hfirst : isName first) :
      (dottedTail first).Gives c (isDotted · = true) := by
    refine .loop (I := (isDotted · = true)) (isDotted_of_name hfirst) fun name hname =>
      .bind .atMark fun b _ => ?_
    split
    · refine .bind .peekAt fun t ht => ?_
      cases hpart : t.lexeme.name? with
      | some part =>
        exact .bind .advance fun _ _ => .bind .advance fun _ _ =>
          .pure (isDotted_append hname (ht.name hpart))
      | none => exact .pure hname
    · exact .pure hname
  refine .bind .peek fun t ht => ?_
  cases hfirst : t.lexeme.name? with
  | none => exact .reject
  | some first =>
    refine .bind .advance fun _ _ => .bind (htail (ht.name hfirst)) fun name hname =>
      .bind .peek fun t' _ => ?_
    exact .skip (formed_typeArgs h) (.pure hname)

theorem formed_typeParam (h : R.Formed) (names : List String) :
    (typeParam R names).Gives c fun name => isName name = true ∧ name ∉ names := by
  have hlast {name : String} {t : Token} (hname : isName name) : Gives
      (if names.contains name then rejectAt .distinctTypeParams t else return name) c
      fun name => isName name = true ∧ name ∉ names := by
    split
    · exact .rejectAt
    · rename_i hnew
      exact .pure ⟨hname, by simpa using hnew⟩
  refine .bind .peek fun t _ => .bind .expectName fun name hname =>
    .bind .acceptKeyword fun b _ => ?_
  exact .skip (formed_type h) (.bind .acceptMark fun b _ => .skip (formed_type h) (hlast hname))

theorem formed_typeParams (h : R.Formed) : (typeParams R).Gives c TypeParams.Formed := by
  have hnames : Gives (loop (fun names : List String => do
      let names := names ++ [← typeParam R names]
      if ← acceptMark .comma then return Turn.again names else return .done names) []) c
      fun names => names ≠ [] ∧ names.Nodup ∧ ∀ n ∈ names, isName n = true := by
    refine .loop (I := fun names => names.Nodup ∧ ∀ n ∈ names, isName n = true) (by simp)
      fun names ⟨hnodup, hall⟩ => .bind (formed_typeParam h names) fun name ⟨hname, hnew⟩ => ?_
    have hnodup' : (names ++ [name]).Nodup := by
      rw [List.nodup_append]
      refine ⟨hnodup, List.nodup_singleton name, fun n hn n' hn' => ?_⟩
      obtain rfl := List.mem_singleton.mp hn'
      rintro rfl
      exact hnew hn
    refine .bind .acceptMark fun b _ => ?_
    split
    · exact .pure ⟨hnodup', Gives.snoc hall hname⟩
    · exact .pure ⟨by simp, hnodup', Gives.snoc hall hname⟩
  refine .bind .acceptMark fun b _ => ?_
  split
  · refine .bind hnames fun names hall => .bind .expectMark fun _ _ => .pure ?_
    rintro _ ⟨⟩
    exact hall
  · exact .pure (by rintro _ ⟨⟩)

theorem formed_params (h : R.Formed) : (params R).Gives c (ParamsFormed · c.site) := by
  have hdefault {isThis : Bool} {name : String} (hname : isThis = false → isName name) : Gives (do
      let _ ← acceptMark .question
      annotation R
      let default ← if ← acceptMark .assign then some <$> R.assignment else pure none
      return if isThis then none else some ⟨name, default⟩) c
      fun o => ∀ p ∈ o, Param.Formed p c.site := by
    refine .bind .acceptMark fun _ _ => .bind (formed_annotated h) fun _ _ =>
      .bind .acceptMark fun b _ => ?_
    refine .join (P := fun o => OptionFormed o c.site) (.map (h.assignment c)) (.pure trivial)
      fun default hd => .pure ?_
    cases isThis with
    | true => simp
    | false => simpa [Param.Formed] using ⟨hname rfl, hd⟩
  have hparam : (param R).Gives c fun o => ∀ p ∈ o, Param.Formed p c.site := by
    refine .bind .acceptKeyword fun isThis _ => ?_
    cases isThis with
    | true => exact .bind (.pure (P := fun _ => True) trivial) fun name _ => hdefault (by simp)
    | false => exact .bind .expectName fun name hname => hdefault fun _ => hname
  refine .bind .expectMark fun _ _ => .bind (Gives.listUntil hparam) fun items hitems => .pure ?_
  rw [paramsFormed_iff]
  intro p hp
  obtain ⟨o, ho, hp⟩ := List.mem_filterMap.mp hp
  exact hitems o ho p hp

/-! ## Expressions -/

theorem formed_block (h : R.Formed) : (block R).Gives c (·.Formed c.site) := by
  refine .bind .expectMark fun start _ => .bind (.within (.loop
    (I := fun ss => ∀ s ∈ ss, Stmt.Formed s c.site.enterBlock) (by simp) fun ss hss => ?_))
    fun ss hss => .bind .advance fun _ _ => .pure (stmtsFormed_iff.mpr hss)
  refine .bind .peek fun t _ => ?_
  split
  · exact .pure hss
  · split
    · exact .reject
    · exact .bind (h.statement _) fun s hs => .pure (Gives.snoc hss hs)

theorem formed_functionBlock (h : R.Formed) (isAsync : Bool) :
    (functionBlock R isAsync).Gives c (·.Formed (c.site.enterFunction isAsync)) :=
  .within (formed_block h)

theorem formed_args (h : R.Formed) : (args R).Gives c (ExprsFormed · c.site) :=
  .bind .expectMark fun _ _ => (Gives.listUntil (h.assignment c)).mono fun _ =>
    exprsFormed_iff.mpr

theorem formed_arrowBody (h : R.Formed) (isAsync : Bool) :
    (arrowBody R isAsync).Gives c (·.Formed (c.site.enterFunction isAsync)) := by
  refine .bind .atMark fun b _ => ?_
  split
  · exact .bind (formed_functionBlock h isAsync) fun _ hb => .pure hb
  · exact .bind (.within (h.assignment _)) fun _ he => .pure he

theorem formed_arrowHead (h : R.Formed) : (arrowHead R).Gives c (ParamsFormed · c.site) := by
  refine .bind (formed_params h) fun ps hps => .bind (formed_annotated h) fun _ _ =>
    .bind .peek fun t _ => ?_
  split
  · exact .reject
  · exact .bind .advance fun _ _ => .pure hps

theorem formed_arrowParams (h : R.Formed) (offset : ℕ) :
    (arrowParams? R offset).Gives c fun o => ∀ ps ∈ o, ParamsFormed ps c.site := by
  refine .bind .peekAt fun head hhead => ?_
  split
  · rename_i name hname
    refine .bind .peekAt fun t _ => ?_
    split
    · have hparam : Param.Formed ⟨name, none⟩ c.site := ⟨hhead.name hname, trivial⟩
      exact .skip .advance (.bind .advance fun _ _ => .bind .advance fun _ _ =>
        .pure (by simpa [ParamsFormed] using hparam))
    · exact .pure (by simp)
  · split
    · exact .speculate (.skip .advance (formed_arrowHead h))
    · exact .pure (by simp)

theorem formed_arrow (h : R.Formed) :
    (arrow? R).Gives c fun o => ∀ e ∈ o, Expr.Formed e c.site := by
  have hbody (pos : Position) (isAsync : Bool) {ps : List Param} (hps : ParamsFormed ps c.site) :
      Gives (do return some (.arrow pos ps (← arrowBody R isAsync) isAsync)) c
        fun o => ∀ e ∈ o, Expr.Formed e c.site := by
    refine .bind (formed_arrowBody h isAsync) fun body hbody => .pure ?_
    rintro _ ⟨⟩
    exact ⟨hps, hbody⟩
  refine .bind .peek fun start _ => ?_
  dsimp only
  split
  · refine .bind .peekAt fun next _ => ?_
    split
    · exact .pure (by simp)
    · refine .bind (formed_arrowParams h _) fun o ho => ?_
      split
      · exact .pure (by simp)
      · exact hbody _ _ (ho _ rfl)
  · refine .bind (formed_arrowParams h _) fun o ho => ?_
    split
    · exact .pure (by simp)
    · exact hbody _ _ (ho _ rfl)

theorem formed_functionExpr (h : R.Formed) (isAsync : Bool) :
    (functionExpr R isAsync).Gives c (·.Formed c.site) := by
  refine .bind .expectKeyword fun start _ => .bind .peek fun t _ => .skip .advance ?_
  exact .bind (formed_typeParams h) fun generics hgenerics => .bind (formed_params h) fun ps hps =>
    .bind (formed_annotated h) fun _ _ => .bind (formed_functionBlock h isAsync) fun body hbody =>
    .pure ⟨hgenerics, hps, hbody⟩

/-- The key of a property is the name that was looked at, if it is one. -/
theorem propertyKey_eq_name {ts mid : List Token} {t : Token} {key name : String}
    (ht : peek c ts = .ok t ts) (hname : t.lexeme.name? = some name)
    (hkey : propertyKey c ts = .ok key mid) : key = name := by
  obtain ⟨t', ts', hpeek, hkey⟩ := bind_eq_ok.mp hkey
  obtain ⟨rfl, rfl⟩ := Outcome.ok.inj (ht.symm.trans hpeek)
  have hword : t.lexeme.word? = some name := by
    revert hname
    cases t.lexeme <;> simp [Lexeme.name?, Lexeme.word?]
  have hproperty : expectPropertyName c ts = .ok key mid := by
    revert hname hkey
    cases t.lexeme <;> simp [Lexeme.name?]
  obtain ⟨t', ts', hpeek, hproperty⟩ := bind_eq_ok.mp hproperty
  obtain ⟨rfl, rfl⟩ := Outcome.ok.inj (ht.symm.trans hpeek)
  simp only [hword] at hproperty
  obtain ⟨_, _, _, hproperty⟩ := bind_eq_ok.mp hproperty
  exact (Outcome.ok.inj hproperty).1.symm

theorem formed_property (h : R.Formed) : (property R).Gives c (·.Formed c.site) := by
  have hrest {start : Token} {key : String} (hkey : start.lexeme.name?.isSome → isName key) :
      Gives (do
        if ← acceptMark .colon then return ⟨key, ← R.assignment, false⟩
        else if ← atMark .openParen then
          let ps ← params R
          annotation R
          let body ← functionBlock R false
          return ⟨key, .function start.pos (some key) ps body false none, false⟩
        else if start.lexeme.name?.isSome then return ⟨key, .name start.pos key, true⟩
        else reject (.mark .colon)) c (Property.Formed · c.site) := by
    refine .bind .acceptMark fun b _ => ?_
    split
    · exact .bind (h.assignment c) fun _ he => .pure ⟨he, by simp⟩
    · refine .bind .atMark fun b _ => ?_
      split
      · refine .bind (formed_params h) fun ps hps => .bind (formed_annotated h) fun _ _ =>
          .bind (formed_functionBlock h false) fun body hbody => .pure ⟨?_, by simp⟩
        exact ⟨by rintro _ ⟨⟩, hps, hbody⟩
      · split
        · rename_i hname
          exact .pure ⟨hkey hname, fun _ => ⟨_, rfl⟩⟩
        · exact .reject
  intro ts hts p rest hrun
  obtain ⟨start, ts', hpeek, hafter⟩ := bind_eq_ok.mp hrun
  obtain ⟨hts', hstart⟩ := Gives.peek ts hts start ts' hpeek
  obtain ⟨key, mid, hkey, hp⟩ := bind_eq_ok.mp hafter
  obtain ⟨hmid, -⟩ := Gives.tracked tracks_propertyKey ts' hts' key mid hkey
  refine hrest (fun hname => ?_) mid hmid p rest hp
  obtain ⟨name, hname⟩ := Option.isSome_iff_exists.mp hname
  obtain rfl := (peek_eq_ok hpeek).1
  rw [propertyKey_eq_name hpeek hname hkey]
  exact hstart.name hname

theorem formed_primary (h : R.Formed) : (primary R).Gives c (·.Formed c.site) := by
  refine .bind .peek fun t ht => ?_
  split
  case h_1 hl => exact .bind .advance fun _ _ => .pure (Lexeme.Known.number (hl ▸ ht))
  case h_7 =>
    refine .bind .advance fun _ _ => .bind .context ?_
    rintro _ rfl
    split
    · rename_i hfunction
      exact .bind (formed_args h) fun _ ha => .pure ⟨hfunction, ha⟩
    · exact .rejectAt
  case h_8 => exact formed_functionExpr h false
  case h_9 =>
    exact .bind .advance fun _ _ => .bind (h.assignment c) fun e he => .bind .expectMark fun _ _ =>
      .pure he
  case h_10 =>
    exact .bind .advance fun _ _ => .bind (Gives.listUntil (h.assignment c)) fun es hes =>
      .pure (exprsFormed_iff.mpr hes)
  case h_11 =>
    exact .bind .advance fun _ _ => .bind (Gives.listUntil (formed_property h)) fun ps hps =>
      .pure (propertiesFormed_iff.mpr hps)
  case h_12 =>
    have hname {name : String} (hn : t.lexeme.name? = some name) : Gives (do
        let _ ← advance
        return Expr.name t.pos name) c (·.Formed c.site) :=
      .bind .advance fun _ _ => .pure (ht.name hn)
    dsimp only
    split
    · refine .bind .peekAt fun next _ => ?_
      split
      · exact .bind .advance fun _ _ => formed_functionExpr h true
      · split
        · exact hname ‹_›
        · exact .reject
    · split
      · exact hname ‹_›
      · exact .reject
  all_goals exact .bind .advance fun _ _ => .pure trivial

theorem formed_construction (h : R.Formed) : (construction R).Gives c (·.Formed c.site) := by
  have hmembers (first : Expr) (hfirst : first.Formed c.site) : Gives (loop (fun cls : Expr => do
      let t ← peek
      if t.lexeme.isMark .dot then
        let _ ← advance
        return Turn.again (.member t.pos cls (← expectPropertyName))
      else return .done cls) first) c (·.Formed c.site) := by
    refine .loop (I := (Expr.Formed · c.site)) hfirst fun cls hcls => .bind .peek fun t _ => ?_
    split
    · exact .bind .advance fun _ _ => .bind .expectPropertyName fun _ hattr => .pure ⟨hcls, hattr⟩
    · exact .pure hcls
  refine .bind .expectKeyword fun start _ => .bind .atKeyword fun b _ =>
    .join (h.construction c) (formed_primary h) fun first hfirst => ?_
  refine .bind (hmembers first hfirst) fun cls hcls => .bind .atMark fun b _ =>
    .skip (formed_typeArgs h) (.bind .peek fun t _ => ?_)
  split
  · exact .bind (formed_args h) fun args hargs => .pure ⟨hcls, hargs⟩
  · exact .pure ⟨hcls, trivial⟩

theorem formed_callMemberTurn (h : R.Formed) {e : Expr} (he : e.Formed c.site) :
    (callMemberTurn R e).Gives c (Turn.Holds (·.Formed c.site) (·.Formed c.site)) := by
  refine .bind .peek fun t _ => ?_
  split
  · exact .bind .advance fun _ _ => .bind .expectPropertyName fun _ hattr => .pure ⟨he, hattr⟩
  · split
    · exact .pure he
    · exact .bind .advance fun _ _ => .bind (h.assignment c) fun key hkey =>
        .bind .expectMark fun _ _ => .pure ⟨he, hkey⟩
  · split
    · exact .pure he
    · exact .bind (formed_args h) fun args hargs => .pure ⟨he, hargs⟩
  · split
    · refine .bind (.speculate (.tracked (tracks_callTypeArgs h.tracks))) fun o _ => ?_
      split
      · exact .pure he
      · exact .pure he
    · exact .pure he
  · exact .pure he

theorem formed_callMember (h : R.Formed) : (callMember R).Gives c (·.Formed c.site) :=
  .bind .atKeyword fun _ _ => .join (h.construction c) (formed_primary h) fun _ hfirst =>
    .loop (I := (Expr.Formed · c.site)) hfirst fun _ he => formed_callMemberTurn h he

theorem formed_checkUpdateTarget {e : Expr} {op : UpdateOp} {t : Token} :
    (checkUpdateTarget e op t).Gives c fun _ => e.isTarget = true := by
  unfold checkUpdateTarget
  split
  · exact .pure ‹_›
  · exact .rejectAt

theorem formed_postfixExpr (h : R.Formed) : (postfixExpr R).Gives c (·.Formed c.site) := by
  refine .bind (formed_callMember h) fun e he => .bind .peek fun t _ => ?_
  split
  · split
    · exact .pure he
    · exact .bind formed_checkUpdateTarget fun _ htarget => .bind .advance fun _ _ =>
        .pure ⟨htarget, he⟩
  · exact .pure he

theorem formed_unary (h : R.Formed) : (Grammar.unary R).Gives c (·.Formed c.site) := by
  refine .bind .peek fun t _ => ?_
  split
  · exact .bind .advance fun _ _ => .bind (h.unary c) fun e he => .pure he
  · split
    · refine .bind .context ?_
      rintro c rfl
      split
      · exact .rejectAt
      · rename_i hawait
        refine .bind .advance fun _ _ => .bind (h.unary c) fun e he => .pure ⟨?_, he⟩
        intro (hfunction : c.inFunction = true)
        change c.inAsync = true
        simpa [hfunction] using hawait
    · split
      · exact .bind .advance fun _ _ => .bind (h.unary c) fun e he =>
          .bind formed_checkUpdateTarget fun _ htarget => .pure ⟨htarget, he⟩
      · exact formed_postfixExpr h

theorem formed_binary (h : R.Formed) (level : ℕ) :
    (Grammar.binary R level).Gives c (·.Formed c.site) := by
  refine .bind (h.unary c) fun left hleft =>
    .loop (I := (Expr.Formed · c.site)) hleft fun left hleft => .bind .peek fun t _ => ?_
  split
  · exact .bind .advance fun _ _ => .bind (formed_type h) fun _ _ => .pure hleft
  · split
    · split
      · exact .pure hleft
      · exact .bind .advance fun _ _ => .bind (h.binary _ c) fun right hright =>
          .pure ⟨hleft, hright⟩
    · exact .pure hleft

theorem formed_conditional (h : R.Formed) : (conditional R).Gives c (·.Formed c.site) := by
  refine .bind (h.binary 1 c) fun condition hcondition => .bind .peek fun t _ => ?_
  split
  · exact .bind .advance fun _ _ => .bind (h.assignment c) fun a ha => .bind .expectMark fun _ _ =>
      .bind (h.assignment c) fun b hb => .pure ⟨hcondition, ha, hb⟩
  · exact .pure hcondition

theorem formed_assignment (h : R.Formed) :
    (Grammar.assignment R).Gives c (·.Formed c.site) := by
  refine .bind (formed_arrow h) fun o ho => ?_
  split
  · exact .pure (ho _ rfl)
  · refine .bind .peek fun start _ => .bind (formed_conditional h) fun left hleft =>
      .bind .peek fun t _ => ?_
    split
    · split
      · rename_i htarget
        exact .bind .advance fun _ _ => .bind (h.assignment c) fun value hvalue =>
          .pure ⟨htarget, hleft, hvalue⟩
      · exact .rejectAt
    · exact .pure hleft

/-! ## Declarations -/

theorem formed_initializer (h : R.Formed) : (initializer R).Gives c (OptionFormed · c.site) := by
  refine .bind .acceptMark fun b _ => ?_
  split
  · exact .map (h.assignment c)
  · exact .pure trivial

theorem formed_varDecl (h : R.Formed) (kind : DeclKind) :
    (varDecl R kind).Gives c (·.Formed c.site) := by
  refine .bind .advance fun start _ => .bind .expectName fun name hname =>
    .bind (formed_annotated h) fun _ _ => .bind (formed_initializer h) fun value hvalue => ?_
  split
  · exact .reject
  · rename_i hconst
    refine .pure ⟨hname, ?_, hvalue⟩
    rintro rfl
    simpa [Option.isNone_iff_eq_none, Option.isSome_iff_ne_none] using hconst

theorem formed_functionRest (h : R.Formed) (pos : Position) {name : String} (hname : isWord name)
    (isAsync : Bool) : (functionRest R pos name isAsync).Gives c fun d =>
      d.name = name ∧ d.Formed c.site :=
  .bind (formed_typeParams h) fun _ hgenerics => .bind (formed_params h) fun _ hps =>
    .bind (formed_annotated h) fun _ _ => .bind (formed_functionBlock h isAsync) fun _ hbody =>
    .pure ⟨rfl, hname, hgenerics, hps, hbody⟩

theorem formed_functionDecl (h : R.Formed) (isAsync : Bool) :
    (functionDecl R isAsync).Gives c fun d => isName d.name ∧ d.Formed c.site := by
  refine .bind .expectKeyword fun _ _ => .bind .expectName fun name hname => ?_
  refine (formed_functionRest h _ (isWord_of_isName hname) isAsync).mono fun d hd => ⟨?_, hd.2⟩
  rw [hd.1]
  exact hname

/-- A member of a class is formed, be it a field or a method. -/
def MemberFormed (s : Site) : FieldDecl ⊕ FunctionDecl → Prop
  | .inl f => f.Formed s
  | .inr d => d.Formed s

theorem formed_classMember (h : R.Formed) : (classMember R).Gives c (MemberFormed c.site) := by
  refine .bind (.tracked tracks_skipModifiers) fun _ _ => .bind (.tracked tracks_asyncModifier)
    fun isAsync _ => .bind .peek fun start _ => .bind .expectPropertyName fun name hname =>
    .bind .atMark fun b _ => .bind .atMark fun b' _ => ?_
  split
  · exact .bind (formed_functionRest h _ hname _) fun d hd => .pure hd.2
  · split
    · exact .reject
    · exact .bind .acceptMark fun _ _ => .bind (formed_annotated h) fun _ _ =>
        .bind (formed_initializer h) fun value hvalue => .bind .endStatement fun _ _ =>
        .pure ⟨hname, hvalue⟩

theorem formed_classBody (h : R.Formed) :
    (classBody R).Gives c fun ms => ∀ m ∈ ms, MemberFormed c.site m := by
  refine .bind .expectMark fun _ _ => .loop (I := fun ms => ∀ m ∈ ms, MemberFormed c.site m)
    (by simp) fun ms hms => .bind .acceptMark fun b _ => ?_
  split
  · exact .pure hms
  · refine .bind .peek fun t _ => ?_
    split
    · exact .reject
    · refine .bind .acceptMark fun b _ => ?_
      split
      · exact .pure hms
      · exact .bind (formed_classMember h) fun m hm => .pure (Gives.snoc hms hm)

theorem formed_superclass (h : R.Formed) :
    (superclass R).Gives c fun base => ∀ name ∈ base, isName name = true := by
  refine .bind .acceptKeyword fun b _ => ?_
  split
  · refine .bind .expectName fun name hname => .bind .atMark fun b _ => ?_
    exact .skip (formed_typeArgs h) (.pure (by simpa using hname))
  · exact .pure (by simp)

theorem formed_typeRefsAfter (h : R.Formed) (k : Keyword) :
    (typeRefsAfter R k).Gives c fun names => ∀ name ∈ names, isDotted name = true := by
  refine .bind .acceptKeyword fun b _ => ?_
  split
  · exact .sepBy (formed_typeRef h)
  · exact .pure (by simp)

theorem formed_classDecl (h : R.Formed) : (classDecl R).Gives c (·.Formed c.site) := by
  refine .bind .expectKeyword fun _ _ => .bind .expectName fun name hname =>
    .bind (formed_typeParams h) fun generics hgenerics =>
      .bind (formed_superclass h) fun base hbase =>
    .bind (formed_typeRefsAfter h _) fun interfaces hinterfaces => .bind (formed_classBody h)
    fun members hmembers => .pure ⟨hname, hbase, hinterfaces, hgenerics, ?_, ?_⟩
  · rw [fieldsFormed_iff]
    intro f hf
    obtain ⟨m, hm, hmf⟩ := List.mem_filterMap.mp hf
    obtain rfl := Sum.getLeft?_eq_some_iff.mp hmf
    exact hmembers _ hm
  · rw [functionDeclsFormed_iff]
    intro d hd
    obtain ⟨m, hm, hmd⟩ := List.mem_filterMap.mp hd
    obtain rfl := Sum.getRight?_eq_some_iff.mp hmd
    exact hmembers _ hm

theorem formed_interfaceDecl (h : R.Formed) : (interfaceDecl R).Gives c InterfaceDecl.Formed :=
  .bind .expectKeyword fun _ _ => .bind .expectName fun _ hname =>
    .bind (formed_typeParams h) fun _ hgenerics => .bind (formed_typeRefsAfter h _) fun _ hbases =>
    .bind (.tracked (tracks_objectType h.tracks)) fun _ _ => .pure ⟨hname, hgenerics, hbases⟩

theorem formed_typeAlias (h : R.Formed) : (typeAlias R).Gives c (·.Formed c.site) :=
  .bind .expectKeyword fun _ _ => .bind .expectName fun _ hname =>
    .bind (formed_typeParams h) fun _ hgenerics => .bind .expectMark fun _ _ =>
    .bind (formed_type h) fun _ _ => .bind .endStatement fun _ _ => .pure ⟨hname, hgenerics⟩

/-- What an import binds: a whole module, or words of it under names. -/
def BindingsFormed (bindings : List ImportBinding) : Prop :=
  (∃ name, isName name ∧ bindings = [⟨"*", some name⟩]) ∨
    ∀ b ∈ bindings, isWord b.name ∧ ∀ l ∈ b.localAs, isName l

theorem formed_importBindings : importBindings.Gives c BindingsFormed := by
  have himported : importedName.Gives c fun b => isWord b.name ∧ ∀ l ∈ b.localAs, isName l := by
    refine .bind .expectPropertyName fun name hname => .bind .acceptKeyword fun b _ => ?_
    refine .join (P := fun o => ∀ l ∈ o, isName l = true) (.map (Gives.expectName.mono ?_))
      (.pure (by simp)) fun localAs hlocal => .pure ⟨hname, hlocal⟩
    rintro name hname _ ⟨⟩
    exact hname
  refine .bind .acceptMark fun b _ => ?_
  split
  · exact .bind .expectKeyword fun _ _ => .bind .expectName fun name hname =>
      .pure (.inl ⟨name, hname, rfl⟩)
  · refine .bind .acceptMark fun b _ => ?_
    split
    · exact (Gives.listUntil himported).mono fun _ => .inr
    · refine .bind .expectName fun name hname => .pure (.inr ?_)
      simpa using ⟨by decide, hname⟩

/-- An import stands outside of blocks and functions. -/
theorem formed_importDecl :
    importDecl.Gives c fun d => (!c.site.inBlock && !c.site.inFunction) = true ∧ d.Formed := by
  refine .bind .expectKeyword fun start _ => .bind .context ?_
  rintro c rfl
  split
  · exact .rejectAt
  · rename_i hplace
    have hsite : (!c.site.inBlock && !c.site.inFunction) = true := by
      change (!c.inBlock && !c.inFunction) = true
      simpa using hplace
    have hrest {bindings : List ImportBinding} (hbindings : BindingsFormed bindings) : Gives (do
        let source ← specifier
        endStatement
        return (⟨start.pos, source, bindings⟩ : ImportDecl)) c
        fun d => (!c.site.inBlock && !c.site.inFunction) = true ∧ d.Formed :=
      .bind (.tracked tracks_specifier) fun _ _ => .bind .endStatement fun _ _ =>
        .pure ⟨hsite, hbindings⟩
    refine .bind .peek fun t _ => ?_
    dsimp only
    split
    · exact hrest (.inr (by simp))
    · exact .bind formed_importBindings fun bindings hbindings => .bind .expectKeyword fun _ _ =>
        hrest hbindings

/-! ## Where an `else` belongs -/

theorem acceptElse_eq_ok {ts rest : List Token} {b : Bool}
    (h : acceptKeyword .elseWord c ts = .ok b rest) :
    b = true ∧ ¬ NoElse ts ∨ b = false ∧ rest = ts ∧ NoElse ts := by
  unfold acceptKeyword atKeyword at h
  simp only [bind_assoc, pure_bind] at h
  obtain ⟨t, mid, hpeek, htaken⟩ := bind_eq_ok.mp h
  obtain ⟨rfl, ht⟩ := peek_eq_ok hpeek
  split at htaken
  · rename_i hk
    have hl := lexeme_of_isKeyword hk
    obtain ⟨r, rfl⟩ := ht.eq_cons (by rw [hl]; simp)
    obtain ⟨⟩ := htaken
    exact .inl ⟨rfl, fun hnone => hnone t rfl hl⟩
  · rename_i hk
    obtain ⟨⟩ := htaken
    refine .inr ⟨rfl, rfl, fun t' ht' hl => hk ?_⟩
    obtain ht | ⟨hnone, -⟩ := ht
    · obtain rfl : t' = t := Option.some.inj (ht'.symm.trans (List.head?_eq_getElem? ▸ ht))
      simp [hl, Lexeme.isKeyword]
    · simp [List.head?_eq_getElem?, hnone] at ht'

/-- A conditional takes the `else` that comes, and its first branch leaves it to no other. -/
theorem branch_eq_ok (h : R.statement.Attaches) {ts rest : List Token} {s : Stmt}
    (hs : branch R c ts = .ok s rest) : ∃ pos condition thenBranch elseBranch,
      s = .branch pos condition thenBranch elseBranch ∧
      (elseBranch.isSome → thenBranch.dangles = false) ∧ (s.dangles = true → NoElse rest) := by
  obtain ⟨start, ts₁, -, hs₁⟩ := bind_eq_ok.mp hs
  obtain ⟨condition, ts₂, -, hs₂⟩ := bind_eq_ok.mp hs₁
  obtain ⟨thenBranch, ts₃, hthen, hs₃⟩ := bind_eq_ok.mp hs₂
  obtain ⟨b, ts₄, hb, hs₄⟩ := bind_eq_ok.mp hs₃
  obtain ⟨rfl, helse⟩ | ⟨rfl, rfl, hnone⟩ := acceptElse_eq_ok hb
  · obtain ⟨o, ts₅, ho, hs₅⟩ := bind_eq_ok.mp hs₄
    obtain ⟨e, ts₆, he, ho'⟩ := bind_eq_ok.mp ho
    obtain ⟨⟩ := ho'
    obtain ⟨⟩ := hs₅
    refine ⟨_, _, _, _, rfl, fun _ => ?_, fun hd => h _ _ _ _ he (by rwa [Stmt.dangles] at hd)⟩
    exact Bool.eq_false_iff.mpr fun hd => helse (h _ _ _ _ hthen hd)
  · obtain ⟨⟩ := hs₄
    exact ⟨_, _, _, _, rfl, by simp, fun _ => hnone⟩

end Grammar

namespace Parser.Attaches

variable {α : Type} {p : Parser α} {f : α → Parser Stmt}

theorem bind (hf : ∀ a, (f a).Attaches) : (p >>= f).Attaches := by
  intro c ts s rest hs
  obtain ⟨a, mid, -, hlast⟩ := bind_eq_ok.mp hs
  exact hf a c mid s rest hlast

theorem pure {s : Stmt} (h : s.dangles = false) : (Pure.pure s : Parser Stmt).Attaches := by
  rintro c ts _ rest ⟨⟩ hd
  rw [h] at hd
  cases hd

theorem rejectAt {e : Expectation} {t : Token} : (rejectAt e t : Parser Stmt).Attaches := by
  rintro c ts s rest ⟨⟩

theorem reject {e : Expectation} : (reject e : Parser Stmt).Attaches :=
  bind fun _ => rejectAt

/-- A statement that ends with the body that a parser gives. -/
theorem last {q : Parser Stmt} {g : Stmt → Stmt} (h : q.Attaches)
    (hg : ∀ s, (g s).dangles = s.dangles) : (q >>= fun s => Pure.pure (g s)).Attaches := by
  intro c ts s rest hs hd
  obtain ⟨body, mid, hbody, hlast⟩ := bind_eq_ok.mp hs
  obtain ⟨⟩ := hlast
  exact h c ts body rest hbody (hg body ▸ hd)

end Parser.Attaches

namespace Grammar

variable {R : Rules} {c : Context}

section Attaches

variable (h : R.statement.Attaches)
include h

theorem attaches_loopBody : (loopBody R).Attaches :=
  fun _ ts s rest hs => h _ ts s rest hs

theorem attaches_branch : (branch R).Attaches := by
  intro c ts s rest hs
  obtain ⟨_, _, _, _, -, -, hnone⟩ := branch_eq_ok h hs
  exact hnone

theorem attaches_forOf (pos : Position) (kind : DeclKind) : (forOf R pos kind).Attaches :=
  .bind fun _ => .bind fun _ => .bind fun _ => .bind fun _ => .bind fun _ =>
    .last (attaches_loopBody h) fun _ => rfl

theorem attaches_forClassic (pos : Position) : (forClassic R pos).Attaches :=
  .bind fun _ => .bind fun _ => .bind fun _ => .bind fun _ => .bind fun _ => .bind fun _ =>
    .last (attaches_loopBody h) fun _ => rfl

theorem attaches_forLoop : (forLoop R).Attaches := by
  refine .bind fun start => .bind fun _ => .bind fun t => ?_
  split
  · refine .bind fun t => ?_
    split
    · exact attaches_forOf h _ _
    · exact attaches_forClassic h _
  · exact attaches_forClassic h _

theorem attaches_whileLoop : (whileLoop R).Attaches :=
  .bind fun _ => .bind fun _ => .last (attaches_loopBody h) fun _ => rfl

omit h in
theorem attaches_exprStmt : (exprStmt R).Attaches :=
  .bind fun _ => .bind fun _ => .bind fun _ => .pure rfl

omit h in
theorem attaches_returnStmt : (returnStmt R).Attaches := by
  refine .bind fun start => .bind fun c => ?_
  split
  · refine .bind fun t => ?_
    dsimp only
    split <;> exact .bind fun _ => .bind fun _ => .pure rfl
  · exact .rejectAt

omit h in
theorem attaches_tryStmt : (tryStmt R).Attaches := by
  have hlast (pos : Position) (body : Block) (name : Option String) (handler : Option Block) :
      Attaches (do
        let finalizer ← if ← acceptKeyword .finallyWord then some <$> block R else pure none
        if handler.isNone && finalizer.isNone then reject .catchOrFinally
        else return Stmt.tryStmt pos body name handler finalizer) := by
    refine .bind fun b => ?_
    dsimp only
    split
    all_goals
      refine .bind fun finalizer => ?_
      split
      · exact .reject
      · exact .pure rfl
  refine .bind fun start => .bind fun body => .bind fun b => ?_
  dsimp only
  split
  · exact .bind fun name => .bind fun handler => hlast _ _ _ _
  · exact hlast _ _ _ _

theorem attaches_keywordStmt (k : Keyword) : (keywordStmt R k).Attaches := by
  unfold keywordStmt
  split
  · exact .bind fun _ => .pure rfl
  · refine .bind fun next => ?_
    split
    · exact .bind fun _ => .bind fun _ => .pure rfl
    · exact attaches_exprStmt
  · exact .bind fun _ => .pure rfl
  · refine .bind fun next => ?_
    split
    · exact .bind fun _ => .pure rfl
    · exact attaches_exprStmt
  · refine .bind fun next => ?_
    split
    · exact .bind fun _ => .bind fun _ => .bind fun _ => .bind fun _ => .bind fun _ =>
        .bind fun _ => .pure rfl
    · exact attaches_exprStmt
  · exact .bind fun _ => .pure rfl
  · exact attaches_branch h
  · exact attaches_forLoop h
  · exact attaches_whileLoop h
  · exact .bind fun _ => .bind fun _ => .bind fun _ => .bind fun _ => .pure rfl
  · refine .bind fun start => .bind fun c => ?_
    split
    · exact .bind fun _ => .pure rfl
    · exact .rejectAt
  · refine .bind fun start => .bind fun c => ?_
    split
    · exact .bind fun _ => .pure rfl
    · exact .rejectAt
  · exact attaches_returnStmt
  · refine .bind fun start => .bind fun t => ?_
    split
    · exact .reject
    · exact .bind fun _ => .bind fun _ => .pure rfl
  · exact attaches_tryStmt
  · exact attaches_exprStmt

theorem attaches_statement : (Grammar.statement R).Attaches := by
  refine .bind fun t => ?_
  split
  · exact .bind fun _ => .pure rfl
  · exact .bind fun _ => .pure rfl
  · split
    · exact .bind fun _ => .bind fun _ => .pure rfl
    · exact attaches_keywordStmt h _
  · exact attaches_exprStmt

end Attaches

/-! ## Statements -/

theorem formed_parenthesized (h : R.Formed) : (parenthesized R).Gives c (·.Formed c.site) :=
  .bind .expectMark fun _ _ => .bind (h.assignment c) fun _ he => .bind .expectMark fun _ _ =>
    .pure he

theorem formed_branch (h : R.Formed) : (branch R).Gives c (·.Formed c.site) := by
  -- that the first branch leaves no `else` to another conditional is seen on the whole run
  have hparts : (branch R).Gives c fun s => ∀ pos condition thenBranch elseBranch,
      s = .branch pos condition thenBranch elseBranch → condition.Formed c.site ∧
        thenBranch.Formed c.site ∧ StmtOptionFormed elseBranch c.site := by
    refine .bind .expectKeyword fun _ _ =>
      .bind (formed_parenthesized h) fun condition hcondition =>
      .bind (h.statement c) fun thenBranch hthen => .bind .acceptKeyword fun b _ => ?_
    refine .join (P := fun s => StmtOptionFormed s c.site) (.map (h.statement c)) (.pure trivial)
      fun elseBranch helse => .pure ?_
    rintro _ _ _ _ ⟨⟩
    exact ⟨hcondition, hthen, helse⟩
  intro ts hts s rest hs
  obtain ⟨hrest, hformed⟩ := hparts ts hts s rest hs
  obtain ⟨pos, condition, thenBranch, elseBranch, rfl, hattached, -⟩ := branch_eq_ok h.attaches hs
  obtain ⟨hcondition, hthen, helse⟩ := hformed _ _ _ _ rfl
  exact ⟨hrest, hcondition, hthen, helse, hattached⟩

theorem formed_loopBody (h : R.Formed) : (loopBody R).Gives c (·.Formed c.site.enterLoop) :=
  .within (h.statement _)

theorem formed_forOf (h : R.Formed) (pos : Position) (kind : DeclKind) :
    (forOf R pos kind).Gives c (·.Formed c.site) :=
  .bind .advance fun _ _ => .bind .expectName fun _ hname => .bind .expectKeyword fun _ _ =>
    .bind (h.assignment c) fun _ hiterable => .bind .expectMark fun _ _ =>
    .bind (formed_loopBody h) fun _ hbody => .pure ⟨hname, hiterable, hbody⟩

theorem formed_forInit (h : R.Formed) : (forInit R).Gives c (InitFormed · c.site) := by
  refine .bind .peek fun t _ => ?_
  split
  · exact .pure trivial
  · split
    · exact .bind (formed_varDecl h _) fun d hd => .pure hd
    · exact .bind (h.assignment c) fun e he => .pure he

theorem formed_exprUnless (h : R.Formed) (m : Mark) :
    (exprUnless R m).Gives c (OptionFormed · c.site) := by
  refine .bind .atMark fun b _ => ?_
  split
  · exact .pure trivial
  · exact .map (h.assignment c)

theorem formed_forClassic (h : R.Formed) (pos : Position) :
    (forClassic R pos).Gives c (·.Formed c.site) :=
  .bind (formed_forInit h) fun _ hinit => .bind .expectMark fun _ _ =>
    .bind (formed_exprUnless h _) fun _ hcondition => .bind .expectMark fun _ _ =>
    .bind (formed_exprUnless h _) fun _ hupdate => .bind .expectMark fun _ _ =>
    .bind (formed_loopBody h) fun _ hbody => .pure ⟨hinit, hcondition, hupdate, hbody⟩

theorem formed_forLoop (h : R.Formed) : (forLoop R).Gives c (·.Formed c.site) := by
  refine .bind .expectKeyword fun start _ => .bind .expectMark fun _ _ => .bind .peek fun t _ => ?_
  split
  · refine .bind .peekAt fun t _ => ?_
    split
    · exact formed_forOf h _ _
    · exact formed_forClassic h _
  · exact formed_forClassic h _

theorem formed_whileLoop (h : R.Formed) : (whileLoop R).Gives c (·.Formed c.site) :=
  .bind .expectKeyword fun _ _ => .bind (formed_parenthesized h) fun _ hcondition =>
    .bind (formed_loopBody h) fun _ hbody => .pure ⟨hcondition, hbody⟩

/-- A clause without a test comes once. -/
theorem formed_caseTest (h : R.Formed) (seenDefault : Bool) :
    (caseTest R seenDefault).Gives c fun test =>
      OptionFormed test c.site ∧ (seenDefault = true → test.isSome) := by
  refine .bind .peek fun t _ => ?_
  split
  · exact .bind .advance fun _ _ => .bind (h.assignment c) fun e he => .pure ⟨he, fun _ => rfl⟩
  · split
    · split
      · exact .rejectAt
      · rename_i hnew
        exact .bind .advance fun _ _ => .pure ⟨trivial, fun hseen => absurd hseen hnew⟩
    · exact .reject

theorem formed_switchCase (h : R.Formed) (seenDefault : Bool) :
    (switchCase R seenDefault).Gives c fun s =>
      s.Formed c.site ∧ (seenDefault = true → s.test.isSome) := by
  refine .bind .peek fun start _ => .bind (formed_caseTest h _) fun test ⟨htest, hdefault⟩ =>
    .bind .expectMark fun _ _ => .bind (.loop (I := fun ss => ∀ s ∈ ss, Stmt.Formed s c.site)
      (by simp) fun ss hss => .bind .peek fun t _ => ?_)
    fun body hbody => .pure ⟨⟨htest, stmtsFormed_iff.mpr hbody⟩, hdefault⟩
  split
  · exact .pure hss
  · split
    · exact .reject
    · exact .bind (h.statement c) fun s hs => .pure (Gives.snoc hss hs)

/-- The clauses of a switch are formed, and at most one of them has no test. -/
def ClausesFormed (s : Site) (cs : List SwitchCase) : Prop :=
  (∀ k ∈ cs, k.Formed s) ∧ cs.countP (·.test.isNone) ≤ 1

theorem formed_switchStmt (h : R.Formed) : (switchStmt R).Gives c (·.Formed c.site) := by
  refine .bind .expectKeyword fun start _ => .bind (formed_parenthesized h) fun d hd =>
    .bind .expectMark fun _ _ => .bind (P := ClausesFormed c.site.enterSwitch) ?_
    fun cs hcs => .pure ⟨hd, casesFormed_iff.mpr hcs.1, hcs.2⟩
  refine .within (.loop (I := ClausesFormed c.site.enterSwitch) (by simp [ClausesFormed])
    fun cs hcs => .bind .acceptMark fun b _ => ?_)
  split
  · exact .pure hcs
  · refine .bind (formed_switchCase h _) fun s hs => .pure ⟨Gives.snoc hcs.1 hs.1, ?_⟩
    rw [List.countP_append, List.countP_singleton]
    by_cases hseen : cs.any (·.test.isNone) = true
    · simpa [Option.isSome_iff_ne_none.mp (hs.2 hseen)] using hcs.2
    · have hnone : cs.countP (·.test.isNone) = 0 := by
        rw [List.countP_eq_zero]
        simpa using hseen
      rw [hnone]
      split <;> omega

/-! ### Jumps -/

theorem formed_breakStmt : breakStmt.Gives c (·.Formed c.site) := by
  refine .bind .expectKeyword fun start _ => .bind .context ?_
  rintro c rfl
  split
  · rename_i hb
    exact .bind .endStatement fun _ _ => .pure hb
  · exact .rejectAt

theorem formed_continueStmt : continueStmt.Gives c (·.Formed c.site) := by
  refine .bind .expectKeyword fun start _ => .bind .context ?_
  rintro c rfl
  split
  · rename_i hb
    exact .bind .endStatement fun _ _ => .pure hb
  · exact .rejectAt

theorem formed_returnStmt (h : R.Formed) : (returnStmt R).Gives c (·.Formed c.site) := by
  refine .bind .expectKeyword fun start _ => .bind .context ?_
  rintro c rfl
  split
  · rename_i hb
    refine .bind .peek fun t _ => .join (P := (OptionFormed · c.site)) (.pure trivial)
      (.map (h.assignment _)) fun value hvalue => .bind .endStatement fun _ _ => .pure ⟨hb, hvalue⟩
  · exact .rejectAt

theorem formed_throwStmt (h : R.Formed) : (throwStmt R).Gives c (·.Formed c.site) := by
  refine .bind .expectKeyword fun start _ => .bind .peek fun t _ => ?_
  split
  · exact .reject
  · exact .bind (h.assignment c) fun value hvalue => .bind .endStatement fun _ _ => .pure hvalue

theorem formed_catchName (h : R.Formed) :
    (catchName R).Gives c fun name => ∀ x ∈ name, isName x = true := by
  refine .bind .acceptMark fun b _ => ?_
  split
  · exact .bind .expectName fun name hname => .bind (formed_annotated h) fun _ _ =>
      .bind .expectMark fun _ _ => .pure (by simpa using hname)
  · exact .pure (by simp)

theorem formed_tryStmt (h : R.Formed) : (tryStmt R).Gives c (·.Formed c.site) := by
  have hfinalizer (pos : Position) (body : Block) (hbody : body.Formed c.site)
      (name : Option String) (handler : Option Block)
      (hhandler : BlockOptionFormed handler c.site)
      (hname : ∀ x ∈ name, isName x ∧ handler.isSome) : Gives (do
        let finalizer ← if ← acceptKeyword .finallyWord then some <$> block R else pure none
        if handler.isNone && finalizer.isNone then reject .catchOrFinally
        else return Stmt.tryStmt pos body name handler finalizer) c (·.Formed c.site) := by
    refine .bind .acceptKeyword fun b _ => .join (P := fun b => BlockOptionFormed b c.site)
      (.map (formed_block h)) (.pure trivial) fun finalizer hfinalizer => ?_
    dsimp only
    split
    · exact .reject
    · rename_i hboth
      refine .pure ⟨hbody, hhandler, hfinalizer, ?_, hname⟩
      cases handler <;> cases finalizer <;> simp_all
  refine .bind .expectKeyword fun start _ => .bind (formed_block h) fun body hbody =>
    .bind .acceptKeyword fun b _ => ?_
  dsimp only
  split
  · exact .bind (formed_catchName h) fun name hname =>
      .bind (formed_block h) fun handler hhandler =>
      hfinalizer _ body hbody name (some handler) hhandler fun x hx => ⟨hname x hx, rfl⟩
  · exact hfinalizer _ body hbody none none trivial (by simp)

theorem formed_exprStmt (h : R.Formed) : (exprStmt R).Gives c (·.Formed c.site) :=
  .bind .peek fun _ _ => .bind (h.assignment c) fun _ he => .bind .endStatement fun _ _ => .pure he

/-! ### All statements -/

theorem formed_keywordStmt (h : R.Formed) (k : Keyword) :
    (keywordStmt R k).Gives c (·.Formed c.site) := by
  unfold keywordStmt
  split
  · exact .bind (formed_functionDecl h false) fun d hd => .pure hd
  · refine .bind .peekAt fun next _ => ?_
    split
    · exact .bind .advance fun _ _ => .bind (formed_functionDecl h true) fun d hd => .pure hd
    · exact formed_exprStmt h
  · exact .bind (formed_classDecl h) fun d hd => .pure hd
  · refine .bind .peekAt fun next _ => ?_
    split
    · exact .bind (formed_interfaceDecl h) fun d hd => .pure hd
    · exact formed_exprStmt h
  · refine .bind .peekAt fun next _ => ?_
    split
    · exact formed_typeAlias h
    · exact formed_exprStmt h
  · exact .bind formed_importDecl fun d hd => .pure hd
  · exact formed_branch h
  · exact formed_forLoop h
  · exact formed_whileLoop h
  · exact formed_switchStmt h
  · exact formed_breakStmt
  · exact formed_continueStmt
  · exact formed_returnStmt h
  · exact formed_throwStmt h
  · exact formed_tryStmt h
  · exact formed_exprStmt h

theorem formed_statement (h : R.Formed) : (Grammar.statement R).Gives c (·.Formed c.site) := by
  refine .bind .peek fun t _ => ?_
  split
  · exact .bind .advance fun _ _ => .pure trivial
  · exact .bind (formed_block h) fun b hb => .pure hb
  · split
    · exact .bind (formed_varDecl h _) fun d hd => .bind .endStatement fun _ _ => .pure hd
    · exact formed_keywordStmt h _
  · exact formed_exprStmt h

end Grammar

/-! ## Programs -/

/-- At every depth the rules give formed trees. -/
theorem Rules.formed_ofDepth (n : ℕ) : (Rules.ofDepth n).Formed := by
  have htracks := Rules.tracks_ofDepth (.same (·.lexeme.Known)) (Nat.le_refl n)
  induction n with
  | zero =>
    exact ⟨htracks, fun _ => .tooDeep, (by rintro c ts s rest ⟨⟩), fun _ => .tooDeep,
      fun _ _ => .tooDeep, fun _ => .tooDeep, fun _ => .tooDeep⟩
  | succ n ih =>
    have h := ih (Rules.tracks_ofDepth (.same (·.lexeme.Known)) (Nat.le_refl n))
    exact ⟨htracks, fun _ => Grammar.formed_statement h, Grammar.attaches_statement h.attaches,
      fun _ => Grammar.formed_assignment h, fun level _ => Grammar.formed_binary h level,
      fun _ => Grammar.formed_unary h, fun _ => Grammar.formed_construction h⟩

theorem Grammar.formed_program {R : Rules} (h : R.Formed) {c : Context} :
    (Grammar.program R).Gives c fun p => StmtsFormed p.statements c.site := by
  refine .bind (.loop (I := fun ss => ∀ s ∈ ss, Stmt.Formed s c.site) (by simp)
    fun ss hss => .bind .peek fun t _ => ?_) fun ss hss => .pure (stmtsFormed_iff.mpr hss)
  split
  · exact .pure hss
  · exact .bind (h.statement c) fun s hs => .pure (Gives.snoc hss hs)

/-- A program that a text stands for is formed. -/
theorem parse_formed {source : String} {p : Program} (h : parse source = .ok p) :
    StmtsFormed p.statements .topLevel := by
  unfold parse Program.ofTokens at h
  dsimp only at h
  split at h
  · rename_i hp
    obtain rfl := Except.ok.inj h
    exact (Grammar.formed_program (Rules.formed_ofDepth _) _ (tokenize_known source) _ _ hp).2
  all_goals simp at h

end CoScript
