import CoScript.Proofs.Print.Back.Operators

/-!
# Variables, functions and types that are read back

Results:
* `Grammar.reads_varDecl`, `Grammar.reads_functionDecl`: each declaration is read back.
* `Grammar.reads_typeRefsAfter`, `Grammar.reads_any`, `Grammar.reads_typeMember`: the types that the
  printer writes.
-/

namespace CoScript.Grammar

open CoScript.Parser Shape

variable {R : Rules} {n : ℕ} {c : Context} {k : List Shape} {β : Type} {Q : β → Prop}

/-! ## What comes after a statement -/

theorem ne_of_isFresh {l : Lexeme} {m : Mark} (h : l.isFresh)
    (hm : (Lexeme.mark m).isFresh = false) :
    l ≠ .mark m := by
  rintro rfl
  rw [hm] at h
  exact Bool.false_ne_true h

/-- A statement ends where another one may start, on a new line or before a brace. -/
theorem endStatement_done (hc : c.Complete) {f : Unit → Parser β}
    (hfresh : (firstOf k).lexeme.isFresh)
    (hends : (firstOf k).lexeme.isMark .closeBrace ∨ (firstOf k).afterBreak)
    (hf : (f ()).Reads c [] k Q) : (endStatement >>= f).Reads c [] k Q :=
  .endStatement_bind hc (isMark_false (ne_of_isFresh hfresh rfl)) hends hf

/-- An expression before the end of a statement. -/
theorem placed_value (h : R.Back n) {s : Stmt} {e : Expr} (hs : Stmt.Placed c s k) (b : Bool)
    (hformed : e.Formed c.site) (hlegible : e.Legible k)
    (hn : 4 * (e.shapes b ++ k).length + 3 ≤ n) :
    R.assignment.Reads c (e.shapes b) k fun x => x.bare = e.bare :=
  h.whole b hs.complete hformed hlegible hs.stops
    (fun _ _ _ _ hcolon => absurd hcolon (ne_of_isFresh hs.fresh rfl)) hn

/-! ## Variables -/

theorem declKind_keyword (kind : DeclKind) : declKind? (.keyword kind.keyword) = some kind := by
  cases kind <;> rfl

/-- A variable without the end of its declaration. -/
theorem reads_varDecl (h : R.Back n) (hc : c.Complete) {d : VarDecl} (b : Bool)
    (hformed : d.Formed c.site) (hlegible : d.Legible k) (hstops : Stops assignmentLevel k)
    (hcolon : (firstOf k).lexeme ≠ .mark .colon) (hn : 4 * (d.shapes b ++ k).length ≤ n) :
    (varDecl R d.kind).Reads c (d.shapes b) k fun x => x.bare = d.bare := by
  obtain ⟨pos, kind, name, value⟩ := d
  rw [VarDecl.Formed] at hformed
  rw [VarDecl.Legible] at hlegible
  obtain ⟨hname, hconstant, hvalue⟩ := hformed
  have hname := Lexer.wordLexeme_name hname
  unfold varDecl initializer
  cases value with
  | none =>
    have hkind : (kind = .constant) = False := eq_false fun h => by simpa using hconstant h
    rw [VarDecl.shapes] at hn ⊢
    refine Reads.advance_bind fun start _ => .expectName_bind hc hname ?_
    refine annotation_bind hc hcolon ?_
    rw [bind_assoc]
    refine .acceptMark_miss hc (isMark_of_pull hstops fun _ => Nat.le_refl _) ?_
    simp only [Bool.false_eq_true, if_false, pure_bind, hkind, decide_false, Bool.false_and]
    exact .pure rfl
  | some e =>
    rw [VarDecl.shapes, Expr.level_lt_assignment, parens, if_neg Bool.false_ne_true] at hn ⊢
    refine Reads.advance_bind fun start _ => .expectName_bind hc hname ?_
    refine annotation_bind hc (by simp) ?_
    rw [bind_assoc]
    refine .acceptMark_hit hc ?_
    simp only [if_true, map_eq_pure_bind, bind_assoc, pure_bind]
    refine .bind_all (h.whole false hc hvalue hlegible hstops
      (fun _ _ _ _ h => absurd h hcolon) ?_) fun x hx => ?_
    · simp only [List.cons_append, List.length_cons] at hn
      omega
    · simp only [Option.isNone_some, Bool.and_false, Bool.false_eq_true, if_false]
      exact .pure (by rw [VarDecl.bare, VarDecl.bare, bareOption, bareOption, hx])

/-! ## Functions -/

/-- What comes after the name of a function. -/
theorem reads_functionRest (h : R.Back n) (hc : c.Complete) {d : FunctionDecl} (pos : Position)
    (hformed : d.Formed c.site) (hlegible : d.Legible k)
    (hn : 4 * (d.restShapes ++ k).length ≤ n + 1) :
    (functionRest R pos d.name d.isAsync).Reads c d.restShapes k fun x => x.bare = d.bare := by
  obtain ⟨pos', name, ps, body, isAsync, generics⟩ := d
  rw [FunctionDecl.Formed] at hformed
  rw [FunctionDecl.Legible] at hlegible
  rw [FunctionDecl.restShapes] at hn ⊢
  refine functionTail_bind h hc hformed.2.1 hformed.2.2.1 hformed.2.2.2 hlegible.1 hlegible.2 hn
    fun ps' body' hps hbody => .pure ?_
  rw [FunctionDecl.bare, FunctionDecl.bare, hps, hbody]

/-- A function after its `async`. -/
theorem reads_functionDecl (h : R.Back n) (hc : c.Complete) {d : FunctionDecl} (b : Bool)
    (hname : isName d.name) (hformed : d.Formed c.site) (hlegible : d.Legible k)
    (hn : 4 * (d.restShapes ++ k).length ≤ n + 1) :
    (functionDecl R d.isAsync).Reads c
      (⟨.keyword .functionWord, b⟩ :: word d.name :: d.restShapes) k fun x => x.bare = d.bare :=
  .expectKeyword_bind hc fun start =>
    .expectName_bind hc (Lexer.wordLexeme_name hname)
      (reads_functionRest h hc start.pos hformed hlegible hn)

/-! ## Names of types -/

/-- A name with further names after points. -/
def dottedFrom (name : String) (parts : List (List Char)) : String :=
  parts.foldl (fun name w => name ++ "." ++ String.ofList w) name

theorem dottedFrom_eq (cs : List Char) (parts : List (List Char)) :
    dottedFrom (String.ofList cs) parts = String.ofList (['.'].intercalate (cs :: parts)) := by
  induction parts generalizing cs with
  | nil => simp [dottedFrom]
  | cons w r ih =>
    have hstep : String.ofList cs ++ "." ++ String.ofList w = String.ofList (cs ++ '.' :: w) := by
      simp [← String.toList_inj, String.toList_append]
    have := ih (cs ++ '.' :: w)
    rw [dottedFrom, List.foldl_cons, hstep]
    rw [dottedFrom] at this
    rw [this]
    cases r with
    | nil => simp
    | cons v r => simp

theorem separated_cons (m : Mark) (l : List Shape) (items : List (List Shape)) :
    separated m (l :: items) = l ++ items.flatMap (mark m :: ·) := by
  induction items generalizing l with
  | nil => simp [separated]
  | cons i r ih => simp [separated, ih]

/-- The names after the first one. -/
theorem reads_dottedTail (hc : c.Complete) (hdot : (firstOf k).lexeme ≠ .mark .dot)
    (parts : List (List Char)) {name : String} (hparts : ∀ w ∈ parts, isName (String.ofList w)) :
    (dottedTail name).Reads c (parts.flatMap fun w => [mark .dot, word (String.ofList w)]) k
      (· = dottedFrom name parts) := by
  induction parts generalizing name with
  | nil =>
    refine .loop_done (.atMark_bind hc false (isMark_false hdot) ?_)
    exact .pure ⟨_, rfl, rfl⟩
  | cons w r ih =>
    have hname := Lexer.wordLexeme_name (hparts w (List.mem_cons_self ..))
    rw [List.flatMap_cons]
    refine .loop_again (I := (· = name ++ "." ++ String.ofList w)) (by simp) ?_ fun s hs => ?_
    · refine .atMark_bind hc true rfl ?_
      simp only [if_true]
      refine .peekAt_bind hc fun t ht => ?_
      have hl : t.lexeme = Lexer.wordLexeme (String.ofList w).toList := congrArg Shape.lexeme ht
      rw [hl, hname]
      refine Reads.advance_bind fun _ _ => Reads.advance_bind fun _ _ => ?_
      exact .pure ⟨_, rfl, rfl⟩
    · subst hs
      exact ih fun v hv => hparts v (List.mem_cons_of_mem _ hv)

/-- A named type without arguments. -/
theorem reads_typeRef (hc : c.Complete) {name : String} (hname : isDotted name)
    (hdot : (firstOf k).lexeme ≠ .mark .dot) (hless : (firstOf k).lexeme ≠ .mark .less) :
    (typeRef R).Reads c (dotted name) k (· = name) := by
  unfold isDotted at hname
  rw [List.all_eq_true] at hname
  unfold dotted
  cases hsplit : name.toList.splitOn '.' with
  | nil => exact absurd hsplit (List.splitOn_ne_nil _ _)
  | cons w r =>
    rw [hsplit] at hname
    have hw := Lexer.wordLexeme_name (hname w (List.mem_cons_self ..))
    have hjoin : dottedFrom (String.ofList w) r = name := by
      rw [dottedFrom_eq, ← hsplit, List.intercalate_splitOn, String.ofList_toList]
    rw [List.map_cons, separated_cons, List.flatMap_map]
    refine .peek_bind hc fun t ht => ?_
    have hl : t.lexeme = Lexer.wordLexeme (String.ofList w).toList := congrArg Shape.lexeme ht
    rw [hl, hw]
    refine Reads.advance_bind fun _ _ => .bind_all
      (reads_dottedTail hc hdot r fun v hv => hname v (List.mem_cons_of_mem _ hv)) fun s hs => ?_
    refine .peek_bind hc fun u hu => ?_
    have hu : u.lexeme.isMark .less = false := by
      have : u.lexeme = (firstOf k).lexeme := congrArg Shape.lexeme hu
      rw [this]
      exact isMark_false hless
    rw [hu]
    exact .pure (hs.trans hjoin)

theorem dotted_ne_nil {name : String} : dotted name ≠ [] := by
  unfold dotted
  cases hsplit : name.toList.splitOn '.' with
  | nil => exact absurd hsplit (List.splitOn_ne_nil _ _)
  | cons w r => simp [separated_cons]

/-- The names of types after a keyword, before a brace. -/
theorem reads_typeRefsAfter (hc : c.Complete) {w : Keyword} {names : List String}
    (hnames : ∀ name ∈ names, isDotted name) (hk : firstOf k = mark .openBrace) :
    (typeRefsAfter R w).Reads c (typeRefsShapes w names) k (· = names) := by
  unfold typeRefsAfter
  cases names with
  | nil =>
    refine .acceptKeyword_miss hc (by simp [typeRefsShapes, hk, Lexeme.isKeyword]) ?_
    exact .pure rfl
  | cons x xs =>
    refine .acceptKeyword_hit hc ?_
    simp only [if_true]
    have hitems : Reads.Items (typeRef R) c dotted id id (x :: xs) k := by
      intro y post hsuffix _
      have hy := hnames y (hsuffix.subset (List.mem_cons_self ..))
      have hnext : (firstOf (afterItem (post.map dotted) k)).lexeme = .mark .comma ∨
          (firstOf (afterItem (post.map dotted) k)).lexeme = .mark .openBrace := by
        unfold afterItem
        split
        · exact .inr (by rw [hk]; rfl)
        · exact .inl rfl
      refine reads_typeRef hc hy ?_ ?_
      · obtain h | h := hnext <;> simp [h]
      · obtain h | h := hnext <;> simp [h]
    have hlist := Reads.sepBy hc x xs (fun y _ => dotted_ne_nil)
      (by simp [hk, Lexeme.isMark]) hitems
    simpa using hlist

/-- One type of types that a mark would join. -/
theorem reads_joined (hc : c.Complete) {m : Mark} {item : Parser Unit} {l : List Shape}
    (hm : (firstOf k).lexeme ≠ .mark m) (h : item.Reads c l k fun _ => True) :
    (joined m item).Reads c l k fun _ => True :=
  .loop_done (.bind_all h fun _ _ =>
    .acceptMark_miss hc (isMark_false hm) (.pure ⟨_, rfl, trivial⟩))

theorem dotted_any : dotted "any" = [word "any"] := by
  have hsplit : "any".toList.splitOn '.' = ["any".toList] := by decide
  rw [dotted, hsplit]
  rfl

/-- The type that every declared name stands for. -/
theorem reads_any (hc : c.Complete) (hstops : Stops assignmentLevel k)
    (hfresh : (firstOf k).lexeme.isFresh) :
    (Grammar.type R).Reads c [word "any"] k fun _ => True := by
  have hword : Lexer.wordLexeme "any".toList = .identifier "any" := rfl
  have hdotted : isDotted "any" := by decide
  have hstops' : Stops primaryLevel k := hstops.mono (by decide)
  refine .acceptMark_miss hc rfl (reads_joined hc (ne_of_stops hstops' fun _ => Nat.le_refl _)
    (reads_joined hc (ne_of_stops hstops' fun _ => Nat.le_refl _) ?_))
  refine .bind_all (P := fun _ => True) (.peek_bind hc fun t ht => ?_) fun _ _ => .loop_done ?_
  · have hl : t.lexeme = .identifier "any" := congrArg Shape.lexeme ht
    have hread := reads_typeRef (R := R) hc hdotted
      (ne_of_isFresh (m := .dot) hfresh rfl) (ne_of_isFresh (m := .less) hfresh rfl)
    rw [dotted_any] at hread
    rw [hl]
    exact .bind_all hread fun _ _ => .pure trivial
  · refine .peek_bind hc fun t ht => ?_
    split
    · rename_i hbracket
      refine .peekAt_bind hc fun u _ => ?_
      have hpull : t.shape.pull < assignmentLevel := by
        rw [ht]
        exact hstops
      have hb : t.afterBreak = true := afterBreak_of_pull hpull (m := .openBracket) (by decide)
        (lexeme_of_isMark hbracket)
      rw [hb]
      split
      · exact .pure ⟨_, rfl, trivial⟩
      · exact .pure ⟨_, rfl, trivial⟩
    · exact .pure ⟨_, rfl, trivial⟩

/-! ## Interfaces -/

theorem skipReadonly_bind (hc : c.Complete) {l : List Shape} {f : Unit → Parser β}
    (hnext : (firstOf ((l ++ k).drop 1)).lexeme.word? = none) (hf : (f ()).Reads c l k Q) :
    (skipReadonly >>= f).Reads c l k Q := by
  unfold skipReadonly
  rw [bind_assoc]
  refine .peek_bind hc fun t _ => ?_
  split
  · rw [bind_assoc]
    refine .peekAt_bind hc fun u hu => ?_
    have hl : u.lexeme.word? = none := by
      rw [← hnext]
      exact congrArg (fun s => s.lexeme.word?) hu
    rw [hl]
    exact hf
  · exact hf

theorem memberName_bind (hc : c.Complete) {s : Shape} {l : List Shape} {name : String}
    {f : String → Parser β} (hs : s.lexeme.word? = some name) (hf : (f name).Reads c l k Q) :
    (memberName >>= f).Reads c (s :: l) k Q := by
  unfold memberName
  rw [bind_assoc]
  refine .peek_bind hc fun t ht => ?_
  have hl : t.lexeme = s.lexeme := congrArg Shape.lexeme ht
  rw [hl]
  split
  · rename_i hstring
    simp [hstring, Lexeme.word?] at hs
  · exact .expectPropertyName_bind hc hs hf

/-- A member of an interface. -/
theorem reads_typeMember (h : R.Back n) (hc : c.Complete) {name : String}
    (hcolon : (firstOf k).lexeme ≠ .mark .colon)
    (hn : 4 * (memberShapes name ++ k).length ≤ n + 1) :
    (typeMember R).Reads c (memberShapes name) k (· = name) := by
  unfold typeMember
  refine skipReadonly_bind hc rfl (memberName_bind hc (Lexer.wordLexeme_word name) ?_)
  refine .acceptMark_miss hc rfl (.atMark_bind hc true rfl (.atMark_bind hc false rfl ?_))
  simp only [Bool.true_or, if_true]
  have hnone : TypeParams.Formed none := by simp [TypeParams.Formed]
  refine .bind_nil (reads_typeParams (k := mark .openParen :: mark .closeParen :: k) hc hnone
    (by simp)) fun _ _ => ?_
  have hparams : (params R).Reads c [mark .openParen, mark .closeParen] k fun _ => True := by
    have hnil : ParamsFormed [] c.site := trivial
    have hnil' : ParamsLegible [] (mark .closeParen :: k) := trivial
    refine (reads_params h hc false hnil hnil' ?_).mono fun _ _ => trivial
    simp only [memberShapes, List.cons_append, List.length_cons, List.nil_append] at hn
    simp only [commas, separated, paramShapes, List.cons_append, List.length_cons, List.nil_append]
    omega
  exact .bind_all hparams fun _ _ => annotation_bind hc hcolon (.pure rfl)

theorem memberEnd_bind (hc : c.Complete) {f : Unit → Parser β}
    (hfresh : (firstOf k).lexeme ≠ .mark .comma ∧ (firstOf k).lexeme ≠ .mark .semicolon)
    (hbreak : (firstOf k).lexeme.isMark .closeBrace ∨ (firstOf k).afterBreak)
    (hf : (f ()).Reads c [] k Q) : (memberEnd >>= f).Reads c [] k Q := by
  unfold memberEnd
  simp only [bind_assoc]
  refine .acceptMark_miss hc (isMark_false hfresh.1) ?_
  simp only [Bool.false_eq_true, if_false, bind_assoc]
  refine .acceptMark_miss hc (isMark_false hfresh.2) ?_
  simp only [Bool.false_eq_true, if_false, bind_assoc]
  refine .peek_bind hc fun t ht => ?_
  have hcond : (t.lexeme.isMark .closeBrace || t.afterBreak) = true := by
    have hl : t.lexeme = (firstOf k).lexeme := congrArg Shape.lexeme ht
    have hb : t.afterBreak = (firstOf k).afterBreak := congrArg Shape.afterBreak ht
    rw [hl, hb, Bool.or_eq_true]
    exact hbreak
  simp only [hcond, if_true]
  exact hf

end CoScript.Grammar
