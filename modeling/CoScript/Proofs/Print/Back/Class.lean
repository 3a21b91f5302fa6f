import CoScript.Proofs.Print.Back.Decl

/-!
# Interfaces, classes and imports that are read back

The members of an interface and of a class stand on lines of their own, so that each one ends where
the line does.

Results:
* `Grammar.reads_interfaceDecl`, `Grammar.reads_classDecl`, `Grammar.reads_importDecl`: each
  declaration is read back.
-/

namespace CoScript.Grammar

open CoScript.Parser Shape

variable {R : Rules} {n : ℕ} {c : Context} {k : List Shape} {β : Type} {Q : β → Prop}

/-! ## Interfaces -/

/-- What the members of an interface begin with, or what comes after them. -/
theorem firstOf_members (members : List String) (b : Bool) (k : List Shape) :
    (firstOf ((members.map memberShapes).flatten ++ ⟨.mark .closeBrace, b⟩ :: k) =
        ⟨.mark .closeBrace, b⟩ ∧ members = []) ∨
      ∃ m r, members = m :: r ∧
        firstOf ((members.map memberShapes).flatten ++ ⟨.mark .closeBrace, b⟩ :: k) =
          ⟨Lexer.wordLexeme m.toList, true⟩ := by
  cases members with
  | nil => exact .inl ⟨rfl, rfl⟩
  | cons m r => exact .inr ⟨m, r, rfl, rfl⟩

theorem wordLexeme_ne_mark (s : String) (m : Mark) : Lexer.wordLexeme s.toList ≠ .mark m := by
  intro h
  have := Lexer.wordLexeme_word s
  rw [h] at this
  cases this

/-- The members of an interface before the closing brace. -/
theorem reads_members (h : R.Back n) (hc : c.Complete) (b : Bool) (members acc : List String)
    (hn : 4 * ((members.map memberShapes).flatten ++ ⟨.mark .closeBrace, b⟩ :: k).length ≤ n + 1) :
    (loop (fun names : List String => do
      if ← atMark .closeBrace then return Turn.done names
      let name ← typeMember R
      memberEnd
      return .again (names ++ [name])) acc).Reads c (members.map memberShapes).flatten
        (⟨.mark .closeBrace, b⟩ :: k) (· = acc ++ members) := by
  induction members generalizing acc with
  | nil =>
    refine .loop_done (.atMark_bind hc true rfl ?_)
    exact .pure ⟨_, rfl, by rw [List.append_nil]⟩
  | cons m r ih =>
    rw [List.map_cons, List.flatten_cons, List.append_assoc] at hn
    rw [List.map_cons, List.flatten_cons]
    have hnext := firstOf_members r b k
    have hcolon : (firstOf ((r.map memberShapes).flatten ++ ⟨.mark .closeBrace, b⟩ :: k)).lexeme ≠
        .mark .colon := by
      obtain ⟨hnext, -⟩ | ⟨m', r', -, hnext⟩ := hnext
      · simp [hnext]
      · rw [hnext]
        exact wordLexeme_ne_mark m' _
    refine .loop_again (I := (· = acc ++ [m])) (by simp [memberShapes]) ?_ fun names hnames => ?_
    · refine .atMark_bind hc false (isMark_of_word (Lexer.wordLexeme_word m) _) ?_
      simp only [Bool.false_eq_true, if_false]
      refine .bind_all (reads_typeMember h hc hcolon hn) fun name hname => ?_
      refine memberEnd_bind hc ?_ ?_ (.pure ⟨_, rfl, by rw [hname]⟩)
      · obtain ⟨hnext, -⟩ | ⟨m', r', -, hnext⟩ := hnext
        · simp [hnext]
        · rw [hnext]
          exact ⟨wordLexeme_ne_mark m' _, wordLexeme_ne_mark m' _⟩
      · obtain ⟨hnext, -⟩ | ⟨m', r', -, hnext⟩ := hnext
        · exact .inl (by rw [hnext]; rfl)
        · exact .inr (by rw [hnext])
    · subst hnames
      have hrest := ih (acc ++ [m]) (by
        rw [List.length_append] at hn
        omega)
      rwa [List.append_assoc] at hrest

/-- An object type whose members are methods without parameters. -/
theorem reads_objectType (h : R.Back n) (hc : c.Complete) (members : List String) (b : Bool)
    (hn : 4 * (braced (members.map memberShapes) b ++ k).length ≤ n + 1) :
    (objectType R).Reads c (braced (members.map memberShapes) b) k (· = members) := by
  unfold braced at hn ⊢
  refine .expectMark_bind hc fun _ => ?_
  refine .bind (reads_members (k := k) h hc _ members [] ?_) fun names hnames =>
    .expectMark_bind hc fun _ => .pure hnames
  simp only [List.cons_append, List.length_cons, List.length_append, List.length_nil] at hn ⊢
  omega

/-- What comes after the generic parameters of an interface or a class. -/
theorem firstOf_typeRefs (w : Keyword) (names : List String) {l : List Shape}
    (hl : firstOf l = mark .openBrace) :
    (firstOf (typeRefsShapes w names ++ l)).lexeme = .keyword w ∨
      (firstOf (typeRefsShapes w names ++ l)).lexeme = .mark .openBrace := by
  unfold typeRefsShapes
  split
  · exact .inr (by rw [List.nil_append, hl]; rfl)
  · exact .inl rfl

/-- An interface. -/
theorem reads_interfaceDecl (h : R.Back n) (hc : c.Complete) {d : InterfaceDecl} (b : Bool)
    (hformed : d.Formed) (hn : 4 * (d.shapes b ++ k).length ≤ n + 1) :
    (interfaceDecl R).Reads c (d.shapes b) k fun x => x.bare = d.bare := by
  obtain ⟨hname, hgenerics, hbases⟩ := hformed
  have hshapes : d.shapes b = ⟨.keyword .interfaceWord, b⟩ :: word d.name ::
    (generics d.typeParams ++
      (typeRefsShapes .extendsWord d.bases ++ braced (d.members.map memberShapes) false)) := by
    simp [InterfaceDecl.shapes]
  rw [hshapes] at hn ⊢
  simp only [List.cons_append, List.append_assoc, List.length_cons, List.length_append] at hn
  refine .expectKeyword_bind hc fun start => .expectName_bind hc (Lexer.wordLexeme_name hname) ?_
  refine .bind (reads_typeParams hc hgenerics ?_) ?_
  · rw [List.append_assoc]
    obtain hfirst | hfirst := firstOf_typeRefs .extendsWord d.bases
      (l := braced (d.members.map memberShapes) false ++ k) rfl
    · simp [hfirst]
    · simp [hfirst]
  rintro _ rfl
  refine .bind (reads_typeRefsAfter hc hbases rfl) ?_
  rintro _ rfl
  refine .bind_all (reads_objectType h hc d.members false ?_) ?_
  · simp only [List.length_append]
    omega
  rintro _ rfl
  exact .pure rfl

/-! ## Classes -/

/-- No word follows the next lexeme on its line. -/
def NoWordAfter (l : List Shape) : Prop :=
  (firstOf (l.drop 1)).afterBreak ∨ (firstOf (l.drop 1)).lexeme.word? = none

theorem wordFollows_bind (hc : c.Complete) {l : List Shape} {f : Bool → Parser β}
    (hnext : NoWordAfter (l ++ k)) (hf : (f false).Reads c l k Q) :
    (wordFollows >>= f).Reads c l k Q := by
  unfold wordFollows
  rw [bind_assoc]
  refine .peekAt_bind hc fun t ht => ?_
  have hcond : (!t.afterBreak && t.lexeme.word?.isSome) = false := by
    have hl : t.lexeme = _ := congrArg Shape.lexeme ht
    have hb : t.afterBreak = _ := congrArg Shape.afterBreak ht
    obtain hnext | hnext := hnext
    · rw [hb, hnext]
      rfl
    · rw [hl, hnext, Option.isSome_none, Bool.and_false]
  rw [pure_bind, hcond]
  exact hf

theorem skipModifiers_bind (hc : c.Complete) {l : List Shape} {f : Unit → Parser β}
    (hnext : (∃ w, (firstOf (l ++ k)).lexeme = .keyword w) ∨ NoWordAfter (l ++ k))
    (hf : (f ()).Reads c l k Q) : (skipModifiers >>= f).Reads c l k Q := by
  refine .bind_nil (P := fun _ => True) (.loop_done (.peek_bind hc fun t ht => ?_)) fun _ _ => hf
  have hl : t.lexeme = (firstOf (l ++ k)).lexeme := congrArg Shape.lexeme ht
  rw [hl]
  split
  · rename_i hname
    split
    · refine wordFollows_bind hc (l := []) ?_ (.pure ⟨_, rfl, trivial⟩)
      obtain ⟨w, hw⟩ | hnext := hnext
      · rw [hw] at hname
        cases hname
      · exact hnext
    · exact .pure ⟨_, rfl, trivial⟩
  · exact .pure ⟨_, rfl, trivial⟩

/-- No `async` stands before a name. -/
theorem asyncModifier_miss (hc : c.Complete) {l : List Shape} {f : Bool → Parser β}
    (hnext : NoWordAfter (l ++ k)) (hf : (f false).Reads c l k Q) :
    (asyncModifier >>= f).Reads c l k Q := by
  unfold asyncModifier
  rw [bind_assoc]
  refine .atKeyword_bind hc _ rfl ?_
  split
  · rw [bind_assoc]
    exact wordFollows_bind hc hnext hf
  · exact hf

/-- An `async` stands before a name on its line. -/
theorem asyncModifier_hit (hc : c.Complete) {b : Bool} {name : String} {l : List Shape}
    {f : Bool → Parser β} (hf : (f true).Reads c (word name :: l) k Q) :
    (asyncModifier >>= f).Reads c (⟨.keyword .asyncWord, b⟩ :: word name :: l) k Q := by
  unfold asyncModifier wordFollows
  rw [bind_assoc]
  refine .atKeyword_bind hc true rfl ?_
  simp only [if_true, bind_assoc, pure_bind]
  refine .peekAt_bind hc fun t ht => ?_
  have hcond : (!t.afterBreak && t.lexeme.word?.isSome) = true := by
    have hl : t.lexeme = Lexer.wordLexeme name.toList := congrArg Shape.lexeme ht
    have hb : t.afterBreak = false := congrArg Shape.afterBreak ht
    rw [hl, hb, Lexer.wordLexeme_word]
    rfl
  simp only [hcond, if_true, bind_assoc, pure_bind]
  exact Reads.advance_bind fun _ _ => hf

/-- A word is written without quotes. -/
theorem isPlainKey_of_isWord {s : String} (h : isWord s) : isPlainKey s := by
  unfold isWord at h
  unfold isPlainKey
  rw [Bool.and_eq_true] at h
  cases hs : s.toList with
  | nil => simp [hs] at h
  | cons x r =>
    rw [hs] at h
    have hlast : ((x :: r).getLast? = some '\n') = False := by
      refine eq_false fun hlast => ?_
      have hmem := List.mem_of_getLast? hlast
      exact Bool.false_ne_true (List.all_eq_true.mp h.2 _ hmem)
    simp only [hlast, if_false]
    simp only [List.head?_cons, Option.any_some, List.all_cons, Bool.and_eq_true] at h
    rw [h.1, h.2.2]
    rfl

/-- What comes after a member of a class: another one on a line of its own, or the closing brace. -/
def EndsMember (k : List Shape) : Prop :=
  (firstOf k).lexeme = .mark .closeBrace ∨ (firstOf k).afterBreak ∧ (firstOf k).lexeme.word?.isSome

namespace EndsMember

theorem ne_mark (h : EndsMember k) {m : Mark} (hm : m ≠ .closeBrace) :
    (firstOf k).lexeme ≠ .mark m := by
  intro hk
  obtain h | ⟨-, h⟩ := h
  · rw [hk] at h
    exact hm (Lexeme.mark.inj h)
  · rw [hk] at h
    cases h

theorem stops (h : EndsMember k) : Stops assignmentLevel k := by
  unfold Stops Shape.pull
  obtain h | ⟨hb, h⟩ := h
  · rw [h]
    exact Nat.zero_lt_one
  · rw [hb]
    cases hl : (firstOf k).lexeme with
    | keyword w => cases w <;> exact Nat.zero_lt_one
    | identifier name => exact Nat.zero_lt_one
    | _ => simp [hl, Lexeme.word?] at h

theorem ends (h : EndsMember k) :
    (firstOf k).lexeme.isMark .closeBrace ∨ (firstOf k).afterBreak := by
  obtain h | ⟨hb, -⟩ := h
  · exact .inl (by rw [h]; rfl)
  · exact .inr hb

theorem noWordAfter (h : EndsMember k) (s : Shape) : NoWordAfter (s :: k) := by
  obtain h | ⟨hb, -⟩ := h
  · exact .inr (by rw [List.drop_one, List.tail_cons, h]; rfl)
  · exact .inl hb

end EndsMember

/-- A member of a class without positions. -/
def bareMember : FieldDecl ⊕ FunctionDecl → FieldDecl ⊕ FunctionDecl :=
  Sum.map FieldDecl.bare FunctionDecl.bare

/-- A field of a class. -/
theorem reads_field (h : R.Back n) (hc : c.Complete) {d : FieldDecl} (hformed : d.Formed c.site)
    (hlegible : d.Legible k) (hk : EndsMember k) (hn : 4 * (d.shapes ++ k).length ≤ n + 1) :
    (classMember R).Reads c d.shapes k fun x => bareMember x = .inl d.bare := by
  obtain ⟨pos, name, value⟩ := d
  rw [FieldDecl.Formed] at hformed
  rw [FieldDecl.Legible] at hlegible
  have hkey : (⟨(keyShape name).lexeme, true⟩ : Shape) = ⟨Lexer.wordLexeme name.toList, true⟩ := by
    rw [keyShape, if_pos (isPlainKey_of_isWord hformed.1)]
    rfl
  have hword := Lexer.wordLexeme_word name
  unfold classMember initializer
  cases value with
  | none =>
    rw [FieldDecl.shapes, hkey] at hn ⊢
    have hnext := hk.noWordAfter ⟨Lexer.wordLexeme name.toList, true⟩
    refine skipModifiers_bind hc (.inr hnext) (asyncModifier_miss hc hnext ?_)
    refine .peek_bind hc fun start _ => .expectPropertyName_bind hc hword ?_
    refine .atMark_bind hc false (isMark_false (hk.ne_mark (by decide))) ?_
    refine .atMark_bind hc false (isMark_false (hk.ne_mark (by decide))) ?_
    simp only [Bool.or_self, Bool.false_eq_true, if_false]
    refine .acceptMark_miss hc (isMark_false (hk.ne_mark (by decide))) ?_
    refine annotation_bind hc (hk.ne_mark (by decide)) ?_
    rw [bind_assoc]
    refine .acceptMark_miss hc (isMark_false (hk.ne_mark (by decide))) ?_
    simp only [Bool.false_eq_true, if_false, pure_bind]
    exact .endStatement_bind hc (isMark_false (hk.ne_mark (by decide))) hk.ends
      (.pure rfl)
  | some e =>
    rw [FieldDecl.shapes, hkey, Expr.level_lt_assignment] at hn ⊢
    simp only [parens, Bool.false_eq_true, if_false] at hn ⊢
    have hnext : NoWordAfter (⟨Lexer.wordLexeme name.toList, true⟩ :: mark .assign ::
      e.shapes false ++ k) := .inr rfl
    refine skipModifiers_bind hc (.inr hnext) (asyncModifier_miss hc hnext ?_)
    refine .peek_bind hc fun start _ => .expectPropertyName_bind hc hword ?_
    refine .atMark_bind hc false rfl (.atMark_bind hc false rfl ?_)
    simp only [Bool.or_self, Bool.false_eq_true, if_false]
    refine .acceptMark_miss hc rfl (annotation_bind hc (by simp) ?_)
    rw [bind_assoc]
    refine .acceptMark_hit hc ?_
    simp only [if_true, map_eq_pure_bind, bind_assoc, pure_bind]
    refine .bind_all (h.whole false hc hformed.2 hlegible hk.stops
      (fun _ _ _ _ hcolon => absurd hcolon (hk.ne_mark (by decide))) ?_) fun x hx => ?_
    · simp only [List.cons_append, List.length_cons] at hn
      omega
    · refine .endStatement_bind hc (isMark_false (hk.ne_mark (by decide))) hk.ends (.pure ?_)
      rw [bareMember, Sum.map_inl, FieldDecl.bare, FieldDecl.bare, bareOption, bareOption, hx]

/-- What the parameters of a method begin with. -/
theorem firstOf_rest (d : FunctionDecl) (l : List Shape) :
    firstOf (d.restShapes ++ l) = mark .openParen ∨ firstOf (d.restShapes ++ l) = mark .less := by
  obtain ⟨_, _, _, _, _, names⟩ := d
  rw [FunctionDecl.restShapes, List.append_assoc, List.append_assoc]
  exact firstOf_generics names _

/-- A method of a class. -/
theorem reads_method (h : R.Back n) (hc : c.Complete) {d : FunctionDecl} (hformed : d.Formed c.site)
    (hlegible : d.Legible k)
    (hn : 4 * (afterAsync d.isAsync (Lexer.wordLexeme d.name.toList) true ++ d.restShapes ++
      k).length ≤ n + 1) :
    (classMember R).Reads c (afterAsync d.isAsync (Lexer.wordLexeme d.name.toList) true ++
      d.restShapes) k fun x => bareMember x = .inr d.bare := by
  have hrest (start : Token) (hn : 4 * (d.restShapes ++ k).length ≤ n + 1) : Reads (do
      if (← atMark .openParen) || (← atMark .less) then
        return Sum.inr (← functionRest R start.pos d.name d.isAsync)
      else if d.isAsync then reject (.mark .openParen)
      else
        let _ ← acceptMark .question
        annotation R
        let value ← initializer R
        endStatement
        return Sum.inl (⟨start.pos, d.name, value⟩ : FieldDecl)) c d.restShapes k
        fun x => bareMember x = .inr d.bare := by
    have hread := reads_functionRest h hc start.pos hformed hlegible hn
    refine .atMark_bind hc _ rfl (.atMark_bind hc _ rfl ?_)
    have hfirst : ((firstOf (d.restShapes ++ k)).lexeme.isMark .openParen ||
        (firstOf (d.restShapes ++ k)).lexeme.isMark .less) = true := by
      obtain hfirst | hfirst := firstOf_rest d k
      · rw [hfirst]
        rfl
      · rw [hfirst]
        rfl
    simp only [hfirst, if_true]
    exact .bind_all hread fun y hy => .pure (congrArg Sum.inr hy)
  have hword := Lexer.wordLexeme_word d.name
  unfold classMember
  cases hasync : d.isAsync with
  | true =>
    rw [hasync] at hn hrest
    simp only [afterAsync, if_true, List.cons_append, List.nil_append, List.length_cons] at hn ⊢
    refine skipModifiers_bind hc (.inl ⟨_, rfl⟩) (asyncModifier_hit hc ?_)
    refine .peek_bind hc fun start _ => .expectPropertyName_bind hc hword ?_
    exact hrest start (by omega)
  | false =>
    rw [hasync] at hn hrest
    simp only [afterAsync, Bool.false_eq_true, if_false, List.cons_append, List.nil_append,
      List.length_cons] at hn ⊢
    have hnext : NoWordAfter (⟨Lexer.wordLexeme d.name.toList, true⟩ :: d.restShapes ++ k) := by
      refine .inr ?_
      have hdrop : (⟨Lexer.wordLexeme d.name.toList, true⟩ :: d.restShapes ++ k).drop 1 =
        d.restShapes ++ k := rfl
      rw [hdrop]
      obtain hfirst | hfirst := firstOf_rest d k
      · rw [hfirst]
        rfl
      · rw [hfirst]
        rfl
    refine skipModifiers_bind hc (.inr hnext) (asyncModifier_miss hc hnext ?_)
    refine .peek_bind hc fun start _ => .expectPropertyName_bind hc hword ?_
    exact hrest start (by omega)

theorem memberTurn_done (hc : c.Complete) (b : Bool) (acc : List (FieldDecl ⊕ FunctionDecl)) :
    (memberTurn R acc).Reads c [⟨.mark .closeBrace, b⟩] k (· = .done acc) := by
  refine .acceptMark_hit hc ?_
  simp only [if_true]
  exact .pure rfl

theorem memberTurn_again (hc : c.Complete) {l : List Shape} {P : FieldDecl ⊕ FunctionDecl → Prop}
    (hfirst : (firstOf (l ++ k)).lexeme.word?.isSome) (hread : (classMember R).Reads c l k P)
    (acc : List (FieldDecl ⊕ FunctionDecl)) :
    (memberTurn R acc).Reads c l k fun turn => ∃ x, P x ∧ turn = .again (acc ++ [x]) := by
  obtain ⟨s, hs⟩ := Option.isSome_iff_exists.mp hfirst
  refine .acceptMark_miss hc (isMark_of_word hs _) ?_
  simp only [Bool.false_eq_true, if_false]
  refine .peek_bind hc fun t ht => ?_
  have hend : t.lexeme.isEnd = false := by
    have hl : t.lexeme = (firstOf (l ++ k)).lexeme := congrArg Shape.lexeme ht
    rw [hl]
    cases hk : (firstOf (l ++ k)).lexeme with
    | endOfInput => simp [hk, Lexeme.word?] at hs
    | _ => rfl
  simp only [hend, Bool.false_eq_true, if_false]
  refine .acceptMark_miss hc (isMark_of_word hs _) ?_
  simp only [Bool.false_eq_true, if_false]
  exact .bind_all hread fun x hx => .pure ⟨x, hx, rfl⟩

/-- A member and the loop over the others. -/
theorem loop_member (hc : c.Complete) {l r : List Shape} {m : FieldDecl ⊕ FunctionDecl}
    {P : List (FieldDecl ⊕ FunctionDecl) → Prop} {acc : List (FieldDecl ⊕ FunctionDecl)}
    (hl : l ≠ [])
    (hfirst : (firstOf (l ++ (r ++ k))).lexeme.word?.isSome)
    (hread : (classMember R).Reads c l (r ++ k) fun x => bareMember x = m)
    (hloop : ∀ x, bareMember x = m → (loop (memberTurn R) (acc ++ [x])).Reads c r k P) :
    (loop (memberTurn R) acc).Reads c (l ++ r) k P := by
  refine .loop_again (I := fun xs => ∃ x, bareMember x = m ∧ xs = acc ++ [x]) hl
    ((memberTurn_again hc hfirst hread acc).mono ?_) ?_
  · rintro _ ⟨x, hx, rfl⟩
    exact ⟨_, rfl, x, hx, rfl⟩
  · rintro _ ⟨x, hx, rfl⟩
    exact hloop x hx

/-- What a method begins with. -/
theorem method_word (d : FunctionDecl) (l : List Shape) :
    (firstOf (afterAsync d.isAsync (Lexer.wordLexeme d.name.toList) true ++ d.restShapes ++
      l)).afterBreak ∧
    (firstOf (afterAsync d.isAsync (Lexer.wordLexeme d.name.toList) true ++ d.restShapes ++
      l)).lexeme.word?.isSome := by
  cases hasync : d.isAsync with
  | true => exact ⟨rfl, rfl⟩
  | false => exact ⟨rfl, by simp [afterAsync]⟩

theorem afterAsync_ne_nil (isAsync : Bool) (x : Lexeme) (b : Bool) (l : List Shape) :
    afterAsync isAsync x b ++ l ≠ [] := by
  cases isAsync <;> simp [afterAsync]

/-- Methods and the closing brace. -/
theorem reads_methods (h : R.Back n) (hc : c.Complete) (b : Bool) (ds : List FunctionDecl)
    (acc : List (FieldDecl ⊕ FunctionDecl)) (hformed : FunctionDeclsFormed ds c.site)
    (hlegible : MethodsLegible ds (⟨.mark .closeBrace, b⟩ :: k))
    (hn : 4 * ((methodShapes ds).flatten ++ ⟨.mark .closeBrace, b⟩ :: k).length ≤ n + 1) :
    (loop (memberTurn R) acc).Reads c ((methodShapes ds).flatten ++ [⟨.mark .closeBrace, b⟩]) k
      fun xs => xs.map bareMember = acc.map bareMember ++ ds.map (Sum.inr ∘ FunctionDecl.bare) := by
  induction ds generalizing acc with
  | nil =>
    refine .loop_done ((memberTurn_done hc b acc).mono ?_)
    rintro _ rfl
    exact ⟨acc, rfl, by simp⟩
  | cons d r ih =>
    rw [FunctionDeclsFormed] at hformed
    rw [MethodsLegible] at hlegible
    rw [methodShapes, List.flatten_cons, List.append_assoc] at hn ⊢
    have hbrace : (methodShapes r).flatten ++ [⟨.mark .closeBrace, b⟩] ++ k =
        (methodShapes r).flatten ++ ⟨.mark .closeBrace, b⟩ :: k := by simp
    refine loop_member (m := .inr d.bare) hc (afterAsync_ne_nil _ _ _ _) (method_word d _).2 ?_
      fun x hx => ?_
    · rw [hbrace]
      exact reads_method h hc hformed.1 hlegible.1 hn
    · refine (ih _ hformed.2 hlegible.2 ?_).mono fun xs hxs => ?_
      · rw [List.length_append] at hn
        omega
      · simp [hxs, hx]

/-- What comes after a field. -/
theorem endsMember_methods (b : Bool) (ds : List FunctionDecl) (k : List Shape) :
    EndsMember ((methodShapes ds).flatten ++ ⟨.mark .closeBrace, b⟩ :: k) := by
  cases ds with
  | nil => exact .inl rfl
  | cons d r =>
    rw [methodShapes, List.flatten_cons, List.append_assoc]
    exact .inr (method_word d _)

/-- What a field begins with. -/
theorem field_word {d : FieldDecl} (h : isWord d.name) (l : List Shape) :
    (firstOf (d.shapes ++ l)).afterBreak ∧ (firstOf (d.shapes ++ l)).lexeme.word?.isSome := by
  obtain ⟨pos, name, value⟩ := d
  have hkey : keyShape name = word name := by rw [keyShape, if_pos (isPlainKey_of_isWord h)]
  have hword : (keyShape name).lexeme.word?.isSome := by
    rw [hkey, word, Lexer.wordLexeme_word]
    rfl
  cases value with
  | none => exact ⟨rfl, hword⟩
  | some e => exact ⟨rfl, hword⟩

theorem endsMember_fields {fs : List FieldDecl} {site : Site} (hformed : FieldsFormed fs site)
    {l : List Shape} (hl : EndsMember l) : EndsMember ((fieldShapes fs).flatten ++ l) := by
  cases fs with
  | nil => exact hl
  | cons d r =>
    obtain ⟨pos, name, value⟩ := d
    rw [FieldsFormed, FieldDecl.Formed] at hformed
    rw [fieldShapes, List.flatten_cons, List.append_assoc]
    exact .inr (field_word (d := ⟨pos, name, value⟩) hformed.1.1 _)

/-- Fields, methods and the closing brace. -/
theorem reads_fields (h : R.Back n) (hc : c.Complete) (b : Bool) (fs : List FieldDecl)
    (ds : List FunctionDecl) (acc : List (FieldDecl ⊕ FunctionDecl))
    (hfields : FieldsFormed fs c.site) (hmethods : FunctionDeclsFormed ds c.site)
    (hlegible : FieldsLegible fs ((methodShapes ds).flatten ++ ⟨.mark .closeBrace, b⟩ :: k))
    (hlegible' : MethodsLegible ds (⟨.mark .closeBrace, b⟩ :: k))
    (hn : 4 * ((fieldShapes fs).flatten ++ ((methodShapes ds).flatten ++
      ⟨.mark .closeBrace, b⟩ :: k)).length ≤ n + 1) :
    (loop (memberTurn R) acc).Reads c
      ((fieldShapes fs).flatten ++ ((methodShapes ds).flatten ++ [⟨.mark .closeBrace, b⟩])) k
      fun xs => xs.map bareMember = acc.map bareMember ++ fs.map (Sum.inl ∘ FieldDecl.bare) ++
        ds.map (Sum.inr ∘ FunctionDecl.bare) := by
  induction fs generalizing acc with
  | nil =>
    refine (reads_methods h hc b ds acc hmethods hlegible' ?_).mono fun xs hxs => by simp [hxs]
    simpa [fieldShapes] using hn
  | cons d r ih =>
    rw [FieldsFormed] at hfields
    rw [FieldsLegible] at hlegible
    rw [fieldShapes, List.flatten_cons, List.append_assoc] at hn ⊢
    have hname : isWord d.name := by
      obtain ⟨pos, name, value⟩ := d
      rw [FieldDecl.Formed] at hfields
      exact hfields.1.1
    have hbrace : (fieldShapes r).flatten ++
      ((methodShapes ds).flatten ++ [⟨.mark .closeBrace, b⟩]) ++
        k = (fieldShapes r).flatten ++
          ((methodShapes ds).flatten ++ ⟨.mark .closeBrace, b⟩ :: k) := by
      simp
    refine loop_member (m := .inl d.bare) hc ?_ (field_word hname _).2 ?_ fun x hx => ?_
    · obtain ⟨pos, name, value⟩ := d
      cases value <;> simp [FieldDecl.shapes]
    · rw [hbrace]
      exact reads_field h hc hfields.1 hlegible.1
        (endsMember_fields hfields.2 (endsMember_methods b ds k)) hn
    · refine (ih _ hfields.2 hlegible.2 ?_).mono fun xs hxs => ?_
      · rw [List.length_append] at hn
        omega
      · simp [hxs, hx]

/-- The members of a class, with their braces. -/
theorem reads_classBody (h : R.Back n) (hc : c.Complete) {fs : List FieldDecl}
    {ds : List FunctionDecl} (hfields : FieldsFormed fs c.site)
    (hmethods : FunctionDeclsFormed ds c.site)
    (hlegible : FieldsLegible fs ((methodShapes ds).flatten ++ ⟨.mark .closeBrace, true⟩ :: k))
    (hlegible' : MethodsLegible ds (⟨.mark .closeBrace, true⟩ :: k))
    (hn : 4 * (braced (fieldShapes fs ++ methodShapes ds) false ++ k).length ≤ n + 1) :
    (classBody R).Reads c (braced (fieldShapes fs ++ methodShapes ds) false) k
      fun xs => xs.map bareMember = fs.map (Sum.inl ∘ FieldDecl.bare) ++
        ds.map (Sum.inr ∘ FunctionDecl.bare) := by
  have hbraced : braced (fieldShapes fs ++ methodShapes ds) false = mark .openBrace ::
      ((fieldShapes fs).flatten ++ ((methodShapes ds).flatten ++
        [⟨.mark .closeBrace, !(fieldShapes fs ++ methodShapes ds).isEmpty⟩])) := by
    simp [braced, mark]
  rw [hbraced] at hn ⊢
  rw [classBody_eq]
  refine .expectMark_bind hc fun _ => ?_
  have hn : 4 * ((fieldShapes fs).flatten ++ ((methodShapes ds).flatten ++
      ⟨.mark .closeBrace, !(fieldShapes fs ++ methodShapes ds).isEmpty⟩ :: k)).length ≤ n + 1 := by
    simp only [List.length_append, List.length_cons, List.length_nil] at hn ⊢
    omega
  cases hempty : (fieldShapes fs ++ methodShapes ds).isEmpty with
  | false =>
    rw [hempty] at hn
    exact reads_fields h hc true fs ds [] hfields hmethods hlegible hlegible' hn
  | true =>
    rw [hempty] at hn
    have hnil := List.append_eq_nil_iff.mp (List.isEmpty_iff.mp hempty)
    cases fs with
    | cons d r => simp [fieldShapes] at hnil
    | nil =>
      cases ds with
      | cons d r => simp [methodShapes] at hnil
      | nil => exact reads_fields h hc false [] [] [] hfields hmethods trivial trivial hn

/-- The class that a class extends. -/
theorem reads_superclass (hc : c.Complete) {base : Option String} (hbase : ∀ x ∈ base, isName x)
    (hextends : (firstOf k).lexeme ≠ .keyword .extendsWord)
    (hless : (firstOf k).lexeme ≠ .mark .less) :
    (superclass R).Reads c (superclassShapes base) k (· = base) := by
  unfold superclass
  cases base with
  | none =>
    refine .acceptKeyword_miss hc (isKeyword_false hextends) ?_
    exact .pure rfl
  | some name =>
    refine .acceptKeyword_hit hc ?_
    simp only [if_true]
    refine .expectName_bind hc (Lexer.wordLexeme_name (hbase name rfl)) ?_
    refine .atMark_bind hc false (isMark_false hless) ?_
    exact .pure rfl

/-- The fields among the members of a class. -/
theorem bareFields_of_members {xs : List (FieldDecl ⊕ FunctionDecl)} {fs : List FieldDecl}
    {ds : List FunctionDecl} (h : xs.map bareMember =
      fs.map (Sum.inl ∘ FieldDecl.bare) ++ ds.map (Sum.inr ∘ FunctionDecl.bare)) :
    bareFields (xs.filterMap (·.getLeft?)) = bareFields fs := by
  have hleft : (xs.filterMap (·.getLeft?)).map FieldDecl.bare =
      (xs.map bareMember).filterMap (·.getLeft?) := by
    rw [List.map_filterMap, List.filterMap_map]
    congr 1
    funext x
    cases x <;> rfl
  rw [bareFields_eq, bareFields_eq, hleft, h]
  simp [List.filterMap_map, Function.comp_def]

/-- The methods among the members of a class. -/
theorem bareFunctions_of_members {xs : List (FieldDecl ⊕ FunctionDecl)} {fs : List FieldDecl}
    {ds : List FunctionDecl} (h : xs.map bareMember =
      fs.map (Sum.inl ∘ FieldDecl.bare) ++ ds.map (Sum.inr ∘ FunctionDecl.bare)) :
    bareFunctions (xs.filterMap (·.getRight?)) = bareFunctions ds := by
  have hright : (xs.filterMap (·.getRight?)).map FunctionDecl.bare =
      (xs.map bareMember).filterMap (·.getRight?) := by
    rw [List.map_filterMap, List.filterMap_map]
    congr 1
    funext x
    cases x <;> rfl
  rw [bareFunctions_eq, bareFunctions_eq, hright, h]
  simp [List.filterMap_map, Function.comp_def]

/-- A class. -/
theorem reads_classDecl (h : R.Back n) (hc : c.Complete) {d : ClassDecl} (b : Bool)
    (hformed : d.Formed c.site) (hlegible : d.Legible k)
    (hn : 4 * (d.shapes b ++ k).length ≤ n + 1) :
    (classDecl R).Reads c (d.shapes b) k fun x => x.bare = d.bare := by
  obtain ⟨pos, name, base, interfaces, fields, methods, names⟩ := d
  rw [ClassDecl.Formed] at hformed
  rw [ClassDecl.Legible] at hlegible
  obtain ⟨hname, hbase, hinterfaces, hnames, hfields, hmethods⟩ := hformed
  have hshapes : (⟨pos, name, base, interfaces, fields, methods, names⟩ : ClassDecl).shapes b =
      ⟨.keyword .classWord, b⟩ :: word name :: (generics names ++ (superclassShapes base ++
        (typeRefsShapes .implementsWord interfaces ++
          braced (fieldShapes fields ++ methodShapes methods) false))) := by
    simp [ClassDecl.shapes]
  rw [hshapes] at hn ⊢
  simp only [List.length_append, List.length_cons] at hn
  have hbody := reads_classBody h hc hfields hmethods hlegible.1 hlegible.2 (by
    rw [List.length_append]
    omega)
  refine .expectKeyword_bind hc fun start => .expectName_bind hc (Lexer.wordLexeme_name hname) ?_
  have hrefs := firstOf_typeRefs .implementsWord interfaces
    (l := braced (fieldShapes fields ++ methodShapes methods) false ++ k) rfl
  refine .bind (reads_typeParams hc hnames ?_) ?_
  · cases base with
    | some name => simp [superclassShapes, Shape.keyword]
    | none =>
      obtain hrefs | hrefs := hrefs
      · simp [superclassShapes, hrefs]
      · simp [superclassShapes, hrefs]
  rintro _ rfl
  refine .bind (reads_superclass hc hbase ?_ ?_) ?_
  · obtain hrefs | hrefs := hrefs
    · simp [hrefs]
    · simp [hrefs]
  · obtain hrefs | hrefs := hrefs
    · simp [hrefs]
    · simp [hrefs]
  rintro _ rfl
  refine .bind (reads_typeRefsAfter hc hinterfaces rfl) ?_
  rintro _ rfl
  refine .bind_all hbody fun xs hxs => .pure ?_
  rw [ClassDecl.bare, ClassDecl.bare, bareFields_of_members hxs, bareFunctions_of_members hxs]

/-! ## Imports -/

/-- A name between the braces of an import, before a comma or the closing brace. -/
theorem reads_importedName (hc : c.Complete) {x : ImportBinding}
    (hname : ∀ l ∈ x.localAs, isName l) (hk : ∃ m l, k = mark m :: l) :
    importedName.Reads c x.shapes k fun y => y.bare = x.bare := by
  obtain ⟨m, l, rfl⟩ := hk
  obtain ⟨name, localAs⟩ := x
  unfold importedName ImportBinding.shapes
  cases localAs with
  | none =>
    have hsame : (⟨name, none⟩ : ImportBinding).localName = name := rfl
    rw [if_pos hsame]
    exact .expectPropertyName_bind hc (Lexer.wordLexeme_word name)
      (.acceptKeyword_miss hc rfl (.pure rfl))
  | some l =>
    have hl := Lexer.wordLexeme_name (hname l rfl)
    split
    · rename_i hsame
      obtain rfl : l = name := hsame
      refine .expectPropertyName_bind hc (Lexer.wordLexeme_word l) ?_
      refine .acceptKeyword_miss hc rfl (.pure ?_)
      simp [ImportBinding.bare, ImportBinding.localName]
    · refine .expectPropertyName_bind hc (Lexer.wordLexeme_word name) (.acceptKeyword_hit hc ?_)
      simp only [if_true, map_eq_pure_bind, bind_assoc, pure_bind]
      exact .expectName_bind hc hl (.pure rfl)

/-- Names between braces. -/
theorem reads_namedBindings (hc : c.Complete) {bindings : List ImportBinding}
    (hnames : ∀ x ∈ bindings, ∀ l ∈ x.localAs, isName l) :
    importBindings.Reads c
      (mark .openBrace :: commas (bindings.map ImportBinding.shapes) ++ [mark .closeBrace]) k
      fun xs => xs.map ImportBinding.bare = bindings.map ImportBinding.bare := by
  refine .acceptMark_miss hc rfl ?_
  simp only [Bool.false_eq_true, if_false]
  refine .acceptMark_hit hc ?_
  simp only [if_true]
  refine Reads.listUntil hc bindings (fun x _ => ?_) rfl fun x post hsuffix _ => ?_
  · have hword := isMark_of_word (Lexer.wordLexeme_word x.name) .closeBrace
    unfold ImportBinding.shapes
    split
    · exact ⟨_, _, rfl, hword⟩
    · exact ⟨_, _, rfl, hword⟩
  · refine reads_importedName hc (hnames x (hsuffix.subset (List.mem_cons_self ..))) ?_
    unfold afterItem
    split
    · exact ⟨_, _, rfl⟩
    · exact ⟨_, _, rfl⟩

/-- The names that an import binds. -/
theorem reads_importBindings (hc : c.Complete) {d : ImportDecl} (hformed : d.Formed)
    (hlegible : d.Legible) : importBindings.Reads c (bindingsShapes d.bindings) k
      fun xs => xs.map ImportBinding.bare = d.bindings.map ImportBinding.bare := by
  obtain ⟨name, hname, hbindings⟩ | hwords := hformed
  · rw [hbindings, bindingsShapes, if_pos rfl]
    refine .acceptMark_hit hc ?_
    simp only [if_true]
    exact .expectKeyword_bind hc fun _ =>
      .expectName_bind hc (Lexer.wordLexeme_name hname) (.pure rfl)
  · have hnamed := reads_namedBindings (k := k) hc fun x hx => (hwords x hx).2
    unfold bindingsShapes
    split
    · rename_i x hx
      have hword := (hwords x (by simp [hx])).1
      have hstar : x.name ≠ "*" := by
        intro hstar
        rw [hstar] at hword
        revert hword
        decide
      rw [if_neg hstar]
      split
      · rename_i hdefault
        obtain ⟨l, hl⟩ := Option.isSome_iff_exists.mp (hlegible x hx hdefault)
        have hlocal : x.localName = l := by rw [ImportBinding.localName, hl]; rfl
        have hname := Lexer.wordLexeme_name ((hwords x (by simp [hx])).2 l hl)
        rw [hlocal, hx]
        refine .acceptMark_miss hc (isMark_of_word (Lexer.wordLexeme_word l) _) ?_
        simp only [Bool.false_eq_true, if_false]
        refine .acceptMark_miss hc (isMark_of_word (Lexer.wordLexeme_word l) _) ?_
        simp only [Bool.false_eq_true, if_false]
        refine .expectName_bind hc hname (.pure ?_)
        obtain ⟨xname, xlocal⟩ := x
        dsimp only at hl hdefault
        rw [hl, hdefault]
      · exact hx ▸ hnamed
    · exact hnamed

/-- What an import binds does not begin with a string. -/
theorem firstOf_bindings (bindings : List ImportBinding) (l : List Shape) :
    isString (firstOf (bindingsShapes bindings ++ l)).lexeme = false := by
  have hword (s : String) : isString (Lexer.wordLexeme s.toList) = false := by
    unfold Lexer.wordLexeme
    dsimp only
    split
    · rfl
    · rfl
  unfold bindingsShapes
  split
  · split
    · rfl
    · split
      · exact hword _
      · rfl
  · rfl

theorem specifier_bind (hc : c.Complete) {l : List Shape} {s : String} {f : String → Parser β}
    (hf : (f s).Reads c l k Q) : (specifier >>= f).Reads c (⟨.string s, false⟩ :: l) k Q := by
  unfold specifier
  rw [bind_assoc]
  refine .peek_bind hc fun t ht => ?_
  have hl : t.lexeme = .string s := congrArg Shape.lexeme ht
  rw [hl]
  simp only [bind_assoc, pure_bind]
  exact Reads.advance_bind fun _ _ => hf

/-- An import. -/
theorem reads_importDecl (hc : c.Complete) {d : ImportDecl} (b : Bool)
    (hplace : (!c.inBlock && !c.inFunction) = true) (hformed : d.Formed) (hlegible : d.Legible)
    (hfresh : (firstOf k).lexeme.isFresh)
    (hends : (firstOf k).lexeme.isMark .closeBrace ∨ (firstOf k).afterBreak) :
    importDecl.Reads c (d.shapes b) k fun x => x.bare = d.bare := by
  have hcond : (c.inBlock || c.inFunction) = false := by
    cases hb : c.inBlock <;> cases hf : c.inFunction <;> simp [hb, hf] at hplace ⊢
  unfold importDecl ImportDecl.shapes
  split
  · rename_i hempty
    have hempty : d.bindings = [] := List.isEmpty_iff.mp hempty
    refine .expectKeyword_bind hc fun start => .context_bind ?_
    simp only [hcond, Bool.false_eq_true, if_false]
    refine .peek_bind hc fun t ht => ?_
    have hl : t.lexeme = .string d.specifier := congrArg Shape.lexeme ht
    simp only [hl, isString, if_true, pure_bind]
    refine specifier_bind hc (endStatement_done hc hfresh hends (.pure ?_))
    rw [ImportDecl.bare, ImportDecl.bare, hempty]
  · rw [List.cons_append]
    refine .expectKeyword_bind hc fun start => .context_bind ?_
    simp only [hcond, Bool.false_eq_true, if_false]
    refine .peek_bind hc fun t ht => ?_
    have hl : isString t.lexeme = false := by
      have hshape : t.lexeme = _ := congrArg Shape.lexeme ht
      rw [hshape, List.append_assoc]
      exact firstOf_bindings d.bindings _
    simp only [hl, Bool.false_eq_true, if_false, pure_bind]
    refine .bind (reads_importBindings hc hformed hlegible) fun xs hxs => ?_
    refine .expectKeyword_bind hc fun _ =>
      specifier_bind hc (endStatement_done hc hfresh hends (.pure ?_))
    rw [ImportDecl.bare, ImportDecl.bare, hxs]

end CoScript.Grammar
