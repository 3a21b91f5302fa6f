import CoScript.Proofs.Print.Back.Head
import CoScript.Proofs.Print.Back.Parts

/-!
# Expressions that are read back

The operands of an expression are read from tight to loose. What an operand begins with is read
first, and the loops over members, calls and operators go on from there, so these readings are
stated with what the loop reads afterwards.

Results:
* `Grammar.reads_assignment`: an expression is read back.
-/

namespace CoScript.Grammar

open CoScript.Parser Shape

variable {R : Rules} {n : ℕ} {c : Context} {k : List Shape}

/-! ## Operands without operators -/

/-- A function expression after its `async`. -/
theorem reads_functionExpr (h : R.Back n) (hc : c.Complete) {pos : Position} {name : Option String}
    {ps : List Param} {body : Block} {isAsync : Bool} {generics : TypeParams} (b : Bool)
    (hformed : (Expr.function pos name ps body isAsync generics).Formed c.site)
    (hlegible : (Expr.function pos name ps body isAsync generics).Legible k)
    (hn : 4 * (⟨.keyword .functionWord, b⟩ :: functionNameShapes name ++ Shape.generics generics ++
      mark .openParen :: commas (paramShapes ps) ++ mark .closeParen :: body.shapes false
      ++ k).length ≤ n + 1) :
    (functionExpr R isAsync).Reads c
      (⟨.keyword .functionWord, b⟩ :: functionNameShapes name ++ Shape.generics generics ++
        mark .openParen :: commas (paramShapes ps) ++ mark .closeParen :: body.shapes false) k
      fun x => x.bare = (Expr.function pos name ps body isAsync generics).bare := by
  rw [Expr.Formed] at hformed
  rw [Expr.Legible] at hlegible
  obtain ⟨hgenerics, hparams, hbody⟩ := hformed
  obtain ⟨hname, hparamsLegible, hbodyLegible⟩ := hlegible
  simp only [List.cons_append, List.append_assoc, List.length_cons, List.length_append] at hn
  unfold functionExpr
  simp only [List.cons_append, List.append_assoc]
  refine .expectKeyword_bind hc fun start => ?_
  have htail : Reads (do
      let generics ← typeParams R
      let ps ← params R
      annotation R
      let body ← functionBlock R isAsync
      return Expr.function start.pos name ps body isAsync generics) c (Shape.generics generics ++
        mark .openParen :: commas (paramShapes ps) ++ mark .closeParen :: body.shapes false) k
        fun x => x.bare = (Expr.function pos name ps body isAsync generics).bare := by
    refine functionTail_bind h hc hgenerics hparams hbody hparamsLegible hbodyLegible ?_
      fun ps' body' hps hbody' => .pure ?_
    · simp only [List.length_append, List.length_cons]
      omega
    · rw [Expr.bare, Expr.bare, hps, hbody']
  simp only [List.cons_append, List.append_assoc] at htail
  cases name with
  | none =>
    refine .peek_bind hc fun t ht => ?_
    have hname : t.lexeme.name? = none := by
      have hl := congrArg Shape.lexeme ht
      simp only [functionNameShapes, List.nil_append, List.append_assoc, List.cons_append] at hl
      obtain hfirst | hfirst := firstOf_generics generics
        (commas (paramShapes ps) ++ mark .closeParen :: (body.shapes false ++ k))
      · rw [hfirst] at hl
        exact congrArg Lexeme.name? hl
      · rw [hfirst] at hl
        exact congrArg Lexeme.name? hl
    simp only [hname, Option.isSome_none, Bool.false_eq_true, if_false]
    exact htail
  | some name =>
    have hname' := hname name rfl
    rw [functionNameShapes, if_neg (by simpa using ne_empty_of_isWord (isWord_of_isName hname'))]
    refine .peek_bind hc fun t ht => ?_
    have hl : t.lexeme.name? = some name := by
      rw [← Lexer.wordLexeme_name hname']
      exact congrArg (fun s => s.lexeme.name?) ht
    simp only [hl, Option.isSome_some, if_true]
    exact Reads.advance_bind fun _ _ => htail

theorem propertyKey_word {β : Type} {Q : β → Prop} (hc : c.Complete) {s : Shape} {l : List Shape}
    {key : String} {f : String → Parser β} (hs : s.lexeme.word? = some key)
    (hf : (f key).Reads c l k Q) : (propertyKey >>= f).Reads c (s :: l) k Q := by
  unfold propertyKey
  simp only [bind_assoc]
  refine .peek_bind hc fun t ht => ?_
  have hl : t.lexeme = s.lexeme := congrArg Shape.lexeme ht
  rw [hl]
  split
  · rename_i hstring
    simp [hstring, Lexeme.word?] at hs
  · rename_i hnumber
    simp [hnumber, Lexeme.word?] at hs
  · exact .expectPropertyName_bind hc hs hf

/-- A property name is read back, be it written as a word or as a string. -/
theorem propertyKey_bind {β : Type} {Q : β → Prop} (hc : c.Complete) {l : List Shape}
    {key : String} {f : String → Parser β} (hf : (f key).Reads c l k Q) :
    (propertyKey >>= f).Reads c (keyShape key :: l) k Q := by
  unfold keyShape
  split
  · exact propertyKey_word hc (Lexer.wordLexeme_word key) hf
  · unfold propertyKey
    simp only [bind_assoc]
    refine .peek_bind hc fun t ht => ?_
    have hl : t.lexeme = .string key := congrArg Shape.lexeme ht
    rw [hl]
    simp only [pure_bind, bind_assoc]
    exact Reads.advance_bind fun _ _ => hf

/-- A property before a comma or the closing brace. -/
theorem reads_property (h : R.Back n) (hc : c.Complete) {p : Property}
    (hformed : p.Formed c.site) (hlegible : p.Legible k)
    (hk : ∃ m l, k = mark m :: l ∧ (m = .comma ∨ m = .closeBrace))
    (hn : 4 * (p.shapes ++ k).length ≤ n + 1) :
    (property R).Reads c p.shapes k fun x => x.bare = p.bare := by
  obtain ⟨m, l, rfl, hm⟩ := hk
  obtain ⟨key, value, shorthand⟩ := p
  rw [Property.Formed] at hformed
  rw [Property.Legible] at hlegible
  have hcolon : m ≠ .colon := by
    rintro rfl
    simp at hm
  have hparen : m ≠ .openParen := by
    rintro rfl
    simp at hm
  unfold property
  cases shorthand with
  | true =>
    obtain ⟨pos, rfl⟩ := hformed.2 rfl
    rw [Expr.Formed] at hformed
    have hname := Lexer.wordLexeme_name hformed.1
    rw [Property.shapes, if_pos rfl]
    refine .peek_bind hc fun start hstart => propertyKey_word hc (Lexer.wordLexeme_word key) ?_
    have hsome : start.lexeme.name?.isSome = true := by
      have hl : start.lexeme = Lexer.wordLexeme key.toList := congrArg Shape.lexeme hstart
      rw [hl, hname]
      rfl
    refine .acceptMark_miss hc (isMark_false (by simp [hcolon])) ?_
    simp only [Bool.false_eq_true, if_false]
    refine .atMark_bind hc false (isMark_false (by simp [hparen])) ?_
    simp only [Bool.false_eq_true, if_false, hsome, if_true]
    exact .pure rfl
  | false =>
    rw [Property.shapes, if_neg Bool.false_ne_true, Expr.level_lt_assignment] at hn ⊢
    refine .peek_bind hc fun start _ => propertyKey_bind hc (.acceptMark_hit hc ?_)
    simp only [if_true]
    refine .bind_all (h.beforeMark false hcolon ?_ hc hformed.1 hlegible.2 ?_) fun x hx => .pure ?_
    · obtain rfl | rfl := hm <;> decide
    · simp only [parens, Bool.false_eq_true, if_false, List.cons_append, List.length_cons] at hn
      omega
    · rw [Property.bare, Property.bare, hx]

/-- The properties of an object and its closing brace. -/
theorem reads_properties (h : R.Back n) (hc : c.Complete) {ps : List Property}
    (hformed : PropertiesFormed ps c.site) (hlegible : PropertiesLegible ps (mark .closeBrace :: k))
    (hn : 4 * (commas (propertyShapes ps) ++ mark .closeBrace :: k).length ≤ n + 1) :
    (listUntil .closeBrace (property R)).Reads c
      (commas (propertyShapes ps) ++ [mark .closeBrace]) k
      fun xs => bareProperties xs = bareProperties ps := by
  have hitems : Reads.Items (property R) c Property.shapes Property.bare Property.bare ps
      (mark .closeBrace :: k) := by
    intro p post hsuffix hlen
    rw [← propertyShapes_eq] at hlen ⊢
    rw [← propertyShapes_eq] at hlen
    refine reads_property h hc
      (propertiesFormed_iff.mp hformed p (hsuffix.subset List.mem_cons_self))
      (hlegible.suffix p post hsuffix) ?_ (by omega)
    unfold afterItem
    split
    · exact ⟨_, _, rfl, .inr rfl⟩
    · exact ⟨_, _, rfl, .inl rfl⟩
  have hlist := Reads.listUntil hc ps (fun p hp => ?_) rfl hitems
  · rw [← propertyShapes_eq] at hlist
    refine hlist.mono fun xs hxs => ?_
    rw [bareProperties_eq, bareProperties_eq, hxs]
  · obtain ⟨key, value, shorthand⟩ := p
    have hword : (Lexer.wordLexeme key.toList).isMark .closeBrace = false :=
      isMark_of_word (Lexer.wordLexeme_word key) _
    rw [Property.shapes]
    split
    · exact ⟨_, _, rfl, hword⟩
    · refine ⟨_, _, rfl, ?_⟩
      unfold keyShape
      split
      · exact hword
      · rfl

/-- Whether an expression is read without looking at what comes after it. -/
def isPrimary : Expr → Bool
  | .literal .. | .name .. | .this .. | .array .. | .object .. | .superCall .. | .function .. =>
    true
  | _ => false

/-- A name that is no part of `async function`. -/
theorem reads_primary_name (hc : c.Complete) {pos : Position} {ident : String} (b : Bool)
    (hname : isName ident) (hstops : Stops primaryLevel k) :
    (primary R).Reads c [⟨Lexer.wordLexeme ident.toList, b⟩] k
      fun x => x.bare = (Expr.name pos ident).bare := by
  have hsome := Lexer.wordLexeme_name hname
  unfold primary
  refine .peek_bind hc fun t ht => ?_
  have hl : t.lexeme = Lexer.wordLexeme ident.toList := congrArg Shape.lexeme ht
  rw [← hl] at hsome
  split
  case h_12 =>
    have hread : Reads (do
        let _ ← advance
        return Expr.name t.pos ident) c [⟨Lexer.wordLexeme ident.toList, b⟩] k
          fun x => x.bare = (Expr.name pos ident).bare :=
      Reads.advance_bind fun _ _ => .pure rfl
    simp only [hsome]
    split
    · refine .peekAt_bind hc fun u hu => ?_
      have hul : u.lexeme = (firstOf k).lexeme := congrArg Shape.lexeme hu
      have hub : u.afterBreak = (firstOf k).afterBreak := congrArg Shape.afterBreak hu
      have hcond : (u.lexeme.isKeyword .functionWord && !u.afterBreak) = false := by
        rw [hul, hub, Bool.and_eq_false_iff]
        by_cases hfunction : (firstOf k).lexeme = .keyword .functionWord
        · exact .inr (by simp [afterBreak_of_function hstops (Nat.le_refl _) hfunction])
        · exact .inl (isKeyword_false hfunction)
      simp only [hcond, Bool.false_eq_true, if_false]
      exact hread
    · exact hread
  all_goals
    rename_i heq
    simp [heq, Lexeme.name?, Keyword.isContextual] at hsome

/-- A function expression, which may begin with `async`. -/
theorem reads_primary_function (h : R.Back n) (hc : c.Complete) {pos : Position}
    {name : Option String} {ps : List Param} {body : Block} {isAsync : Bool} {generics : TypeParams}
    (b : Bool) (hformed : (Expr.function pos name ps body isAsync generics).Formed c.site)
    (hlegible : (Expr.function pos name ps body isAsync generics).Legible k)
    (hn : 4 * ((Expr.function pos name ps body isAsync generics).shapes b ++ k).length ≤ n + 1) :
    (primary R).Reads c ((Expr.function pos name ps body isAsync generics).shapes b) k
      fun x => x.bare = (Expr.function pos name ps body isAsync generics).bare := by
  have hread := @reads_functionExpr R n c k h hc pos name ps body isAsync generics
  unfold primary
  cases isAsync with
  | false =>
    refine .peek_bind hc fun t ht => ?_
    have hl : t.lexeme = .keyword .functionWord := congrArg Shape.lexeme ht
    rw [hl]
    exact hread b hformed hlegible hn
  | true =>
    simp only [Expr.shapes, afterAsync, if_true, List.cons_append, List.nil_append,
      List.append_assoc, List.length_cons] at hn hread ⊢
    refine .peek_bind hc fun t ht => ?_
    have hl : t.lexeme = .keyword .asyncWord := congrArg Shape.lexeme ht
    rw [hl]
    refine .peekAt_bind hc fun u hu => ?_
    have hu : u.shape = Shape.keyword .functionWord := hu
    have hul : u.lexeme = .keyword .functionWord := congrArg Shape.lexeme hu
    have hub : u.afterBreak = false := congrArg Shape.afterBreak hu
    have hcond : (u.lexeme.isKeyword .functionWord && !u.afterBreak) = true := by
      rw [hul, hub]
      rfl
    simp only [hcond, if_true]
    refine Reads.advance_bind fun _ _ => ?_
    exact hread false hformed hlegible (by omega)

/-- An operand without operators, members or calls. -/
theorem reads_primary (h : R.Back n) (hc : c.Complete) {e : Expr} (b : Bool) (he : isPrimary e)
    (hformed : e.Formed c.site) (hlegible : e.Legible k) (hstops : Stops primaryLevel k)
    (hn : 4 * (e.shapes b ++ k).length ≤ n + 1) :
    (primary R).Reads c (e.shapes b) k fun x => x.bare = e.bare := by
  cases e with
  | name pos ident =>
    rw [Expr.Formed] at hformed
    exact reads_primary_name hc b hformed hstops
  | literal pos value =>
    unfold primary
    refine .peek_bind hc fun t ht => ?_
    have hl : t.lexeme = value.lexeme := congrArg Shape.lexeme ht
    rw [hl]
    cases value with
    | bool v => cases v <;> exact Reads.advance_bind fun _ _ => .pure rfl
    | _ => exact Reads.advance_bind fun _ _ => .pure rfl
  | this pos =>
    unfold primary
    refine .peek_bind hc fun t ht => ?_
    have hl : t.lexeme = .keyword .thisWord := congrArg Shape.lexeme ht
    rw [hl]
    exact Reads.advance_bind fun _ _ => .pure rfl
  | array pos elements =>
    rw [Expr.Formed] at hformed
    rw [Expr.Legible] at hlegible
    simp only [Expr.shapes, List.cons_append, List.append_assoc, List.length_cons,
      List.nil_append] at hn ⊢
    unfold primary
    refine .peek_bind hc fun t ht => ?_
    have hl : t.lexeme = .mark .openBracket := congrArg Shape.lexeme ht
    rw [hl]
    refine Reads.advance_bind fun _ _ => ?_
    have hlist := Reads.listUntil hc elements (args_begin hformed rfl) rfl
      (h.items hc hformed hlegible (.mark (by decide)) (by simp) (by omega))
    rw [← argShapes_eq] at hlist
    refine .bind_all hlist fun xs hxs => .pure ?_
    rw [Expr.bare, Expr.bare, bareExprs_eq, bareExprs_eq, hxs]
  | object pos properties =>
    rw [Expr.Formed] at hformed
    rw [Expr.Legible] at hlegible
    simp only [Expr.shapes, List.cons_append, List.append_assoc, List.length_cons,
      List.nil_append] at hn ⊢
    unfold primary
    refine .peek_bind hc fun t ht => ?_
    have hl : t.lexeme = .mark .openBrace := congrArg Shape.lexeme ht
    rw [hl]
    refine Reads.advance_bind fun _ _ => ?_
    refine .bind_all (reads_properties h hc hformed hlegible (by omega)) fun xs hxs => .pure ?_
    rw [Expr.bare, Expr.bare, hxs]
  | superCall pos args =>
    rw [Expr.Formed] at hformed
    rw [Expr.Legible] at hlegible
    simp only [Expr.shapes, List.cons_append, List.append_assoc, List.length_cons,
      List.nil_append] at hn ⊢
    unfold primary
    refine .peek_bind hc fun t ht => ?_
    have hl : t.lexeme = .keyword .superWord := congrArg Shape.lexeme ht
    rw [hl]
    refine Reads.advance_bind fun _ _ => .context_bind ?_
    have hfunction : c.inFunction = true := hformed.1
    simp only [hfunction, if_true]
    refine .bind_all (reads_args h hc hformed.2 hlegible (by
      simp only [List.cons_append, List.length_cons]
      omega)) fun xs hxs => .pure ?_
    rw [Expr.bare, Expr.bare, hxs]
  | function pos name ps body isAsync generics =>
    exact reads_primary_function h hc b hformed hlegible hn
  | _ => simp [isPrimary] at he

/-- An expression in parentheses. -/
theorem reads_primary_parens (h : R.Back n) (hc : c.Complete) {e : Expr} (b : Bool)
    (hformed : e.Formed c.site) (hlegible : e.Legible (mark .closeParen :: k))
    (hn : 4 * (parens true e.shapes b ++ k).length ≤ n + 1) :
    (primary R).Reads c (parens true e.shapes b) k fun x => x.bare = e.bare := by
  simp only [parens, if_true, List.cons_append, List.append_assoc, List.length_cons,
    List.nil_append] at hn ⊢
  unfold primary
  refine .peek_bind hc fun t ht => ?_
  have hl : t.lexeme = .mark .openParen := congrArg Shape.lexeme ht
  rw [hl]
  refine Reads.advance_bind fun _ _ => ?_
  refine .bind (h.beforeMark (k := k) false (by simp) (by decide) hc hformed hlegible (by omega))
    fun x hx => ?_
  exact .expectMark_bind hc fun _ => .pure hx

/-! ## Members and calls -/

theorem turn_member (hc : c.Complete) {x obj : Expr} {pos : Position} {attr : String}
    (hx : x.bare = obj.bare) :
    (callMemberTurn R x).Reads c [mark .dot, word attr] k
      fun turn => ∃ y, turn = .again y ∧ y.bare = (Expr.member pos obj attr).bare := by
  refine .peek_bind hc fun t ht => ?_
  have hl : t.lexeme = .mark .dot := congrArg Shape.lexeme ht
  rw [hl]
  refine Reads.advance_bind fun _ _ => .expectPropertyName_bind hc (Lexer.wordLexeme_word attr) ?_
  exact .pure ⟨_, rfl, by rw [Expr.bare, Expr.bare, hx]⟩

theorem turn_index (h : R.Back n) (hc : c.Complete) {x obj key : Expr} {pos : Position}
    (hformed : key.Formed c.site) (hlegible : key.Legible (mark .closeBracket :: k))
    (hn : 4 * (mark .openBracket :: key.shapes false ++ mark .closeBracket :: k).length ≤ n + 1)
    (hx : x.bare = obj.bare) :
    (callMemberTurn R x).Reads c (mark .openBracket :: key.shapes false ++ [mark .closeBracket]) k
      fun turn => ∃ y, turn = .again y ∧ y.bare = (Expr.index pos obj key).bare := by
  simp only [List.cons_append, List.length_cons] at hn
  refine .peek_bind hc fun t ht => ?_
  have hl : t.lexeme = .mark .openBracket := congrArg Shape.lexeme ht
  have hb : t.afterBreak = false := congrArg Shape.afterBreak ht
  rw [hl, hb]
  refine Reads.advance_bind fun _ _ => ?_
  refine .bind (h.beforeMark (k := k) false (by simp) (by decide) hc hformed hlegible (by omega))
    fun y hy => .expectMark_bind hc fun _ => .pure ⟨_, rfl, ?_⟩
  rw [Expr.bare, Expr.bare, hx, hy]

theorem turn_call (h : R.Back n) (hc : c.Complete) {x callee : Expr} {args : List Expr}
    {pos : Position} (hformed : ExprsFormed args c.site)
    (hlegible : ExprsLegible args (mark .closeParen :: k))
    (hn : 4 * (mark .openParen :: commas (argShapes args) ++ mark .closeParen :: k).length ≤ n + 1)
    (hx : x.bare = callee.bare) :
    (callMemberTurn R x).Reads c
      (mark .openParen :: commas (argShapes args) ++ [mark .closeParen]) k
      fun turn => ∃ y, turn = .again y ∧ y.bare = (Expr.call pos callee args).bare := by
  refine .peek_bind hc fun t ht => ?_
  have hl : t.lexeme = .mark .openParen := congrArg Shape.lexeme ht
  have hb : t.afterBreak = false := congrArg Shape.afterBreak ht
  rw [hl, hb]
  refine .bind_all (reads_args h hc hformed hlegible hn) fun xs hxs => .pure ⟨_, rfl, ?_⟩
  rw [Expr.bare, Expr.bare, hx, hxs]

/-- No member, index or call follows. -/
theorem turn_done (h : R.Back n) (hc : c.Complete) {x : Expr} (hstops : Stops callLevel k)
    (hless : (firstOf k).lexeme = .mark .less → takesTypeArgs x → ¬ ReadsAsTypeArgs k)
    (hn : 4 * k.length ≤ n + 1) : (callMemberTurn R x).Reads c [] k (· = .done x) := by
  refine .peek_bind hc fun t ht => ?_
  have hstops : t.shape.pull < callLevel := by
    rw [ht]
    exact hstops
  have hl : t.lexeme = (firstOf k).lexeme := congrArg Shape.lexeme ht
  split
  · rename_i hdot
    have := isMark_of_pull (s := t.shape) (m := .dot) hstops fun _ => Nat.le_refl _
    have hdot : t.shape.lexeme = .mark .dot := hdot
    simp [hdot, Lexeme.isMark] at this
  · rename_i hbracket
    have hb : t.afterBreak = true :=
      afterBreak_of_pull (s := t.shape) hstops (Nat.le_refl _) hbracket
    simp only [hb, if_true]
    exact .pure rfl
  · rename_i hparen
    have hb : t.afterBreak = true :=
      afterBreak_of_pull (s := t.shape) hstops (Nat.le_refl _) hparen
    simp only [hb, if_true]
    exact .pure rfl
  · rename_i hl'
    split
    · rename_i htakes
      refine .bind_nil (P := (· = none)) (.speculate_none fun ts hts => ?_) ?_
      · have hnot := hless (by rw [← hl, hl']) htakes
        have hts : ts.map Token.shape = k := hts
        obtain ⟨m, rfl⟩ := h.depth
        refine rejected_of_takes hc (takes_callTypeArgs h.enough ?_) fun x rest hok =>
          hnot ⟨m, c, ts, x, rest, hts, hok⟩
        rwa [← hts, List.length_map] at hn
      · rintro _ rfl
        exact .pure rfl
    · exact .pure rfl
  · exact .pure rfl

/-- An operand without operators does not begin with `new`. -/
theorem isPrimary_first {e : Expr} {b : Bool} (he : isPrimary e) (hformed : e.Formed c.site)
    (l : List Shape) : (firstOf (e.shapes b ++ l)).lexeme ≠ .keyword .newWord := by
  cases e with
  | name pos ident =>
    rw [Expr.Formed] at hformed
    intro hnew
    have hl : Lexer.wordLexeme ident.toList = .keyword .newWord := hnew
    have hname := Lexer.wordLexeme_name hformed
    simp [hl, Lexeme.name?, Keyword.isContextual] at hname
  | literal pos value =>
    cases value with
    | bool v => cases v <;> simp [Expr.shapes, Literal.lexeme]
    | _ => simp [Expr.shapes, Literal.lexeme]
  | function pos name ps body isAsync generics =>
    cases isAsync <;> simp [Expr.shapes, afterAsync]
  | this | array | object | superCall => simp [Expr.shapes]
  | _ => simp [isPrimary] at he

/-- What members, indices and calls start from. -/
theorem reads_first (h : R.Back n) (hc : c.Complete) {e : Expr} {needed b : Bool}
    {r : List Shape} {Q : Expr → Prop} (he : needed = true ∨ isPrimary e)
    (hformed : e.Formed c.site) (hlegible : e.Legible (closing needed (r ++ k)))
    (hstops : Stops primaryLevel (r ++ k))
    (hn : 4 * (parens needed e.shapes b ++ (r ++ k)).length ≤ n)
    (hloop : ∀ x, x.bare = e.bare → (loop (callMemberTurn R) x).Reads c r k Q) :
    (callMember R).Reads c (parens needed e.shapes b ++ r) k Q := by
  unfold callMember
  refine .atKeyword_bind hc false ?_ ?_
  · cases needed with
    | true => rfl
    | false =>
      obtain hneeded | he := he
      · cases hneeded
      · rw [List.append_assoc]
        exact isKeyword_false (isPrimary_first he hformed _)
  · simp only [Bool.false_eq_true, if_false]
    refine .bind ?_ hloop
    cases needed with
    | true => exact reads_primary_parens h hc b hformed hlegible (by omega)
    | false =>
      obtain hneeded | he := he
      · cases hneeded
      · exact reads_primary h hc b he hformed hlegible hstops (by
          have : parens false e.shapes b = e.shapes b := rfl
          rw [this] at hn
          omega)

/-- Members, indices and calls, along the operands that their text begins with. -/
theorem reads_spine (h : R.Back n) (hc : c.Complete) {Q : Expr → Prop} :
    ∀ (e : Expr) {needed b : Bool} {r k : List Shape}, e.Formed c.site →
      e.Legible (closing needed (r ++ k)) → (needed = false → callLevel ≤ e.level) →
      Stops primaryLevel (r ++ k) → 4 * (parens needed e.shapes b ++ (r ++ k)).length ≤ n →
      (∀ x, x.bare = e.bare → (loop (callMemberTurn R) x).Reads c r k Q) →
      (callMember R).Reads c (parens needed e.shapes b ++ r) k Q
  | e, true, b, r, k, hformed, hlegible, _, hstops, hn, hloop =>
    reads_first h hc (.inl rfl) hformed hlegible hstops hn hloop
  | .member pos obj attr, false, b, r, k, hformed, hlegible, _, _, hn, hloop => by
    rw [Expr.Formed] at hformed
    have hlegible : (Expr.member pos obj attr).Legible (r ++ k) := hlegible
    rw [Expr.Legible] at hlegible
    have hshapes : parens false (Expr.member pos obj attr).shapes b ++ r
        = parens obj.needsObjectParens obj.shapes b ++ ([mark .dot, word attr] ++ r) := by
      simp [parens, Expr.shapes]
    rw [hshapes]
    have hlength := congrArg List.length hshapes
    refine reads_spine h hc obj hformed.1 hlegible Expr.callLevel_le_of_object
      (.mark (by decide)) ?_ fun x hx => ?_
    · simp only [List.length_append] at hlength hn ⊢
      omega
    · exact .loop_again (by simp) (turn_member hc hx) hloop
  | .index pos obj key, false, b, r, k, hformed, hlegible, _, _, hn, hloop => by
    rw [Expr.Formed] at hformed
    have hlegible : (Expr.index pos obj key).Legible (r ++ k) := hlegible
    rw [Expr.Legible] at hlegible
    have hshapes : parens false (Expr.index pos obj key).shapes b ++ r
        = parens obj.needsObjectParens obj.shapes b ++
          ((mark .openBracket :: key.shapes false ++ [mark .closeBracket]) ++ r) := by
      simp [parens, Expr.shapes]
    rw [hshapes]
    have hlength := congrArg List.length hshapes
    simp only [List.length_append, List.length_cons] at hlength hn
    refine reads_spine h hc obj hformed.1 (by simpa using hlegible.1) Expr.callLevel_le_of_object
      (.mark (by decide)) ?_ fun x hx => ?_
    · simp only [List.length_append, List.length_cons]
      omega
    · refine .loop_again (by simp) (turn_index h hc hformed.2 hlegible.2 ?_ hx) hloop
      simp only [List.length_append, List.length_cons]
      omega
  | .call pos callee args, false, b, r, k, hformed, hlegible, _, _, hn, hloop => by
    rw [Expr.Formed] at hformed
    have hlegible : (Expr.call pos callee args).Legible (r ++ k) := hlegible
    rw [Expr.Legible] at hlegible
    have hshapes : parens false (Expr.call pos callee args).shapes b ++ r
        = parens (callee.level < callLevel) callee.shapes b ++
          ((mark .openParen :: commas (argShapes args) ++ [mark .closeParen]) ++ r) := by
      simp [parens, Expr.shapes]
    rw [hshapes]
    have hlength := congrArg List.length hshapes
    simp only [List.length_append, List.length_cons] at hlength hn
    refine reads_spine h hc callee hformed.1 (by simpa using hlegible.1)
      (fun hneeded => Nat.not_lt.mp (of_decide_eq_false hneeded)) (.mark (by decide)) ?_
      fun x hx => ?_
    · simp only [List.length_append, List.length_cons]
      omega
    · refine .loop_again (by simp) (turn_call h hc hformed.2 hlegible.2 ?_ hx) hloop
      simp only [List.length_append, List.length_cons]
      omega
  | .construct pos cls args, false, b, r, k, hformed, hlegible, _, _, hn, hloop => by
    unfold callMember
    refine .atKeyword_bind hc true rfl ?_
    simp only [if_true]
    exact .bind (h.construction b hc hformed hlegible hn) hloop
  | .literal .., false, b, r, k, hformed, hlegible, _, hstops, hn, hloop
  | .name .., false, b, r, k, hformed, hlegible, _, hstops, hn, hloop
  | .this .., false, b, r, k, hformed, hlegible, _, hstops, hn, hloop
  | .array .., false, b, r, k, hformed, hlegible, _, hstops, hn, hloop
  | .object .., false, b, r, k, hformed, hlegible, _, hstops, hn, hloop
  | .superCall .., false, b, r, k, hformed, hlegible, _, hstops, hn, hloop
  | .function .., false, b, r, k, hformed, hlegible, _, hstops, hn, hloop =>
    reads_first h hc (.inr rfl) hformed hlegible hstops hn hloop
  | .binary _ op _ _, false, _, _, _, _, _, hlevel, _, _, _ => by
    have := hlevel rfl
    cases op <;>
      simp [Expr.level, BinaryOp.level, BinaryOp.precedence, callLevel, conditionalLevel] at this
  | .update _ _ before _, false, _, _, _, _, _, hlevel, _, _, _ => by
    have := hlevel rfl
    cases before <;> simp [Expr.level, unaryLevel, postfixLevel, callLevel] at this
  | .unary .., false, _, _, _, _, _, hlevel, _, _, _
  | .assign .., false, _, _, _, _, _, hlevel, _, _, _
  | .conditional .., false, _, _, _, _, _, hlevel, _, _, _
  | .await .., false, _, _, _, _, _, hlevel, _, _, _
  | .arrow .., false, _, _, _, _, _, hlevel, _, _, _ => by
    simp [Expr.level, unaryLevel, assignmentLevel, conditionalLevel, callLevel] at hlevel

/-! ## Constructions -/

theorem classTurn_done (hc : c.Complete) {x : Expr} (hk : (firstOf k).lexeme ≠ .mark .dot) :
    (classTurn x).Reads c [] k (· = .done x) := by
  refine .peek_bind hc fun t ht => ?_
  have hl : t.lexeme = (firstOf k).lexeme := congrArg Shape.lexeme ht
  rw [hl, isMark_false hk]
  exact .pure rfl

/-- An object in a chain of members of a name or of `this`. -/
theorem needsObjectParens_of_base {obj : Expr} (h : obj.needsNewParens = false) :
    obj.needsObjectParens = false := by
  cases obj with
  | name | this | member => rfl
  | _ => simp [Expr.needsNewParens, Expr.base] at h

/-- A chain of members does not begin with `new`. -/
theorem class_first : ∀ (e : Expr) {b : Bool} (l : List Shape), e.needsNewParens = false →
    e.Formed c.site → (firstOf (e.shapes b ++ l)).lexeme ≠ .keyword .newWord
  | .member _ obj attr, b, l, hbase, hformed => by
    rw [Expr.Formed] at hformed
    have hobj : obj.needsNewParens = false := hbase
    rw [Expr.shapes, needsObjectParens_of_base hobj, parens, if_neg Bool.false_ne_true,
      List.append_assoc]
    exact class_first obj _ hobj hformed.1
  | .name .., _, l, _, hformed => isPrimary_first rfl hformed l
  | .this .., _, _, _, _ => by simp [Expr.shapes]
  | .literal .., _, _, hbase, _ | .array .., _, _, hbase, _ | .object .., _, _, hbase, _
  | .binary .., _, _, hbase, _ | .unary .., _, _, hbase, _ | .update .., _, _, hbase, _
  | .assign .., _, _, hbase, _ | .conditional .., _, _, hbase, _ | .call .., _, _, hbase, _
  | .index .., _, _, hbase, _ | .construct .., _, _, hbase, _ | .superCall .., _, _, hbase, _
  | .await .., _, _, hbase, _ | .arrow .., _, _, hbase, _ | .function .., _, _, hbase, _ => by
    simp [Expr.needsNewParens, Expr.base] at hbase

/-- A chain of members after `new`. -/
theorem reads_class (h : R.Back n) (hc : c.Complete) {Q : Expr → Prop} :
    ∀ (e : Expr) {b : Bool} {r : List Shape}, e.needsNewParens = false → e.Formed c.site →
      Stops primaryLevel (r ++ k) → 4 * (e.shapes b ++ (r ++ k)).length ≤ n + 1 →
      (∀ x, x.bare = e.bare → (loop classTurn x).Reads c r k Q) →
      (primary R >>= loop classTurn).Reads c (e.shapes b ++ r) k Q
  | .member pos obj attr, b, r, hbase, hformed, _, hn, hloop => by
    rw [Expr.Formed] at hformed
    have hobj : obj.needsNewParens = false := hbase
    rw [Expr.shapes, needsObjectParens_of_base hobj, parens, if_neg Bool.false_ne_true,
      List.append_assoc] at hn ⊢
    refine reads_class h hc obj hobj hformed.1 (.mark (by decide)) (by simpa using hn)
      fun x hx => .loop_again (by simp) ?_ hloop
    refine .peek_bind hc fun t ht => ?_
    have hl : t.lexeme = .mark .dot := congrArg Shape.lexeme ht
    rw [hl]
    refine Reads.advance_bind fun _ _ =>
      .expectPropertyName_bind hc (Lexer.wordLexeme_word attr) (.pure ⟨_, rfl, ?_⟩)
    rw [Expr.bare, Expr.bare, hx]
  | .name pos ident, b, r, _, hformed, hstops, hn, hloop =>
    .bind (reads_primary h hc b rfl hformed (by trivial) hstops hn) hloop
  | .this pos, b, r, _, hformed, hstops, hn, hloop =>
    .bind (reads_primary h hc b rfl hformed (by trivial) hstops hn) hloop
  | .literal .., _, _, hbase, _, _, _, _ | .array .., _, _, hbase, _, _, _, _
  | .object .., _, _, hbase, _, _, _, _ | .binary .., _, _, hbase, _, _, _, _
  | .unary .., _, _, hbase, _, _, _, _ | .update .., _, _, hbase, _, _, _, _
  | .assign .., _, _, hbase, _, _, _, _ | .conditional .., _, _, hbase, _, _, _, _
  | .call .., _, _, hbase, _, _, _, _ | .index .., _, _, hbase, _, _, _, _
  | .construct .., _, _, hbase, _, _, _, _ | .superCall .., _, _, hbase, _, _, _, _
  | .await .., _, _, hbase, _, _, _, _ | .arrow .., _, _, hbase, _, _, _, _
  | .function .., _, _, hbase, _, _, _, _ => by
    simp [Expr.needsNewParens, Expr.base] at hbase

/-- The class after `new`, which stands in parentheses unless it is a chain of members. -/
theorem reads_newClass (h : R.Back n) (hc : c.Complete) {cls : Expr} (hformed : cls.Formed c.site)
    (hlegible : cls.Legible (closing cls.needsNewParens (mark .openParen :: k)))
    (hn : 4 * (parens cls.needsNewParens cls.shapes false ++ mark .openParen :: k).length ≤ n + 1) :
    (primary R >>= loop classTurn).Reads c (parens cls.needsNewParens cls.shapes false)
      (mark .openParen :: k) fun x => x.bare = cls.bare := by
  have hdone {x : Expr} (hx : x.bare = cls.bare) :
      (loop classTurn x).Reads c [] (mark .openParen :: k) fun x => x.bare = cls.bare :=
    .loop_done ((classTurn_done hc (by simp)).mono fun _ ht => ⟨x, ht, hx⟩)
  cases hneeded : cls.needsNewParens with
  | true =>
    rw [hneeded] at hn hlegible
    exact .bind_all (reads_primary_parens h hc false hformed hlegible hn) fun x hx => hdone hx
  | false =>
    rw [hneeded] at hn
    have hread := reads_class (b := false) (r := []) h hc cls hneeded hformed
      (.mark (by decide)) hn fun x hx => hdone hx
    rwa [List.append_nil] at hread

/-- An expression that starts with `new`. -/
theorem reads_construction (h : R.Back n) (hc : c.Complete) {pos : Position} {cls : Expr}
    {args : List Expr} (b : Bool) (hformed : (Expr.construct pos cls args).Formed c.site)
    (hlegible : (Expr.construct pos cls args).Legible k)
    (hn : 4 * ((Expr.construct pos cls args).shapes b ++ k).length ≤ n + 1) :
    (construction R).Reads c ((Expr.construct pos cls args).shapes b) k
      fun x => x.bare = (Expr.construct pos cls args).bare := by
  rw [Expr.Formed] at hformed
  rw [Expr.Legible] at hlegible
  have hshapes : (Expr.construct pos cls args).shapes b = ⟨.keyword .newWord, b⟩ ::
      (parens cls.needsNewParens cls.shapes false ++
        (mark .openParen :: commas (argShapes args) ++ [mark .closeParen])) := by
    simp [Expr.shapes]
  rw [hshapes] at hn ⊢
  simp only [List.length_append, List.length_cons] at hn
  unfold construction
  refine .expectKeyword_bind hc fun start => .atKeyword_bind hc false ?_ ?_
  · cases hneeded : cls.needsNewParens with
    | true => rfl
    | false =>
      simp only [parens, Bool.false_eq_true, if_false, List.append_assoc]
      exact isKeyword_false (class_first cls _ hneeded hformed.1)
  · simp only [Bool.false_eq_true, if_false]
    have hcls := reads_newClass (k := commas (argShapes args) ++ [mark .closeParen] ++ k) h hc
      hformed.1 (by simpa using hlegible.1) (by
        simp only [List.length_append, List.length_cons]
        omega)
    have hread := Reads.bind (r := mark .openParen :: commas (argShapes args) ++ [mark .closeParen])
      (k := k) (Q := fun x => x.bare = (Expr.construct pos cls args).bare) hcls (f := fun cls => do
        if ← atMark .less then typeArgs R
        let t ← peek
        if t.lexeme.isMark .openParen && !t.afterBreak then
          return Expr.construct start.pos cls (← Grammar.args R)
        else return Expr.construct start.pos cls []) fun x hx => ?_
    · rw [bind_assoc] at hread
      exact hread
    · -- the arguments start on the line of the class, so they belong to it
      refine .atMark_bind hc false rfl ?_
      simp only [Bool.false_eq_true, if_false]
      refine .peek_bind hc fun t ht => ?_
      have ht : t.shape = mark .openParen := ht
      have hl : t.lexeme = .mark .openParen := congrArg Shape.lexeme ht
      have hb : t.afterBreak = false := congrArg Shape.afterBreak ht
      have hcond : (t.lexeme.isMark .openParen && !t.afterBreak) = true := by
        rw [hl, hb]
        rfl
      simp only [hcond, if_true]
      refine .bind_all (reads_args h hc hformed.2 hlegible.2 ?_) fun xs hxs => .pure ?_
      · simp only [List.length_append, List.length_cons]
        omega
      · rw [Expr.bare, Expr.bare, hx, hxs]

end CoScript.Grammar
