import CoScript.Proofs.Parse.Takes

/-!
# Enough depth

Four levels for each token are enough for every rule: a rule that calls another one at the same
token calls one that needs a level less, and any rule may be called again after a token. No rule
gives up then, and each one takes a word that closes the brackets that it opens.

Results:
* `Rules.Enough`: rules that do not give up on inputs of a length.
* `Grammar.params_word`: the parameters of a function end at the first closing parenthesis that
  matches.
-/

namespace CoScript

open CoScript.Parser

/-- Rules that follow every input of a length to its end, where `n` is four times that length and
    some levels more. -/
structure Rules.Enough (R : Rules) (n : ℕ) : Prop where
  statement : ∀ c ts a, 4 * ts.length + 4 ≤ n →
    R.statement.Takes c ts a (fun _ => a) fun _ => 1
  assignment : ∀ c ts a, 4 * ts.length + 3 ≤ n →
    R.assignment.Takes c ts a (fun _ => a) fun _ => 1
  binary : ∀ level c ts a, 4 * ts.length + 2 ≤ n →
    (R.binary level).Takes c ts a (fun _ => a) fun _ => 1
  unary : ∀ c ts a, 4 * ts.length + 1 ≤ n → R.unary.Takes c ts a (fun _ => a) fun _ => 1
  construction : ∀ c ts a, 1 ≤ ts.length → 4 * ts.length ≤ n →
    R.construction.Takes c ts a (fun _ => a) fun _ => 1
  type : ∀ c ts a, 4 * ts.length + 1 ≤ n → R.type.Takes c ts a (fun _ => a) fun _ => 1

namespace Grammar

variable {α : Type} {R : Rules} {n : ℕ} {c : Context} {ts : List Token} {a : ℕ}

/-! ## Types and parameters -/

theorem takes_typeArgs (h : R.Enough n) (hts : 4 * ts.length ≤ n + 1) :
    (typeArgs R).Takes c ts a (fun _ => a) fun _ => 1 := by
  refine .bind (.expectMark rfl) fun _ rest hr => ?_
  refine .bind (.sepBy fun rest' hr' => h.type c rest' a (by omega)) fun _ rest' hr' => ?_
  exact .bind (.expectMark rfl) fun _ _ _ => .pure rfl rfl

theorem takes_annotated (h : R.Enough n) (hts : 4 * ts.length ≤ n + 1) :
    ( annotation R).Takes c ts a (fun _ => a) fun _ => 0 := by
  refine .acceptMark_bind (b := a) rfl (fun rest hr => ?_) ?_
  · exact (h.type c rest a (by omega)).mono fun _ => Nat.zero_le _
  · exact .pure rfl rfl

theorem takes_dottedTurn (name : String) :
    (dottedTurn name).Takes c ts a (Turn.nest (fun _ => a) fun _ => a) Turn.least := by
  simp only [dottedTurn, atMark, bind_assoc, pure_bind]
  refine .peek_bind fun t ht => ?_
  split
  · rename_i hm
    have hl := lexeme_of_isMark hm
    refine .peekAt_bind fun t' ht' => ?_
    split
    · rename_i part hpart
      refine .advance_bind ht (by rw [hl]; simp) (by rw [hl]; rfl) fun rest' hrest => ?_
      subst hrest
      obtain ⟨hend, hnest⟩ := Takes.nest_of_word (Takes.word_of_name hpart) a
      refine .advance_bind (t := t') ?_ hend hnest fun rest'' _ => .pure rfl rfl
      simpa [Ahead] using ht'
    · exact .pure rfl rfl
  · exact .pure rfl rfl

theorem takes_dottedTail (name : String) :
    (dottedTail name).Takes c ts a (fun _ => a) fun _ => 0 := by
  rw [dottedTail_eq]
  exact .loop (N := fun _ => a) rfl fun _ _ _ => takes_dottedTurn _

theorem takes_typeRef (h : R.Enough n) (hts : 4 * ts.length ≤ n + 1) :
    (typeRef R).Takes c ts a (fun _ => a) fun _ => 1 := by
  refine .peek_bind fun t ht => ?_
  split
  · exact .reject
  · rename_i first hfirst
    obtain ⟨hend, hnest⟩ := Takes.nest_of_word (Takes.word_of_name hfirst) a
    refine .advance_shorter ht hend hnest fun rest hrest => ?_
    refine .bind (takes_dottedTail first) fun name rest' hr' => .peek_bind fun t' _ => ?_
    refine .skip (fun _ => takes_typeArgs h (by omega)) fun _ _ => .pure rfl rfl

theorem takes_functionTypeParam (h : R.Enough n) (hts : 4 * ts.length ≤ n + 1) :
    (functionTypeParam R).Takes c ts a (fun _ => a) fun _ => 1 := by
  refine .bind .expectName fun _ rest hr => ?_
  refine .acceptMark_bind (b := a) rfl (fun rest' hr' => ?_) ?_
  · exact .bind (.expectMark rfl) fun _ rest'' hr'' =>
      (h.type c rest'' a (by omega)).mono fun _ => by omega
  · exact .bind (.expectMark rfl) fun _ rest'' hr'' =>
      (h.type c rest'' a (by omega)).mono fun _ => by omega

theorem takes_functionType (h : R.Enough n) (hts : 4 * ts.length ≤ n + 1) :
    (functionType R).Takes c ts a (fun _ => a) fun _ => 1 := by
  refine .bind (.expectMark rfl) fun _ rest hr => ?_
  refine .bind (.listUntil rfl fun rest' hr' => takes_functionTypeParam h (by omega))
    fun _ rest' hr' => ?_
  exact .bind (.expectMark rfl) fun _ rest'' hr'' =>
    (h.type c rest'' a (by omega)).mono fun _ => by omega

theorem takes_typeParam (h : R.Enough n) (names : List String) (hts : 4 * ts.length ≤ n + 1) :
    (typeParam R names).Takes c ts a (fun _ => a) fun _ => 1 := by
  have hdefault {rest : List Token} {t : Token} {name : String} (hr : rest.length + 1 ≤ ts.length) :
      Takes (do
        if ← acceptMark .assign then R.type
        if names.contains name then rejectAt .distinctTypeParams t else return name) c rest a
        (fun _ => a) fun _ => 0 := by
    refine .acceptMark_bind (b := a) rfl (fun rest' hr' => ?_) ?_
    · refine .bind (h.type c rest' a (by omega)) fun _ rest'' hr'' => ?_
      split
      · exact .rejectAt
      · exact .pure rfl rfl
    · split
      · exact .rejectAt
      · exact .pure rfl rfl
  refine .peek_bind fun t _ => .bind .expectName fun name rest hr => ?_
  refine .acceptKeyword_bind (fun rest' hr' => ?_) ?_
  · exact .bind (h.type c rest' a (by omega)) fun _ rest'' hr'' => hdefault (by omega)
  · exact hdefault hr

theorem takes_typeParamTurn (h : R.Enough n) (names : List String)
    (hts : 4 * ts.length ≤ n + 1) :
    (typeParamTurn R names).Takes c ts a (Turn.nest (fun _ => a) fun _ => a) Turn.least := by
  refine .bind (takes_typeParam h names hts) fun name rest'' _ =>
    .acceptMark_bind (b := a) rfl (fun _ _ => ?_) ?_
  · exact .pure rfl rfl
  · exact .pure rfl rfl

theorem takes_typeParams (h : R.Enough n) (hts : 4 * ts.length ≤ n + 1) :
    (typeParams R).Takes c ts a (fun _ => a) fun _ => 0 := by
  rw [typeParams_eq]
  refine .acceptMark_bind (b := a) rfl (fun rest hr => ?_) (.pure rfl rfl)
  exact .bind (.loop (N := fun _ => a) (B := fun _ => a) rfl fun names rest' hr' =>
    takes_typeParamTurn h names (by omega)) fun _ _ _ => .bind (.expectMark rfl)
    fun _ _ _ => .pure rfl rfl

theorem takes_param (h : R.Enough n) (hts : 4 * ts.length ≤ n + 1) :
    (param R).Takes c ts a (fun _ => a) fun _ => 1 := by
  have hdefault {rest : List Token} {isThis : Bool} {name : String}
      (hr : rest.length + 1 ≤ ts.length) : Takes (do
        let _ ← acceptMark .question
        annotation R
        let default ← if ← acceptMark .assign then some <$> R.assignment else pure none
        return if isThis then none else some (⟨name, default⟩ : Param)) c rest a
        (fun _ => a) fun _ => 0 := by
    have hrest {rest : List Token} (hr : rest.length + 1 ≤ ts.length) : Takes (do
        annotation R
        let default ← if ← acceptMark .assign then some <$> R.assignment else pure none
        return if isThis then none else some (⟨name, default⟩ : Param)) c rest a
        (fun _ => a) fun _ => 0 := by
      refine .bind (takes_annotated h (by omega)) fun _ rest' hr' => ?_
      refine .acceptMark_bind (b := a) rfl (fun rest'' hr'' => ?_) ?_
      · exact .bind (B := fun _ => a) (I := fun _ => 1) (.map (h.assignment c rest'' a (by omega))
          (fun _ => rfl) fun _ => Nat.le_refl 1) fun _ _ _ => .pure rfl rfl
      · exact .pure rfl rfl
    refine .acceptMark_bind (b := a) rfl (fun rest' hr' => ?_) ?_
    · exact (hrest (by omega)).mono fun _ => by omega
    · exact hrest hr
  refine .acceptKeyword_bind (fun rest hr => ?_) ?_
  · exact hdefault (by omega)
  · exact .bind .expectName fun name rest hr => hdefault hr

theorem takes_params (h : R.Enough n) (hts : 4 * ts.length ≤ n + 1) :
    (params R).Takes c ts a (fun _ => a) fun _ => 1 := by
  refine .bind (.expectMark rfl) fun _ rest hr => ?_
  exact .bind (.listUntil rfl fun rest' hr' => takes_param h (by omega)) fun _ _ _ =>
    .pure rfl rfl

/-- The parameters of a function end at the first closing parenthesis that matches. -/
theorem params_word (h : R.Enough n) (hts : 4 * ts.length ≤ n + 1) {ps : List Param}
    {rest : List Token} (hps : params R c ts = .ok ps rest) :
    ∃ x w y, ts = x :: w ++ y :: rest ∧ x.lexeme = .mark .openParen ∧
      y.lexeme = .mark .closeParen ∧ Balanced (w.map Token.lexeme) := by
  obtain ⟨x, mid, hx, hlist⟩ := bind_eq_ok.mp hps
  obtain ⟨rfl, hopen⟩ := expectMark_eq_ok hx
  obtain ⟨items, rest', hitems, hpure⟩ := bind_eq_ok.mp hlist
  obtain ⟨⟩ := hpure
  rw [listUntil_eq] at hitems
  obtain ⟨_, last, hloop, hclose⟩ := bind_eq_ok.mp hitems
  obtain ⟨y, _, hy, hpure⟩ := bind_eq_ok.mp hclose
  obtain ⟨rfl, hyclose⟩ := expectMark_eq_ok hy
  obtain ⟨⟩ := hpure
  rw [List.length_cons] at hts
  have hparam : ∀ rest', rest'.length ≤ mid.length →
      (param R).Takes c rest' 0 (fun _ => 0) fun _ => 1 := fun rest' hr' => takes_param h (by omega)
  have hword := Takes.listItems .closeParen hparam
  unfold Takes at hword
  rw [hloop] at hword
  obtain ⟨w, hw, hbalanced, -⟩ := hword
  exact ⟨x, w, y, by rw [hw]; rfl, hopen, hyclose, hbalanced⟩

theorem takes_skipReadonly : skipReadonly.Takes c ts a (fun _ => a) fun _ => 0 := by
  refine .peek_bind fun t ht => ?_
  split
  · rename_i hl
    refine .peekAt_bind fun t' _ => ?_
    split
    · exact .bind (.advance_any fun s hs => by
        obtain ⟨rest, rfl⟩ := ht.eq_cons (by rw [hl]; simp)
        obtain rfl : t = s := by simpa [Ahead] using hs
        rw [hl]
        rfl) fun _ _ _ => .pure rfl rfl
    · exact .pure rfl rfl
  · exact .pure rfl rfl

theorem takes_memberName : memberName.Takes c ts a (fun _ => a) fun _ => 1 := by
  refine .peek_bind fun t ht => ?_
  split
  · rename_i hl
    exact .advance_lexeme ht hl nofun rfl fun _ _ => .pure rfl rfl
  · exact .expectPropertyName

theorem takes_typeMember (h : R.Enough n) (hts : 4 * ts.length ≤ n + 1) :
    (typeMember R).Takes c ts a (fun _ => a) fun _ => 1 := by
  have hrest {rest : List Token} {name : String} (hr : rest.length + 1 ≤ ts.length) : Takes (do
      if (← atMark .openParen) || (← atMark .less) then
        let _ ← typeParams R
        let _ ← params R
        annotation R
      else
        let _ ← expectMark .colon
        R.type
      return name) c rest a (fun _ => a) fun _ => 0 := by
    refine .atMark_bind fun b _ => .atMark_bind fun b' _ => ?_
    split
    · exact .bind (takes_typeParams h (by omega)) fun _ rest' hr' =>
        .bind (takes_params h (by omega)) fun _ rest'' hr'' =>
        .bind (takes_annotated h (by omega)) fun _ _ _ => .pure rfl rfl
    · exact .bind (.expectMark rfl) fun _ rest' hr' =>
        .bind (h.type c rest' a (by omega)) fun _ _ _ => .pure rfl rfl
  refine .bind takes_skipReadonly fun _ rest hr => .bind takes_memberName fun name rest' hr' => ?_
  refine .acceptMark_bind (b := a) rfl (fun rest'' hr'' => ?_) ?_
  · exact (hrest (by omega)).mono fun _ => by omega
  · exact (hrest (by omega)).mono fun _ => by omega

theorem takes_memberEnd : memberEnd.Takes c ts a (fun _ => a) fun _ => 0 := by
  refine .acceptMark_bind (b := a) rfl (fun _ _ => .pure rfl rfl) ?_
  refine .acceptMark_bind (b := a) rfl (fun _ _ => .pure rfl rfl) ?_
  refine .peek_bind fun t _ => ?_
  split
  · exact .pure rfl rfl
  · exact .reject

theorem takes_typeMemberTurn (h : R.Enough n) (names : List String)
    (hts : 4 * ts.length ≤ n + 1) :
    (typeMemberTurn R names).Takes c ts a (Turn.nest (fun _ => a) fun _ => a) Turn.least := by
  refine .atMark_bind fun b _ => ?_
  split
  · exact .pure rfl rfl
  · exact .bind (takes_typeMember h hts) fun name _ _ => .bind takes_memberEnd fun _ _ _ =>
      .pure rfl rfl

theorem takes_objectType (h : R.Enough n) (hts : 4 * ts.length ≤ n + 1) :
    (objectType R).Takes c ts a (fun _ => a) fun _ => 1 := by
  rw [objectType_eq]
  refine .bind (.expectMark rfl) fun _ rest hr => ?_
  exact .bind (.loop (N := fun _ => a + 1) (B := fun _ => a + 1) rfl fun names rest' hr' =>
    takes_typeMemberTurn h names (by omega)) fun _ _ _ => .bind (.expectMark rfl)
    fun _ _ _ => .pure rfl rfl

/-! ## Types -/

theorem takes_parenthesizedType (h : R.Enough n) {t : Token} (ht : Ahead ts 0 t)
    (hl : t.lexeme = .mark .openParen) (hts : 4 * ts.length ≤ n + 1) :
    (parenthesizedType R).Takes c ts a (fun _ => a) fun _ => 1 := by
  obtain ⟨rest, rfl⟩ := ht.eq_cons (by rw [hl]; simp)
  have htrial := takes_functionType (a := a) (c := c) h hts
  -- only a trial that succeeds takes tokens here
  have hother : Takes (do
      let _ ← advance
      R.type
      let _ ← expectMark .closeParen) c (t :: rest) a (fun _ => a) fun _ => 1 := by
    refine .advance_bind (b := a + 1) ht (by rw [hl]; simp) (by rw [hl]; rfl) fun rest' hrest => ?_
    rw [List.length_cons] at hts
    obtain rfl := (List.cons.inj hrest).2
    exact .bind (h.type c rest (a + 1) (by omega)) fun _ _ _ => .bind (.expectMark rfl)
      fun _ _ _ => .pure rfl rfl
  unfold parenthesizedType
  simp only [Takes, Bind.bind, Parser.speculate] at htrial ⊢
  cases hp : functionType R c (t :: rest) with
  | rejected e => exact hother
  | _ => rwa [hp] at htrial

theorem nest_of_isSimpleType {l : Lexeme} (h : isSimpleType l) (a : ℕ) :
    l ≠ .endOfInput ∧ l.nest a = some a := by
  unfold isSimpleType at h
  split at h
  all_goals first | exact ⟨by simp, rfl⟩ | simp at h

theorem takes_primaryType (h : R.Enough n) (hts : 4 * ts.length ≤ n + 1) :
    (primaryType R).Takes c ts a (fun _ => a) fun _ => 1 := by
  refine .peek_bind fun t ht => ?_
  split
  · rename_i hm
    exact takes_parenthesizedType h ht (lexeme_of_isMark hm) hts
  · split
    · exact .bind (takes_objectType h hts) fun _ _ _ => .pure rfl rfl
    · split
      · rename_i hm
        have hl := lexeme_of_isMark hm
        refine .advance_lexeme ht hl nofun rfl fun rest hrest => ?_
        exact .bind (.listUntil rfl fun rest' hr' => h.type c rest' (a + 1) (by omega))
          fun _ _ _ => .pure rfl rfl
      · split
        · rename_i hsimple
          obtain ⟨hend, hnest⟩ := nest_of_isSimpleType hsimple a
          exact .advance_bind ht hend hnest fun _ _ => .pure rfl rfl
        · exact .bind (takes_typeRef h hts) fun _ _ _ => .pure rfl rfl

theorem takes_arrayTurn {u : Unit} :
    (arrayTurn u).Takes c ts a (Turn.nest (fun _ => a) fun _ => a) Turn.least := by
  refine .peek_bind fun t ht => ?_
  split
  · rename_i hm
    have hl := lexeme_of_isMark hm
    refine .peekAt_bind fun t' ht' => ?_
    split
    · rename_i hm'
      have hl' := lexeme_of_isMark hm'
      split
      · exact .pure rfl rfl
      · refine .advance_bind (b := a + 1) ht (by rw [hl]; simp) (by rw [hl]; rfl)
          fun rest'' hrest => ?_
        subst hrest
        refine .advance_bind (b := a) (t := t') ?_ (by rw [hl']; simp) (by rw [hl']; rfl)
          fun _ _ => .pure rfl rfl
        simpa [Ahead] using ht'
    · exact .pure rfl rfl
  · exact .pure rfl rfl

theorem takes_postfixType (h : R.Enough n) (hts : 4 * ts.length ≤ n + 1) :
    (postfixType R).Takes c ts a (fun _ => a) fun _ => 1 := by
  rw [postfixType_eq]
  exact .bind (takes_primaryType h hts) fun _ _ _ => .loop (N := fun _ => a) rfl
    fun _ _ _ => takes_arrayTurn

/-- A round that joins a type takes an item, also where it is the last one. -/
theorem takes_joinedTurn {m : Mark} {item : Parser Unit} {u : Unit}
    (hm : (Lexeme.mark m).nest a = some a) (h : item.Takes c ts a (fun _ => a) fun _ => 1) :
    (joinedTurn m item u).Takes c ts a (Turn.nest (fun _ => a) fun _ => a) fun _ => 1 := by
  refine .bind h fun _ _ _ => .acceptMark_bind hm (fun _ _ => ?_) ?_
  · exact .pure rfl rfl
  · exact .pure rfl rfl

theorem takes_joined {m : Mark} {item : Parser Unit} (hm : (Lexeme.mark m).nest a = some a)
    (h : ∀ rest, rest.length ≤ ts.length → item.Takes c rest a (fun _ => a) fun _ => 1) :
    (joined m item).Takes c ts a (fun _ => a) fun _ => 1 := by
  rw [joined_eq]
  -- the first round takes an item, whatever the others do
  refine .bind (takes_joinedTurn hm (h ts (Nat.le_refl _))) fun turn rest hr => ?_
  cases turn with
  | done _ => exact .pure rfl rfl
  | again _ =>
    exact (Takes.rounds (N := fun _ => a) (by omega) fun _ rest' hr' =>
      .least (takes_joinedTurn hm (h rest' (by omega)))).mono fun _ => by omega

theorem takes_type (h : R.Enough n) (hts : 4 * ts.length + 1 ≤ n + 1) :
    (Grammar.type R).Takes c ts a (fun _ => a) fun _ => 1 := by
  have htypes {rest : List Token} (hr : rest.length ≤ ts.length) :
      (joined .bar (intersectionType R)).Takes c rest a (fun _ => a) fun _ => 1 :=
    takes_joined rfl fun rest' hr' => takes_joined rfl fun rest'' hr'' =>
      takes_postfixType h (by omega)
  refine .acceptMark_bind (b := a) rfl (fun rest hr => ?_) (htypes (Nat.le_refl _))
  exact (htypes (by omega)).mono fun _ => Nat.zero_le _

/-! ## Expressions -/

theorem takes_blockTurn (h : R.Enough n) {ss : List Stmt} (hts : 4 * ts.length + 4 ≤ n) :
    (blockTurn R ss).Takes c ts a (Turn.nest (fun _ => a) fun _ => a) Turn.least := by
  refine .peek_bind fun t _ => ?_
  split
  · exact .pure rfl rfl
  · split
    · exact .reject
    · exact .bind (h.statement _ ts a hts) fun _ _ _ => .pure rfl rfl

/-- The statements of a block end at its closing brace. -/
theorem blockTurn_eq_done {ss ss' : List Stmt} {rest : List Token}
    (h : blockTurn R ss c ts = .ok (.done ss') rest) :
    ∃ t, Ahead rest 0 t ∧ t.lexeme = .mark .closeBrace := by
  obtain ⟨t, mid, hpeek, hturn⟩ := bind_eq_ok.mp h
  obtain ⟨rfl, ht⟩ := peek_eq_ok hpeek
  split at hturn
  · rename_i hm
    obtain ⟨⟩ := hturn
    exact ⟨t, ht, lexeme_of_isMark hm⟩
  · split at hturn
    · obtain ⟨_, _, _, hturn⟩ := bind_eq_ok.mp hturn
      simp [rejectAt] at hturn
    · obtain ⟨_, _, _, hturn⟩ := bind_eq_ok.mp hturn
      simp [Pure.pure] at hturn

theorem takes_block (h : R.Enough n) (hts : 4 * ts.length ≤ n) :
    (block R).Takes c ts a (fun _ => a) fun _ => 1 := by
  rw [block_eq]
  refine .bind (.expectMark (b := a + 1) rfl) fun start rest hr => ?_
  refine .bind_of (.within rfl (.loop (N := fun _ => a + 1) (B := fun _ => a + 1) rfl
    fun ss rest' hr' => takes_blockTurn h (by omega))) fun ss rest' hloop _ => ?_
  -- the loop ends at the closing brace, which is taken after it
  obtain ⟨ss', mid, hlast⟩ := Takes.rounds_last hloop
  obtain ⟨t, ht, hl⟩ := blockTurn_eq_done hlast
  refine .bind (p := advance) (B := fun _ => a) (I := fun _ => 1) ?_ fun _ _ _ => .pure rfl rfl
  rw [← bind_pure advance]
  exact .advance_lexeme ht hl nofun rfl fun _ _ => .pure rfl rfl

theorem takes_functionBlock (h : R.Enough n) (isAsync : Bool) (hts : 4 * ts.length ≤ n) :
    (functionBlock R isAsync).Takes c ts a (fun _ => a) fun _ => 1 :=
  .within rfl (takes_block h hts)

theorem takes_args (h : R.Enough n) (hts : 4 * ts.length ≤ n + 1) :
    (args R).Takes c ts a (fun _ => a) fun _ => 1 := by
  refine .bind (.expectMark rfl) fun _ rest hr => ?_
  exact (Takes.listUntil rfl fun rest' hr' => h.assignment c rest' (a + 1) (by omega)).mono
    fun _ => Nat.zero_le _

theorem takes_arrowHead (h : R.Enough n) (hts : 4 * ts.length ≤ n + 1) :
    (arrowHead R).Takes c ts a (fun _ => a) fun _ => 1 := by
  refine .bind (takes_params h hts) fun ps rest hr => .bind (takes_annotated h (by omega))
    fun _ rest' hr' => .peek_bind fun t ht => ?_
  split
  · exact .reject
  · rename_i hcond
    have hl : t.lexeme = .mark .arrow := by
      refine lexeme_of_isMark ?_
      simp at hcond
      exact hcond.1
    exact .advance_lexeme ht hl nofun rfl fun _ _ => .pure rfl rfl

theorem takes_arrowBody (h : R.Enough n) (isAsync : Bool) (hts : 4 * ts.length + 3 ≤ n) :
    (arrowBody R isAsync).Takes c ts a (fun _ => a) fun _ => 1 := by
  refine .atMark_bind fun b _ => ?_
  split
  · exact .bind (takes_functionBlock h isAsync (by omega)) fun _ _ _ => .pure rfl rfl
  · exact .bind (.within rfl (h.assignment _ ts a hts)) fun _ _ _ => .pure rfl rfl

/-- Parentheses that neither a colon nor an arrow follows are not the head of an arrow function. -/
theorem arrowHead_rejected (h : R.Enough n) {pos : Position} (hc : c.ending = .complete pos)
    {x y : Token} {w rest : List Token} (hts : 4 * (x :: w ++ y :: rest).length ≤ n + 1)
    (hy : y.lexeme = .mark .closeParen) (hw : Balanced (w.map Token.lexeme))
    (hrest : ∀ t, Ahead rest 0 t → t.lexeme ≠ .mark .colon ∧ t.lexeme ≠ .mark .arrow) :
    ∃ e, arrowHead R c (x :: w ++ y :: rest) = .rejected e := by
  have htakes := takes_arrowHead (a := 0) (c := c) h hts
  unfold Takes at htakes
  cases hp : arrowHead R c (x :: w ++ y :: rest) with
  | rejected e => exact ⟨e, rfl⟩
  | broken e =>
    rw [hp] at htakes
    simp [Outcome.Takes, hc] at htakes
  | tooDeep =>
    rw [hp] at htakes
    exact htakes.elim
  | ok ps last =>
    exfalso
    obtain ⟨_, mid, hparams, hhead⟩ := bind_eq_ok.mp hp
    obtain ⟨x', w', y', hword, -, hy', hw'⟩ := params_word h hts hparams
    obtain ⟨rfl, htail⟩ := List.cons.inj hword
    -- both closing parentheses match the first one, so they are the same
    obtain ⟨rfl, rfl⟩ : w = w' ∧ rest = mid := by
      have hlexemes := congrArg (List.map Token.lexeme) htail
      simp only [List.append_eq, List.map_append, List.map_cons] at hlexemes
      have heq := hw.eq_of_append_eq hw' (by rw [hy]; rfl) (by rw [hy']; rfl) hlexemes
      have hlength := congrArg List.length heq
      rw [List.length_map, List.length_map] at hlength
      obtain ⟨hw, hrest⟩ := List.append_inj htail hlength
      exact ⟨hw, (List.cons.inj hrest).2⟩
    obtain ⟨_, mid, hcolon, harrow⟩ := bind_eq_ok.mp hhead
    obtain ⟨b, mid', haccept, htype⟩ := bind_eq_ok.mp hcolon
    obtain ⟨rfl, t, rfl, ht⟩ | ⟨rfl, rfl⟩ := acceptMark_eq_ok haccept
    · exact (hrest t (.inl rfl)).1 ht
    · obtain ⟨⟩ := htype
      obtain ⟨t, last', hpeek, hnext⟩ := bind_eq_ok.mp harrow
      obtain ⟨rfl, ht⟩ := peek_eq_ok hpeek
      split at hnext
      · obtain ⟨_, _, _, hreject⟩ := bind_eq_ok.mp hnext
        simp [rejectAt] at hreject
      · rename_i hcond
        rw [Bool.or_eq_true, not_or] at hcond
        refine (hrest t ht).2 (lexeme_of_isMark ?_)
        simpa using hcond.1

/-- `async` before the head of an arrow function, if it is there. -/
theorem takes_afterAsync {p : Parser α} {offset : ℕ} {B I : α → ℕ}
    (hasync : offset = 1 → ∃ t, Ahead ts 0 t ∧ t.lexeme = .keyword .asyncWord)
    (h : ∀ rest, rest.length ≤ ts.length → (offset = 1 → ∃ t, ts = t :: rest) →
      (offset ≠ 1 → rest = ts) → p.Takes c rest a B I) :
    (if offset = 1 then advance >>= fun _ => p else p).Takes c ts a B I := by
  split
  · obtain ⟨t, ht, hl⟩ := hasync ‹_›
    refine .advance_bind ht (by rw [hl]; simp) (by rw [hl]; rfl) fun rest hrest => ?_
    subst hrest
    exact (h rest (Nat.le_succ _) (fun _ => ⟨t, rfl⟩) (fun h => absurd ‹_› h)).mono
      fun _ => Nat.sub_le _ _
  · exact h ts (Nat.le_refl _) (fun h => absurd h ‹_›) fun _ => rfl

theorem takes_arrowParams (h : R.Enough n) {offset : ℕ}
    (hoffset : offset = 0 ∨
      offset = 1 ∧ ∃ t, Ahead ts 0 t ∧ t.lexeme = .keyword .asyncWord)
    (hts : 4 * ts.length ≤ n + 1) :
    (arrowParams? R offset).Takes c ts a (fun _ => a) fun o => o.elim 0 fun _ => 1 := by
  have hasync (ho : offset = 1) : ∃ t, Ahead ts 0 t ∧ t.lexeme = .keyword .asyncWord := by
    obtain ho' | ⟨-, ht⟩ := hoffset
    · omega
    · exact ht
  refine .peekAt_bind fun head hhead => ?_
  split
  · rename_i name hname
    refine .peekAt_bind fun t ht => ?_
    split
    · rename_i hm
      obtain ⟨hend, hnest⟩ := Takes.nest_of_word (Takes.word_of_name hname) a
      have hl := lexeme_of_isMark hm
      refine takes_afterAsync hasync fun rest _ h1 h0 => ?_
      -- the name and the arrow stand where they were looked at
      have hnext : Ahead rest 0 head ∧ Ahead rest 1 t := by
        obtain rfl | ⟨rfl, -⟩ := hoffset
        · obtain rfl := h0 (by omega)
          exact ⟨hhead, ht⟩
        · obtain ⟨s, rfl⟩ := h1 rfl
          simpa [Ahead] using And.intro hhead ht
      refine .advance_bind hnext.1 hend hnest fun rest' hrest => ?_
      subst hrest
      refine .advance_bind (t := t) (b := a) (by simpa [Ahead] using hnext.2) (by rw [hl]; simp)
        (by rw [hl]; rfl) fun _ _ => .pure rfl rfl
    · exact .pure rfl rfl
  · split
    · exact .speculate (takes_afterAsync hasync fun rest hr _ _ => takes_arrowHead h (by omega))
    · exact .pure rfl rfl

theorem takes_arrow (h : R.Enough n) (hts : 4 * ts.length + 3 ≤ n + 1) :
    (arrow? R).Takes c ts a (fun _ => a) fun o => o.elim 0 fun _ => 1 := by
  have hbody (isAsync : Bool) (pos : Position) {offset : ℕ}
      (hoffset : offset = 0 ∨
        offset = 1 ∧ ∃ t, Ahead ts 0 t ∧ t.lexeme = .keyword .asyncWord)
      {f : Option (List Param) → Parser (Option Expr)} (hnone : f none = pure none)
      (hsome : ∀ ps, f (some ps) = do
        let body ← arrowBody R isAsync
        return some (Expr.arrow pos ps body isAsync)) :
      Takes (arrowParams? R offset >>= f) c ts a (fun _ => a) fun o => o.elim 0 fun _ => 1 := by
    refine .bind (takes_arrowParams h hoffset (by omega)) fun o rest hr => ?_
    cases o with
    | none =>
      rw [hnone]
      exact .pure rfl rfl
    | some ps =>
      rw [hsome]
      simp only [Option.elim_some] at hr
      exact .bind (takes_arrowBody h isAsync (by omega)) fun _ _ _ => .pure rfl rfl
  refine .peek_bind fun start hstart => ?_
  dsimp only
  split
  · rename_i hk
    refine .peekAt_bind fun next _ => ?_
    split
    · exact .pure rfl rfl
    · rw [hk]
      exact hbody true start.pos
        (.inr ⟨rfl, start, hstart, lexeme_of_isKeyword hk⟩) rfl fun _ => rfl
  · rename_i hk
    rw [Bool.not_eq_true] at hk
    rw [hk]
    exact hbody false start.pos (.inl rfl) rfl fun _ => rfl

theorem takes_functionExpr (h : R.Enough n) (isAsync : Bool) (hts : 4 * ts.length ≤ n + 1) :
    (functionExpr R isAsync).Takes c ts a (fun _ => a) fun _ => 1 := by
  refine .bind .expectKeyword fun start rest hr => .peek_bind fun t ht => ?_
  have hrest {rest' : List Token} {name : Option String} (hr' : rest'.length ≤ rest.length) :
      Takes (do
        let generics ← typeParams R
        let ps ← params R
        annotation R
        let body ← functionBlock R isAsync
        return Expr.function start.pos name ps body isAsync generics) c rest' a
        (fun _ => a) fun _ => 0 :=
    .bind (takes_typeParams h (by omega)) fun _ _ _ => .bind (takes_params h (by omega))
      fun _ _ _ => .bind (takes_annotated h (by omega)) fun _ _ _ =>
      .bind (takes_functionBlock h isAsync (by omega)) fun _ _ _ => .pure rfl rfl
  dsimp only
  split
  · rename_i hname
    obtain ⟨name, hname⟩ := Option.isSome_iff_exists.mp hname
    obtain ⟨hend, hnest⟩ := Takes.nest_of_word (Takes.word_of_name hname) a
    refine .advance_bind ht hend hnest fun rest' hrest' => ?_
    subst hrest'
    exact (hrest (Nat.le_succ _)).mono fun _ => by omega
  · exact (hrest (Nat.le_refl _)).mono fun _ => by omega

theorem takes_propertyKey : propertyKey.Takes c ts a (fun _ => a) fun _ => 1 := by
  refine .peek_bind fun t ht => ?_
  split
  · rename_i hl
    exact .advance_lexeme ht hl nofun rfl fun _ _ => .pure rfl rfl
  · rename_i hl
    exact .advance_lexeme ht hl nofun rfl fun _ _ => .pure rfl rfl
  · exact .expectPropertyName

theorem takes_property (h : R.Enough n) (hts : 4 * ts.length ≤ n + 1) :
    (property R).Takes c ts a (fun _ => a) fun _ => 1 := by
  refine .peek_bind fun start _ => .bind takes_propertyKey fun key rest hr => ?_
  refine .acceptMark_bind (b := a) rfl (fun rest' hr' => ?_) (.atMark_bind fun b _ => ?_)
  · exact .bind (h.assignment c rest' a (by omega)) fun _ _ _ => .pure rfl rfl
  · split
    · exact .bind (takes_params h (by omega)) fun _ _ _ => .bind (takes_annotated h (by omega))
        fun _ _ _ => .bind (takes_functionBlock h false (by omega)) fun _ _ _ => .pure rfl rfl
    · split
      · exact .pure rfl rfl
      · exact .reject

theorem takes_primary (h : R.Enough n) (hts : 4 * ts.length ≤ n + 1) :
    (primary R).Takes c ts a (fun _ => a) fun _ => 1 := by
  refine .peek_bind fun t ht => ?_
  have hleaf {e : Expr} (hend : t.lexeme ≠ .endOfInput) (hnest : t.lexeme.nest a = some a) :
      Takes (do
        let _ ← advance
        return e) c ts a (fun _ => a) fun _ => 1 :=
    .advance_bind ht hend hnest fun _ _ => .pure rfl rfl
  split
  all_goals rename_i hl
  case h_7 =>
    refine .advance_lexeme ht hl nofun rfl fun rest hrest => .bind .context fun ctx rest' hr' => ?_
    split
    · exact .bind (takes_args h (by omega)) fun _ _ _ => .pure rfl rfl
    · exact .rejectAt
  case h_8 => exact takes_functionExpr h false hts
  case h_9 =>
    refine .advance_lexeme ht hl nofun rfl fun rest hrest => ?_
    exact .bind (h.assignment c rest (a + 1) (by omega)) fun _ _ _ => .bind (.expectMark rfl)
      fun _ _ _ => .pure rfl rfl
  case h_10 =>
    refine .advance_lexeme ht hl nofun rfl fun rest hrest => ?_
    exact .bind (.listUntil rfl fun rest' hr' => h.assignment c rest' (a + 1) (by omega))
      fun _ _ _ => .pure rfl rfl
  case h_11 =>
    refine .advance_lexeme ht hl nofun rfl fun rest hrest => ?_
    exact .bind (.listUntil rfl fun rest' hr' => takes_property h (by omega))
      fun _ _ _ => .pure rfl rfl
  case h_12 =>
    have hname {name : String} (hlexeme : t.lexeme.name? = some name) :
        Takes (do
          let _ ← advance
          return Expr.name t.pos name) c ts a (fun _ => a) fun _ => 1 := by
      obtain ⟨hend, hnest⟩ := Takes.nest_of_word (Takes.word_of_name hlexeme) a
      exact hleaf hend hnest
    dsimp only
    split
    · rename_i hk
      refine .peekAt_bind fun next _ => ?_
      split
      · refine .advance_lexeme ht (lexeme_of_isKeyword hk) nofun rfl fun rest hrest => ?_
        exact (takes_functionExpr h true (by omega)).mono fun _ => by omega
      · split
        · exact hname ‹_›
        · exact .reject
    · split
      · exact hname ‹_›
      · exact .reject
  all_goals exact hleaf (by rw [hl]; simp) (by rw [hl]; rfl)

/-- What an expression starts with: `new` and what belongs to it, or an operand. -/
theorem takes_first (h : R.Enough n) {β : Type} {f : Expr → Parser β} {B I : β → ℕ}
    (hts : 4 * ts.length ≤ n)
    (hf : ∀ e rest, rest.length + 1 ≤ ts.length →
      (f e).Takes c rest a B fun y => I y - 1) :
    Takes (do
      let b ← atKeyword .newWord
      if b = true then R.construction >>= f else primary R >>= f) c ts a B I :=
  .atKeyword_bind fun _ hb => .join (fun hnew => h.construction c ts a (hb hnew) hts)
    (fun _ => takes_primary h (by omega)) fun e rest hr => hf e rest hr

theorem takes_classTurn {cls : Expr} :
    (classTurn cls).Takes c ts a (Turn.nest (fun _ => a) fun _ => a) Turn.least := by
  refine .peek_bind fun t ht => ?_
  split
  · rename_i hm
    have hl := lexeme_of_isMark hm
    exact .advance_lexeme ht hl nofun rfl fun _ _ =>
      .bind .expectPropertyName fun _ _ _ => .pure rfl rfl
  · exact .pure rfl rfl

theorem takes_construction (h : R.Enough n) (hts : 4 * ts.length ≤ n + 1) :
    (construction R).Takes c ts a (fun _ => a) fun _ => 1 := by
  rw [construction_eq]
  refine .bind .expectKeyword fun start rest hr =>
    takes_first h (by omega) fun first rest' hr' => ?_
  refine .bind (.loop (N := fun _ => a) (B := fun _ => a) rfl fun _ _ _ => takes_classTurn)
    fun cls mid hmid => .atMark_bind fun b _ => ?_
  refine .skip (fun _ => takes_typeArgs h (by omega)) fun rest'' hr'' => .peek_bind fun t _ => ?_
  split
  · exact .bind (takes_args h (by omega)) fun _ _ _ => .pure rfl (by omega)
  · exact .pure rfl (by omega)

theorem takes_callTypeArgs (h : R.Enough n) (hts : 4 * ts.length ≤ n + 1) :
    (callTypeArgs R).Takes c ts a (fun _ => a) fun _ => 1 := by
  refine .bind (takes_typeArgs h hts) fun _ rest hr => .peek_bind fun t _ => ?_
  split
  · exact .reject
  · exact .pure rfl rfl

theorem takes_callMemberTurn (h : R.Enough n) {e : Expr} (hts : 4 * ts.length ≤ n + 1) :
    (callMemberTurn R e).Takes c ts a (Turn.nest (fun _ => a) fun _ => a) Turn.least := by
  refine .peek_bind fun t ht => ?_
  split
  · rename_i hl
    exact .advance_lexeme ht hl nofun rfl fun _ _ =>
      .bind .expectPropertyName fun _ _ _ => .pure rfl rfl
  · rename_i hl
    split
    · exact .pure rfl rfl
    · refine .advance_lexeme ht hl nofun rfl fun rest hrest => ?_
      exact .bind (h.assignment c rest (a + 1) (by omega)) fun _ _ _ => .bind (.expectMark rfl)
        fun _ _ _ => .pure rfl rfl
  · split
    · exact .pure rfl rfl
    · exact .bind (takes_args h hts) fun _ _ _ => .pure rfl rfl
  · split
    · refine .bind (.speculate (takes_callTypeArgs h hts)) fun o rest hr => ?_
      cases o with
      | some _ => exact .pure rfl rfl
      | none => exact .pure rfl rfl
    · exact .pure rfl rfl
  · exact .pure rfl rfl

theorem takes_callMember (h : R.Enough n) (hts : 4 * ts.length ≤ n) :
    (callMember R).Takes c ts a (fun _ => a) fun _ => 1 :=
  takes_first h hts fun _ _ hr => .mono (.loop (N := fun _ => a) rfl fun _ _ hr' =>
    takes_callMemberTurn h (by omega)) fun _ => Nat.zero_le _

theorem takes_checkUpdateTarget {β : Type} {e : Expr} {op : UpdateOp} {t : Token}
    {f : Unit → Parser β} {B I : β → ℕ} (h : (f ()).Takes c ts a B I) :
    (checkUpdateTarget e op t >>= f).Takes c ts a B I := by
  unfold checkUpdateTarget
  split
  · exact h
  · exact Takes.rejectAt (e := .updateTarget op.mark) (t := t)

theorem nest_of_updateOp {l : Lexeme} {op : UpdateOp} (h : updateOp? l = some op) (a : ℕ) :
    l ≠ .endOfInput ∧ l.nest a = some a := by
  unfold updateOp? at h
  split at h
  · exact ⟨by simp, rfl⟩
  · exact ⟨by simp, rfl⟩
  · simp at h

theorem takes_postfixExpr (h : R.Enough n) (hts : 4 * ts.length ≤ n) :
    (postfixExpr R).Takes c ts a (fun _ => a) fun _ => 1 := by
  refine .bind (takes_callMember h hts) fun e rest hr => .peek_bind fun t ht => ?_
  split
  · rename_i op hop
    obtain ⟨hend, hnest⟩ := nest_of_updateOp hop a
    split
    · exact .pure rfl rfl
    · exact takes_checkUpdateTarget (.advance_bind ht hend hnest fun _ _ => .pure rfl (by omega))
  · exact .pure rfl rfl

theorem nest_of_unaryOp {l : Lexeme} {op : UnaryOp} (h : unaryOp? l = some op) (a : ℕ) :
    l ≠ .endOfInput ∧ l.nest a = some a := by
  unfold unaryOp? at h
  split at h
  all_goals first | exact ⟨by simp, rfl⟩ | simp at h

theorem takes_unary (h : R.Enough n) (hts : 4 * ts.length + 1 ≤ n + 1) :
    (Grammar.unary R).Takes c ts a (fun _ => a) fun _ => 1 := by
  refine .peek_bind fun t ht => ?_
  split
  · rename_i op hop
    obtain ⟨hend, hnest⟩ := nest_of_unaryOp hop a
    refine .advance_shorter ht hend hnest fun rest hrest => ?_
    exact .bind (h.unary c rest a (by omega)) fun _ _ _ => .pure rfl rfl
  · split
    · rename_i hk
      have hl := lexeme_of_isKeyword hk
      refine .context_bind ?_
      split
      · exact .rejectAt
      · refine .advance_lexeme ht hl nofun rfl fun rest hrest => ?_
        exact .bind (h.unary c rest a (by omega)) fun _ _ _ => .pure rfl rfl
    · split
      · rename_i op hop
        obtain ⟨hend, hnest⟩ := nest_of_updateOp hop a
        refine .advance_shorter ht hend hnest fun rest hrest => ?_
        exact .bind (h.unary c rest a (by omega)) fun _ _ _ =>
          takes_checkUpdateTarget (.pure rfl rfl)
      · exact takes_postfixExpr h (by omega)

theorem nest_of_binaryOp {l : Lexeme} {op : BinaryOp} (h : binaryOp? l = some op) (a : ℕ) :
    l ≠ .endOfInput ∧ l.nest a = some a := by
  unfold binaryOp? at h
  split at h
  · refine ⟨by simp, ?_⟩
    have := List.find?_some h
    obtain rfl := of_decide_eq_true this
    cases op <;> rfl
  · simp at h

theorem takes_binaryTurn (h : R.Enough n) (level : ℕ) {left : Expr} (hts : 4 * ts.length ≤ n + 1) :
    (binaryTurn R level left).Takes c ts a (Turn.nest (fun _ => a) fun _ => a) Turn.least := by
  refine .peek_bind fun t ht => ?_
  split
  · rename_i hcond
    have hl : t.lexeme = .keyword .asWord := by
      simp only [Bool.and_eq_true] at hcond
      exact lexeme_of_isKeyword hcond.1.1
    refine .advance_lexeme ht hl nofun rfl fun rest hrest => ?_
    exact .bind (h.type c rest a (by omega)) fun _ _ _ => .pure rfl rfl
  · split
    · rename_i op hop
      obtain ⟨hend, hnest⟩ := nest_of_binaryOp hop a
      split
      · exact .pure rfl rfl
      · refine .advance_shorter ht hend hnest fun rest hrest => ?_
        exact .bind (h.binary _ c rest a (by omega)) fun _ _ _ => .pure rfl rfl
    · exact .pure rfl rfl

theorem takes_binary (h : R.Enough n) (level : ℕ) (hts : 4 * ts.length + 2 ≤ n + 1) :
    (Grammar.binary R level).Takes c ts a (fun _ => a) fun _ => 1 :=
  .bind (h.unary c ts a (by omega)) fun _ _ hr => .mono (.loop (N := fun _ => a) rfl
    fun _ _ hr' => takes_binaryTurn h level (by omega)) fun _ => Nat.zero_le _

theorem takes_conditional (h : R.Enough n) (hts : 4 * ts.length + 3 ≤ n + 1) :
    (conditional R).Takes c ts a (fun _ => a) fun _ => 1 := by
  refine .bind (h.binary 1 c ts a (by omega)) fun condition rest hr => .peek_bind fun t ht => ?_
  split
  · rename_i hm
    have hl := lexeme_of_isMark hm
    refine .advance_lexeme ht hl nofun rfl fun rest hrest => ?_
    exact .bind (h.assignment c rest a (by omega)) fun _ _ _ => .bind (.expectMark rfl)
      fun _ rest' _ => .bind (h.assignment c rest' a (by omega)) fun _ _ _ => .pure rfl rfl
  · exact .pure rfl rfl

theorem nest_of_assignOp {l : Lexeme} {op : AssignOp} (h : assignOp? l = some op) (a : ℕ) :
    l ≠ .endOfInput ∧ l.nest a = some a := by
  unfold assignOp? at h
  split at h
  · refine ⟨by simp, ?_⟩
    have := List.find?_some h
    obtain rfl := of_decide_eq_true this
    cases op <;> rfl
  · simp at h

theorem takes_assignment (h : R.Enough n) (hts : 4 * ts.length + 3 ≤ n + 1) :
    (Grammar.assignment R).Takes c ts a (fun _ => a) fun _ => 1 := by
  refine .bind (takes_arrow h hts) fun o rest hr => ?_
  cases o with
  | some e => exact .pure rfl rfl
  | none =>
    refine .peek_bind fun start _ => .bind (takes_conditional h (by omega)) fun left rest' hr' =>
      .peek_bind fun t ht => ?_
    split
    · rename_i op hop
      obtain ⟨hend, hnest⟩ := nest_of_assignOp hop a
      split
      · refine .advance_shorter ht hend hnest fun rest'' hrest => ?_
        exact .bind (h.assignment c rest'' a (by omega)) fun _ _ _ => .pure rfl rfl
      · exact .rejectAt
    · exact .pure rfl rfl

end Grammar

end CoScript
