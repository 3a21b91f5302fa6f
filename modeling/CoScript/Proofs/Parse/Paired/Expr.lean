import CoScript.Proofs.Parse.Paired.Basic

/-!
# Types and expressions read side by side

Over rules that go the same way, the rules for types, parameters and expressions do. Each of them
looks at lexemes and line breaks only, also where it tries something and takes it back.

Results:
* `Grammar.tracks_type`, `Grammar.tracks_params`, `Grammar.tracks_assignment`: types, parameters and
  expressions.
-/

namespace CoScript.Grammar

open CoScript.Parser

variable {P : Pairing} {R R' : Rules}

/-! ## Types and parameters -/

theorem tracks_typeArgs (h : R.Tracks P R') : (typeArgs R).Tracks P Eq (typeArgs R') :=
  .expectMark_bind <| (Tracks.sepBy h.type).bind fun _ _ _ => .expectMark_bind (.pure rfl)

theorem tracks_annotated (h : R.Tracks P R') :
    ( annotation R).Tracks P Eq ( annotation R') :=
  .acceptMark_bind h.type (.pure rfl)

theorem tracks_dottedTail (name : String) : (dottedTail name).Tracks P Eq (dottedTail name) := by
  refine .loop rfl ?_
  rintro name _ rfl
  refine Tracks.atMark.bind_eq fun b => .ite (fun _ => ?_) fun _ => .pure (.done rfl)
  refine .peekAt_bind fun x b p p' ht => ?_
  dsimp only
  cases x.name? with
  | some part => exact .advance_bind (.advance_bind (.pure (.again rfl)))
  | none => exact .pure (.done rfl)

theorem tracks_typeRef (h : R.Tracks P R') : (typeRef R).Tracks P Eq (typeRef R') := by
  refine .peek_bind fun x b p p' ht => ?_
  dsimp only
  cases x.name? with
  | none => exact .reject
  | some first =>
    refine .advance_bind ((tracks_dottedTail first).bind_eq fun name =>
      .peek_bind fun y _ _ _ _ => ?_)
    exact .ite (fun _ => (tracks_typeArgs h).bind fun _ _ _ => .pure rfl) fun _ => .pure rfl

theorem tracks_functionTypeParam (h : R.Tracks P R') :
    (functionTypeParam R).Tracks P Eq (functionTypeParam R') :=
  Tracks.expectName.bind_eq fun _ => Tracks.acceptMark.bind_eq fun _ => .expectMark_bind h.type

theorem tracks_functionType (h : R.Tracks P R') :
    (functionType R).Tracks P Eq (functionType R') :=
  .expectMark_bind <| (Tracks.listUntil (tracks_functionTypeParam h)).bind fun _ _ _ =>
    .expectMark_bind h.type

theorem tracks_typeParam (h : R.Tracks P R') (names : List String) :
    (typeParam R names).Tracks P Eq (typeParam R' names) := by
  refine .peek_bind fun x b p p' ht => Tracks.expectName.bind_eq fun name => ?_
  have hname : Tracks P Eq
      (if names.contains name then rejectAt .distinctTypeParams ⟨x, p, b⟩ else pure name)
      (if names.contains name then rejectAt .distinctTypeParams ⟨x, p', b⟩ else pure name) :=
    .ite (fun _ => .rejectAt ht) fun _ => .pure rfl
  have hdefault : Tracks P Eq
      (do
        if ← acceptMark .assign then R.type
        if names.contains name then rejectAt .distinctTypeParams ⟨x, p, b⟩ else return name)
      (do
        if ← acceptMark .assign then R'.type
        if names.contains name then rejectAt .distinctTypeParams ⟨x, p', b⟩ else return name) :=
    .acceptMark_bind (h.type.bind fun _ _ _ => hname) hname
  exact .acceptKeyword_bind (h.type.bind fun _ _ _ => hdefault) hdefault

theorem tracks_typeParams (h : R.Tracks P R') : (typeParams R).Tracks P Eq (typeParams R') := by
  refine .acceptMark_bind ?_ (.pure rfl)
  refine (Tracks.loop (V := Eq) rfl ?_).bind_eq fun names => .expectMark_bind (.pure rfl)
  rintro names _ rfl
  exact (tracks_typeParam h names).bind_eq fun name => .commaTurn rfl

theorem tracks_param (h : R.Tracks P R') :
    (param R).Tracks P (SameBy (Option.map (·.mapPos P.place))) (param R') := by
  have hrest (isThis : Bool) (name : String) : Tracks P (SameBy (Option.map (·.mapPos P.place)))
      (do
        let _ ← acceptMark .question
        annotation R
        let default ← if ← acceptMark .assign then some <$> R.assignment else pure none
        return if isThis then none else some (⟨name, default⟩ : Param))
      (do
        let _ ← acceptMark .question
        annotation R'
        let default ← if ← acceptMark .assign then some <$> R'.assignment else pure none
        return if isThis then none else some (⟨name, default⟩ : Param)) := by
    refine Tracks.acceptMark.bind_eq fun _ => (tracks_annotated h).bind fun _ _ _ => ?_
    have hparam (value value' : Option Expr)
        (hvalue : SameBy (Option.map (·.mapPos P.place)) value value') :
        Tracks P (SameBy (Option.map (·.mapPos P.place)))
          (pure (if isThis then none else some (⟨name, value⟩ : Param)))
          (pure (if isThis then none else some ⟨name, value'⟩)) := by
      refine .pure ?_
      cases isThis with
      | true => rfl
      | false => simpa [SameBy, Param.mapPos, mapPosOption_eq] using hvalue
    exact .acceptMark_bind (h.assignment.some.bind hparam) (hparam none none rfl)
  exact .acceptKeyword_bind (hrest true "") (Tracks.expectName.bind_eq fun name => hrest false name)

theorem tracks_params (h : R.Tracks P R') : (params R).Tracks P P.params (params R') := by
  refine .expectMark_bind ((Tracks.listUntil (tracks_param h)).bind fun items items' hitems =>
    .pure ?_)
  have hfilter (l : List (Option Param)) : (l.filterMap id).map (·.mapPos P.place) =
      (l.map (Option.map (·.mapPos P.place))).filterMap id := by
    rw [List.map_filterMap, List.filterMap_map]
    rfl
  exact ((hfilter items).trans (congrArg _ hitems)).trans (hfilter items').symm

theorem tracks_skipReadonly : skipReadonly.Tracks P Eq skipReadonly := by
  refine .peek_bind fun x b p p' ht => ?_
  dsimp only
  split
  · exact .peekAt_bind fun _ _ _ _ _ => .ite (fun _ => .advance_bind (.pure rfl)) fun _ => .pure rfl
  · exact .pure rfl

theorem tracks_memberName : memberName.Tracks P Eq memberName := by
  refine .peek_bind fun x b p p' ht => ?_
  cases x with
  | string name => exact .advance_bind (.pure rfl)
  | _ => exact .expectPropertyName

theorem tracks_typeMember (h : R.Tracks P R') : (typeMember R).Tracks P Eq (typeMember R') := by
  refine tracks_skipReadonly.bind fun _ _ _ => tracks_memberName.bind_eq fun name =>
    Tracks.acceptMark.bind_eq fun _ => Tracks.atMark.bind_eq fun b =>
      Tracks.atMark.bind_eq fun b' => ?_
  refine .ite (fun _ => ?_) fun _ => ?_
  · exact (tracks_typeParams h).bind fun _ _ _ => (tracks_params h).bind fun _ _ _ =>
      (tracks_annotated h).bind fun _ _ _ => .pure rfl
  · exact .expectMark_bind (h.type.bind fun _ _ _ => .pure rfl)

theorem tracks_memberEnd : memberEnd.Tracks P Eq memberEnd := by
  refine .acceptMark_bind (.pure rfl) (.acceptMark_bind (.pure rfl) ?_)
  exact .peek_bind fun _ _ _ _ _ => .ite (fun _ => .pure rfl) fun _ => .reject

theorem tracks_objectType (h : R.Tracks P R') : (objectType R).Tracks P Eq (objectType R') := by
  refine .expectMark_bind ((Tracks.loop (V := Eq) rfl ?_).bind_eq fun names =>
    .expectMark_bind (.pure rfl))
  rintro names _ rfl
  exact Tracks.atMark.bind_eq fun _ => .ite (fun _ => .pure (.done rfl)) fun _ =>
    (tracks_typeMember h).bind_eq fun name => tracks_memberEnd.bind fun _ _ _ => .pure (.again rfl)

theorem tracks_parenthesizedType (h : R.Tracks P R') :
    (parenthesizedType R).Tracks P Eq (parenthesizedType R') := by
  refine (Tracks.speculate (tracks_functionType h)).bind fun o o' ho => ?_
  cases o with
  | some _ =>
    cases o' with
    | some _ => exact .pure rfl
    | none => cases ho
  | none =>
    cases o' with
    | some _ => cases ho
    | none => exact .advance_bind (h.type.bind fun _ _ _ => .expectMark_bind (.pure rfl))

theorem tracks_primaryType (h : R.Tracks P R') : (primaryType R).Tracks P Eq (primaryType R') := by
  refine .peek_bind fun x b p p' ht => .ite (fun _ => tracks_parenthesizedType h) fun _ =>
    .ite (fun _ => (tracks_objectType h).bind fun _ _ _ => .pure rfl) fun _ =>
    .ite (fun _ => ?_) fun _ => .ite (fun _ => .advance_bind (.pure rfl)) fun _ =>
    (tracks_typeRef h).bind fun _ _ _ => .pure rfl
  exact .advance_bind ((Tracks.listUntil h.type).bind fun _ _ _ => .pure rfl)

theorem tracks_postfixType (h : R.Tracks P R') : (postfixType R).Tracks P Eq (postfixType R') := by
  refine (tracks_primaryType h).bind fun _ _ _ => .loop rfl fun _ _ _ =>
    .peek_bind fun x b p p' ht => .ite (fun _ => ?_) fun _ => .pure (.done rfl)
  refine .peekAt_bind fun y _ _ _ _ => .ite (fun _ => ?_) fun _ => .pure (.done rfl)
  exact .ite (fun _ => .pure (.done rfl)) fun _ =>
    .advance_bind (.advance_bind (.pure (.again rfl)))

theorem tracks_joined {m : Mark} {item item' : Parser Unit} (h : item.Tracks P Eq item') :
    (joined m item).Tracks P Eq (joined m item') :=
  .loop rfl fun _ _ _ => h.bind fun _ _ _ =>
    .acceptMark_bind (.pure (.again rfl)) (.pure (.done rfl))

theorem tracks_type (h : R.Tracks P R') : (Grammar.type R).Tracks P Eq (Grammar.type R') :=
  Tracks.acceptMark.bind_eq fun _ => tracks_joined (tracks_joined (tracks_postfixType h))

/-! ## Blocks and arguments -/

theorem tracks_block (h : R.Tracks P R') : (block R).Tracks P P.block (block R') := by
  refine Tracks.expectMark.bind fun start start' hstart => ?_
  refine (Tracks.within (fun _ _ => rfl) (.loop (V := SameBy (List.map (·.mapPos P.place))) rfl
    fun ss ss' hss => .peek_bind fun x b p p' ht => ?_)).bind
    fun ss ss' hss => .advance_bind (.pure ?_)
  · refine .ite (fun _ => .pure (.done hss)) fun _ => .ite (fun _ => .reject) fun _ => ?_
    exact h.statement.bind fun s s' hs => .pure (.again (SameBy.snoc hss hs))
  · simp only [Pairing.block, SameBy, Block.mapPos, mapPosStmts_eq, P.place_eq hstart]
    rw [hss]

theorem tracks_functionBlock (h : R.Tracks P R') (isAsync : Bool) :
    (functionBlock R isAsync).Tracks P P.block (functionBlock R' isAsync) :=
  .within (fun _ _ => rfl) (tracks_block h)

theorem tracks_args (h : R.Tracks P R') :
    (args R).Tracks P (SameBy (List.map (·.mapPos P.place))) (args R') :=
  .expectMark_bind (.listUntil h.assignment)

/-! ## Arrow functions -/

theorem tracks_arrowHead (h : R.Tracks P R') : (arrowHead R).Tracks P P.params (arrowHead R') :=
  (tracks_params h).bind fun _ _ hps => (tracks_annotated h).bind fun _ _ _ =>
    .peek_bind fun _ _ _ _ _ => .ite (fun _ => .reject) fun _ => .advance_bind (.pure hps)

theorem tracks_arrowBody (h : R.Tracks P R') (isAsync : Bool) :
    (arrowBody R isAsync).Tracks P (SameBy (·.mapPos P.place)) (arrowBody R' isAsync) := by
  refine Tracks.atMark.bind_eq fun _ => .ite (fun _ => ?_) fun _ => ?_
  · exact (tracks_functionBlock h isAsync).bind fun _ _ hb => .pure (congrArg FunctionBody.block hb)
  · exact (Tracks.within (fun _ _ => rfl) h.assignment).bind fun _ _ he =>
      .pure (congrArg FunctionBody.expr he)

/-- `async` is taken on both sides before what comes after it. -/
theorem tracks_afterAsync {α : Type} {V : α → α → Prop} {p p' : Parser α} {offset : ℕ}
    (h : p.Tracks P V p') :
    Tracks P V (if offset = 1 then advance >>= fun _ => p else p)
      (if offset = 1 then advance >>= fun _ => p' else p') :=
  .ite (fun _ => .advance_bind h) fun _ => h

theorem tracks_arrowParams (h : R.Tracks P R') (offset : ℕ) :
    (arrowParams? R offset).Tracks P (SameBy (Option.map (List.map (·.mapPos P.place))))
      (arrowParams? R' offset) := by
  refine .peekAt_bind fun x b p p' ht => ?_
  dsimp only
  cases x.name? with
  | some name =>
    refine .peekAt_bind fun y _ _ _ _ => .ite (fun _ => ?_) fun _ => .pure rfl
    exact tracks_afterAsync (.advance_bind (.advance_bind (.pure rfl)))
  | none =>
    exact .ite (fun _ => .speculate (tracks_afterAsync (tracks_arrowHead h))) fun _ => .pure rfl

theorem tracks_arrow (h : R.Tracks P R') :
    (arrow? R).Tracks P (SameBy (Option.map (·.mapPos P.place))) (arrow? R') := by
  refine .peek_bind fun x b p p' ht => .ite (fun _ => .peekAt_bind fun _ _ _ _ _ =>
    .ite (fun _ => .pure rfl) fun _ => ?_) fun _ => ?_
  -- with and without a word before the parameters the function itself is read in the same way
  all_goals
    refine (tracks_arrowParams h _).bind fun o o' ho => ?_
    cases o with
    | none =>
      cases o' with
      | none => exact .pure rfl
      | some _ => cases ho
    | some ps =>
      cases o' with
      | none => cases ho
      | some ps' =>
        refine (tracks_arrowBody h _).bind fun body body' hbody => .pure ?_
        have hps := Option.some.inj ho
        simp only [SameBy, Option.map_some, Expr.mapPos, mapPosParams_eq, P.place_eq ht, hbody]
        rw [hps]

/-! ## Literals -/

theorem tracks_functionExpr (h : R.Tracks P R') (isAsync : Bool) :
    (functionExpr R isAsync).Tracks P P.expr (functionExpr R' isAsync) := by
  refine Tracks.expectKeyword.bind fun start start' hstart => .peek_bind fun x _ _ _ _ => ?_
  have hrest (name : Option String) : Tracks P P.expr
      (do
        let generics ← typeParams R
        let ps ← params R
        annotation R
        let body ← functionBlock R isAsync
        return Expr.function start.pos name ps body isAsync generics)
      (do
        let generics ← typeParams R'
        let ps ← params R'
        annotation R'
        let body ← functionBlock R' isAsync
        return Expr.function start'.pos name ps body isAsync generics) := by
    refine (tracks_typeParams h).bind_eq fun generics => (tracks_params h).bind fun ps ps' hps =>
      (tracks_annotated h).bind fun _ _ _ => (tracks_functionBlock h isAsync).bind
      fun body body' hbody => .pure ?_
    simp only [Pairing.expr, SameBy, Expr.mapPos, mapPosParams_eq, P.place_eq hstart, hbody]
    rw [hps]
  exact .ite (fun _ => .advance_bind (hrest _)) fun _ => hrest _

theorem tracks_propertyKey : propertyKey.Tracks P Eq propertyKey := by
  refine .peek_bind fun x b p p' ht => ?_
  cases x with
  | string s => exact .advance_bind (.pure rfl)
  | number n => exact .advance_bind (.pure rfl)
  | _ => exact .expectPropertyName

theorem tracks_property (h : R.Tracks P R') :
    (property R).Tracks P (SameBy (·.mapPos P.place)) (property R') := by
  refine .peek_bind fun x b p p' ht => tracks_propertyKey.bind_eq fun key => .acceptMark_bind ?_ ?_
  · exact h.assignment.bind fun e e' he => .pure (by simp only [SameBy, Property.mapPos, he])
  · refine Tracks.atMark.bind_eq fun _ => .ite (fun _ => ?_) fun _ => .ite (fun _ => ?_) fun _ =>
      .reject
    · refine (tracks_params h).bind fun ps ps' hps => (tracks_annotated h).bind fun _ _ _ =>
        (tracks_functionBlock h false).bind fun body body' hbody => .pure ?_
      simp only [SameBy, Property.mapPos, Expr.mapPos, mapPosParams_eq, P.place_eq ht, hbody]
      rw [hps]
    · exact .pure (by simp only [SameBy, Property.mapPos, Expr.mapPos, P.place_eq ht])

theorem tracks_primary (h : R.Tracks P R') : (primary R).Tracks P P.expr (primary R') := by
  refine .peek_bind fun x b p p' ht => ?_
  dsimp only
  split
  case h_7 =>
    refine .advance_bind (.context_bind fun c e => .ite (fun _ => ?_) fun _ => .rejectAt ht)
    refine (tracks_args h).bind fun es es' hes => .pure ?_
    simp only [Pairing.expr, SameBy, Expr.mapPos, mapPosExprs_eq, P.place_eq ht]
    rw [hes]
  case h_8 => exact tracks_functionExpr h false
  case h_9 =>
    exact .advance_bind (h.assignment.bind fun e e' he => .expectMark_bind (.pure he))
  case h_10 =>
    refine .advance_bind ((Tracks.listUntil h.assignment).bind fun es es' hes => .pure ?_)
    simp only [Pairing.expr, SameBy, Expr.mapPos, mapPosExprs_eq, P.place_eq ht]
    rw [hes]
  case h_11 =>
    refine .advance_bind ((Tracks.listUntil (tracks_property h)).bind fun ps ps' hps => .pure ?_)
    simp only [Pairing.expr, SameBy, Expr.mapPos, mapPosProperties_eq, P.place_eq ht]
    rw [hps]
  case h_12 =>
    refine .ite (fun _ => .peekAt_bind fun _ _ _ _ _ =>
      .ite (fun _ => .advance_bind (tracks_functionExpr h true)) fun _ => ?_) fun _ => ?_
    all_goals
      cases x.name? with
      | some name =>
        refine .advance_bind (.pure ?_)
        simp only [Pairing.expr, SameBy, Expr.mapPos, P.place_eq ht]
      | none => exact .reject
  all_goals
    exact .advance_bind (.pure (by simp only [Pairing.expr, SameBy, Expr.mapPos, P.place_eq ht]))

/-! ## Calls and members -/

theorem tracks_classTurn {cls cls' : Expr} (hcls : P.expr cls cls') :
    (classTurn cls).Tracks P (Turn.Matches P.expr) (classTurn cls') := by
  refine .peek_bind fun _ _ _ _ ht => .ite (fun _ => ?_) fun _ => .pure (.done hcls)
  refine .advance_bind (Tracks.expectPropertyName.bind_eq fun name => .pure (.again ?_))
  simp only [Pairing.expr, SameBy, Expr.mapPos, P.place_eq ht, hcls]

theorem tracks_construction (h : R.Tracks P R') :
    (construction R).Tracks P P.expr (construction R') := by
  rw [construction_eq, construction_eq]
  refine Tracks.expectKeyword.bind fun start start' hstart => Tracks.atKeyword.bind_eq fun b => ?_
  have hrest {cls cls' : Expr} (hcls : P.expr cls cls') : Tracks P P.expr
      (do
        let t ← peek
        if t.lexeme.isMark .openParen && !t.afterBreak then
          return .construct start.pos cls (← args R)
        else return .construct start.pos cls [])
      (do
        let t ← peek
        if t.lexeme.isMark .openParen && !t.afterBreak then
          return .construct start'.pos cls' (← args R')
        else return .construct start'.pos cls' []) := by
    refine .peek_bind fun _ _ _ _ _ => .ite (fun _ => (tracks_args h).bind fun es es' hes =>
      .pure ?_) fun _ => .pure ?_
    · simp only [Pairing.expr, SameBy, Expr.mapPos, mapPosExprs_eq, P.place_eq hstart, hcls]
      rw [hes]
    · simp only [Pairing.expr, SameBy, Expr.mapPos, P.place_eq hstart, hcls, mapPosExprs_eq,
        List.map_nil]
  refine .ite (fun _ => h.construction.bind fun first first' hfirst => ?_) fun _ =>
    (tracks_primary h).bind fun first first' hfirst => ?_
  all_goals
    refine (Tracks.loop hfirst fun _ _ hcls => tracks_classTurn hcls).bind fun cls cls' hcls =>
      Tracks.atMark.bind_eq fun _ => ?_
    exact .ite (fun _ => (tracks_typeArgs h).bind fun _ _ _ => hrest hcls) fun _ => hrest hcls

theorem tracks_callTypeArgs (h : R.Tracks P R') :
    (callTypeArgs R).Tracks P Eq (callTypeArgs R') :=
  (tracks_typeArgs h).bind fun _ _ _ => .peek_bind fun _ _ _ _ _ =>
    .ite (fun _ => .reject) fun _ => .pure rfl

/-- Positions do not say whether an expression may be called with type arguments. -/
theorem takesTypeArgs_mapPos (f : Position → Position) (e : Expr) :
    takesTypeArgs (e.mapPos f) = takesTypeArgs e := by
  cases e <;> rfl

theorem tracks_callMemberTurn (h : R.Tracks P R') {e e' : Expr} (he : P.expr e e') :
    (callMemberTurn R e).Tracks P (Turn.Matches P.expr) (callMemberTurn R' e') := by
  have htypes : takesTypeArgs e = takesTypeArgs e' :=
    he.apply_eq (takesTypeArgs_mapPos P.place)
  refine .peek_bind fun x b p p' ht => ?_
  dsimp only
  split
  case h_1 =>
    refine .advance_bind (Tracks.expectPropertyName.bind_eq fun name => .pure (.again ?_))
    simp only [Pairing.expr, SameBy, Expr.mapPos, P.place_eq ht, he]
  case h_2 =>
    refine .ite (fun _ => .pure (.done he)) fun _ => .advance_bind (h.assignment.bind
      fun key key' hkey => .expectMark_bind (.pure (.again ?_)))
    simp only [Pairing.expr, SameBy, Expr.mapPos, P.place_eq ht, he, hkey]
  case h_3 =>
    refine .ite (fun _ => .pure (.done he)) fun _ => (tracks_args h).bind fun es es' hes =>
      .pure (.again ?_)
    simp only [Pairing.expr, SameBy, Expr.mapPos, mapPosExprs_eq, P.place_eq ht, he]
    rw [hes]
  case h_4 =>
    rw [htypes]
    refine .ite (fun _ => ?_) fun _ => .pure (.done he)
    refine (Tracks.speculate (g := id) (tracks_callTypeArgs h)).bind fun o o' ho => ?_
    obtain rfl : o = o' := by simpa [SameBy] using ho
    cases o with
    | some _ => exact .pure (.again he)
    | none => exact .pure (.done he)
  case h_5 => exact .pure (.done he)

theorem tracks_callMember (h : R.Tracks P R') :
    (callMember R).Tracks P P.expr (callMember R') := by
  refine Tracks.atKeyword.bind_eq fun b => .ite (fun _ => h.construction.bind fun _ _ he => ?_)
    fun _ => (tracks_primary h).bind fun _ _ he => ?_
  all_goals exact .loop he fun _ _ he => tracks_callMemberTurn h he

/-! ## Operators -/

theorem tracks_checkUpdateTarget {e e' : Expr} (he : P.expr e e') (op : UpdateOp) {t t' : Token}
    (ht : P.token t t') :
    (checkUpdateTarget e op t).Tracks P Eq (checkUpdateTarget e' op t') := by
  have htarget : e.isTarget = e'.isTarget := he.apply_eq (Expr.isTarget_mapPos P.place)
  unfold checkUpdateTarget
  rw [htarget]
  exact .ite (fun _ => .pure rfl) fun _ => .rejectAt ht

theorem tracks_postfixExpr (h : R.Tracks P R') :
    (postfixExpr R).Tracks P P.expr (postfixExpr R') := by
  refine (tracks_callMember h).bind fun e e' he => .peek_bind fun x b p p' ht => ?_
  dsimp only
  cases updateOp? x with
  | none => exact .pure he
  | some op =>
    refine .ite (fun _ => .pure he) fun _ => (tracks_checkUpdateTarget he op ht).bind
      fun _ _ _ => .advance_bind (.pure ?_)
    simp only [Pairing.expr, SameBy, Expr.mapPos, P.place_eq ht, he]

theorem tracks_unary (h : R.Tracks P R') : (unary R).Tracks P P.expr (unary R') := by
  refine .peek_bind fun x b p p' ht => ?_
  dsimp only
  cases unaryOp? x with
  | some op =>
    refine .advance_bind (h.unary.bind fun e e' he => .pure ?_)
    simp only [Pairing.expr, SameBy, Expr.mapPos, P.place_eq ht, he]
  | none =>
    refine .ite (fun _ => .context_bind fun c e => .ite (fun _ => .rejectAt ht) fun _ =>
      .advance_bind (h.unary.bind fun e e' he => .pure ?_)) fun _ => ?_
    · simp only [Pairing.expr, SameBy, Expr.mapPos, P.place_eq ht, he]
    · cases updateOp? x with
      | none => exact tracks_postfixExpr h
      | some op =>
        refine .advance_bind (h.unary.bind fun e e' he =>
          (tracks_checkUpdateTarget he op ht).bind fun _ _ _ => .pure ?_)
        simp only [Pairing.expr, SameBy, Expr.mapPos, P.place_eq ht, he]

theorem tracks_binaryTurn (h : R.Tracks P R') (level : ℕ) {left left' : Expr}
    (hleft : P.expr left left') :
    (binaryTurn R level left).Tracks P (Turn.Matches P.expr) (binaryTurn R' level left') := by
  refine .peek_bind fun x b p p' ht => .ite (fun _ => .advance_bind (h.type.bind fun _ _ _ =>
    .pure (.again hleft))) fun _ => ?_
  dsimp only
  cases binaryOp? x with
  | none => exact .pure (.done hleft)
  | some op =>
    refine .ite (fun _ => .pure (.done hleft)) fun _ => .advance_bind ((h.binary _).bind
      fun right right' hright => .pure (.again ?_))
    simp only [Pairing.expr, SameBy, Expr.mapPos, P.place_eq ht, hleft, hright]

theorem tracks_binary (h : R.Tracks P R') (level : ℕ) :
    (binary R level).Tracks P P.expr (binary R' level) :=
  h.unary.bind fun _ _ he => .loop he fun _ _ he => tracks_binaryTurn h level he

theorem tracks_conditional (h : R.Tracks P R') :
    (conditional R).Tracks P P.expr (conditional R') := by
  refine (h.binary 1).bind fun e e' he => .peek_bind fun x b p p' ht => .ite (fun _ => ?_)
    fun _ => .pure he
  refine .advance_bind (h.assignment.bind fun e₁ e₁' h₁ => .expectMark_bind (h.assignment.bind
    fun e₂ e₂' h₂ => .pure ?_))
  simp only [Pairing.expr, SameBy, Expr.mapPos, P.place_eq ht, he, h₁, h₂]

theorem tracks_assignment (h : R.Tracks P R') :
    (assignment R).Tracks P P.expr (assignment R') := by
  refine (tracks_arrow h).bind fun o o' ho => ?_
  cases o with
  | some e =>
    cases o' with
    | some e' => exact .pure (Option.some.inj ho)
    | none => cases ho
  | none =>
    cases o' with
    | some _ => cases ho
    | none =>
      refine .peek_bind fun x b p p' hstart => (tracks_conditional h).bind fun left left' hleft =>
        .peek_bind fun y _ _ _ ht => ?_
      have htarget : left.isTarget = left'.isTarget :=
        hleft.apply_eq (Expr.isTarget_mapPos P.place)
      dsimp only
      cases assignOp? y with
      | none => exact .pure hleft
      | some op =>
        dsimp only
        rw [htarget]
        refine .ite (fun _ => .advance_bind (h.assignment.bind fun e e' he => .pure ?_)) fun _ =>
          .rejectAt hstart
        simp only [Pairing.expr, SameBy, Expr.mapPos, P.place_eq ht, hleft, he]

end CoScript.Grammar
