import CoScript.Proofs.Parse.Enough

/-!
# Types leave no trace where they stand

Two inputs that differ in annotations are read side by side. Where a rule comes to an annotation it
reads the type and goes on as on the other input, so a declaration, the parameters of a function and
the head of a function give the same tree, and a call keeps its callee when it is given type
arguments.

This is what the rules do where the types stand. A trial that began further ahead is another matter:
it may read the parameters of an annotated arrow function as those of a function type, and then go
on where it would have been taken back.

Results:
* `Parser.Agrees`: a parser gives the same result on two inputs.
* `agrees_annotated`: an annotation agrees with none.
* `agrees_params`, `agrees_varDecl`, `agrees_functionRest`, `agrees_functionExpr`, `agrees_arrow`:
  parameters, declarations and functions.
* `loop_callMember_typeArgs`: a call with type arguments.
-/

namespace CoScript

namespace Parser

variable {α β σ : Type}

/-- A parser gives the same result on the inputs `ts` and `ts'` and leaves `rest` and `rest'`. -/
def Agrees (p : Parser α) (c : Context) (ts rest ts' rest' : List Token) : Prop :=
  ∃ x, p c ts = .ok x rest ∧ p c ts' = .ok x rest'

theorem isMark_of_eq {t : Token} {m : Mark} (ht : t.lexeme = .mark m) :
    t.lexeme.isMark m = true := by
  rw [ht, Lexeme.isMark, decide_eq_true rfl]

theorem isKeyword_of_eq {t : Token} {k : Keyword} (ht : t.lexeme = .keyword k) :
    t.lexeme.isKeyword k = true := by
  rw [ht, Lexeme.isKeyword, decide_eq_true rfl]

namespace Agrees

variable {p : Parser α} {f : α → Parser β} {c : Context} {ts mid rest ts' mid' rest' : List Token}

theorem pure (x : α) : (Pure.pure x : Parser α).Agrees c ts ts ts' ts' :=
  ⟨x, rfl, rfl⟩

theorem bind (h : p.Agrees c ts mid ts' mid') (hf : ∀ x, (f x).Agrees c mid rest mid' rest') :
    (p >>= f).Agrees c ts rest ts' rest' := by
  obtain ⟨x, hx, hx'⟩ := h
  obtain ⟨y, hy, hy'⟩ := hf x
  exact ⟨y, bind_eq_ok.mpr ⟨x, mid, hx, hy⟩, bind_eq_ok.mpr ⟨x, mid', hx', hy'⟩⟩

theorem peek_bind {t : Token} {f : Token → Parser β}
    (h : (f t).Agrees c (t :: ts) rest (t :: ts') rest') :
    (peek >>= f).Agrees c (t :: ts) rest (t :: ts') rest' := h

theorem peekAt_one_bind {s t : Token} {f : Token → Parser β}
    (h : (f t).Agrees c (s :: t :: ts) rest (s :: t :: ts') rest') :
    (peekAt 1 >>= f).Agrees c (s :: t :: ts) rest (s :: t :: ts') rest' := h

theorem advance_bind {t : Token} {f : Token → Parser β} (h : (f t).Agrees c ts rest ts' rest') :
    (advance >>= f).Agrees c (t :: ts) rest (t :: ts') rest' := h

/-- Whether a mark comes next depends on the next token alone. -/
theorem atMark_bind {t : Token} {m : Mark} {f : Bool → Parser β}
    (h : (f (t.lexeme.isMark m)).Agrees c (t :: ts) rest (t :: ts') rest') :
    (atMark m >>= f).Agrees c (t :: ts) rest (t :: ts') rest' := h

theorem expectMark_bind {t : Token} {m : Mark} {f : Token → Parser β} (ht : t.lexeme = .mark m)
    (h : (f t).Agrees c ts rest ts' rest') :
    (expectMark m >>= f).Agrees c (t :: ts) rest (t :: ts') rest' := by
  simp only [expectMark, bind_assoc]
  refine atMark_bind ?_
  rw [isMark_of_eq ht, if_pos rfl]
  exact advance_bind h

theorem expectKeyword_bind {t : Token} {k : Keyword} {f : Token → Parser β}
    (ht : t.lexeme = .keyword k) (h : (f t).Agrees c ts rest ts' rest') :
    (expectKeyword k >>= f).Agrees c (t :: ts) rest (t :: ts') rest' := by
  simp only [expectKeyword, atKeyword, bind_assoc, pure_bind]
  refine peek_bind ?_
  rw [isKeyword_of_eq ht, if_pos rfl]
  exact advance_bind h

theorem expectName_bind {t : Token} {name : String} {f : String → Parser β}
    (ht : t.lexeme.name? = some name) (h : (f name).Agrees c ts rest ts' rest') :
    (expectName >>= f).Agrees c (t :: ts) rest (t :: ts') rest' := by
  simp only [expectName, bind_assoc]
  refine peek_bind ?_
  simp only [ht, bind_assoc, pure_bind]
  exact advance_bind h

/-- A round that takes something on both inputs, and the rest of the loop. -/
theorem loop_again {step : σ → Parser (Turn σ α)} {s s' : σ}
    (hstep : step s c ts = .ok (.again s') mid) (hstep' : step s c ts' = .ok (.again s') mid')
    (hmid : mid.length < ts.length) (hmid' : mid'.length < ts'.length)
    (h : (loop step s').Agrees c mid rest mid' rest') :
    (loop step s).Agrees c ts rest ts' rest' := by
  obtain ⟨x, hx, hx'⟩ := h
  unfold loop at hx hx' ⊢
  refine ⟨x, ?_, ?_⟩
  · exact bind_eq_ok.mpr ⟨_, mid, hstep, rounds_mono (by omega) hx⟩
  · exact bind_eq_ok.mpr ⟨_, mid', hstep', rounds_mono (by omega) hx'⟩

/-- A round that is the last one on both inputs. -/
theorem loop_done {step : σ → Parser (Turn σ α)} {s : σ} {x : α}
    (hstep : step s c ts = .ok (.done x) rest) (hstep' : step s c ts' = .ok (.done x) rest') :
    (loop step s).Agrees c ts rest ts' rest' :=
  ⟨x, bind_eq_ok.mpr ⟨_, rest, hstep, rfl⟩, bind_eq_ok.mpr ⟨_, rest', hstep', rfl⟩⟩

end Agrees

/-! ## Single tokens and lists -/

section Lists

variable {m close : Mark} {item : Parser α} {c : Context} {s t : Token}
    {ts rest : List Token} {x : α}

/-- A mark is taken if the next token is that mark. -/
theorem acceptMark_cons (m : Mark) (c : Context) (t : Token) (ts : List Token) :
    acceptMark m c (t :: ts) =
      if t.lexeme.isMark m then .ok true ts else .ok false (t :: ts) := by
  cases hm : t.lexeme.isMark m with
  | true =>
    simp only [acceptMark, atMark, bind_assoc, pure_bind, if_true]
    refine bind_eq_ok.mpr ⟨t, t :: ts, rfl, ?_⟩
    rw [hm]
    rfl
  | false =>
    simp only [acceptMark, atMark, bind_assoc, pure_bind, Bool.false_eq_true, if_false]
    refine bind_eq_ok.mpr ⟨t, t :: ts, rfl, ?_⟩
    rw [hm]
    rfl

theorem Agrees.acceptMark_miss {f : Bool → Parser β} {ts' rest' : List Token}
    (ht : t.lexeme.isMark m = false) (h : (f false).Agrees c (t :: ts) rest (t :: ts') rest') :
    (acceptMark m >>= f).Agrees c (t :: ts) rest (t :: ts') rest' := by
  simp only [acceptMark, bind_assoc]
  refine atMark_bind ?_
  rw [ht]
  exact h

theorem listTurn_close (ht : t.lexeme = .mark close) (items : List α) :
    listTurn close item items c (t :: rest) = .ok (.done items) (t :: rest) := by
  simp only [listTurn, atMark, bind_assoc, pure_bind]
  refine bind_eq_ok.mpr ⟨t, t :: rest, rfl, ?_⟩
  rw [isMark_of_eq ht]
  rfl

/-- After an item, the token behind it decides whether another one follows. -/
theorem listTurn_item (hs : s.lexeme.isMark close = false)
    (hx : item c (s :: ts) = .ok x (t :: rest)) (items : List α) :
    listTurn close item items c (s :: ts) =
      if t.lexeme.isMark .comma then .ok (.again (items ++ [x])) rest
      else .ok (.done (items ++ [x])) (t :: rest) := by
  have hround : listTurn close item items c (s :: ts) = (item >>= fun x =>
      acceptMark .comma >>= fun b =>
        if b then Pure.pure (.again (items ++ [x])) else Pure.pure (.done (items ++ [x])))
        c (s :: ts) := by
    simp only [listTurn, atMark, bind_assoc, pure_bind]
    change (if s.lexeme.isMark close = true then _ else _ : Parser _) c (s :: ts) = _
    rw [hs]
    rfl
  rw [hround]
  simp only [Bind.bind, hx, acceptMark_cons]
  cases t.lexeme.isMark .comma with
  | true => rfl
  | false => rfl

end Lists

end Parser

namespace Grammar

open CoScript.Parser

variable {R : Rules} {n : ℕ} {c : Context} {ts mid post rest ts' mid' post' rest' : List Token}

/-! ## Annotations -/

/-- A type that ends before `rest`, with its colon, agrees with no annotation. -/
theorem agrees_annotated {t : Token} (ht : t.lexeme = .mark .colon)
    (htype : R.type c ts = .ok () rest) (hnone : annotation R c rest' = .ok () rest') :
    ( annotation R).Agrees c (t :: ts) rest rest' rest' := by
  refine ⟨(), ?_, hnone⟩
  refine bind_eq_ok.mpr ⟨true, ts, ?_, by rw [if_pos rfl, htype]⟩
  rw [acceptMark_cons, isMark_of_eq ht, if_pos rfl]

/-! ## Parameters -/

/-- A default, if there is one, and what is made of it. -/
theorem agrees_default_bind {β : Type} {f : Option Expr → Parser β}
    (h : (initializer R).Agrees c ts mid ts' mid')
    (hf : ∀ value, (f value).Agrees c mid rest mid' rest') :
    Agrees (do
      if ← acceptMark .assign then
        let value ← some <$> R.assignment
        f value
      else f none) c ts rest ts' rest' := by
  have hbind := Agrees.bind h hf
  unfold initializer at hbind
  simp only [bind_assoc] at hbind
  have hvalue (b : Bool) : ((if b then some <$> R.assignment else pure none) >>= f) =
      if b then some <$> R.assignment >>= f else f none := by
    cases b with
    | true => rfl
    | false => rfl
  simpa only [hvalue] using hbind

/-- A parameter agrees when its annotation and its default do. -/
theorem agrees_param {t : Token}
    (ht : t.lexeme = .keyword .thisWord ∨ ∃ name, t.lexeme.name? = some name)
    (hquestion : (acceptMark .question).Agrees c ts mid ts' mid')
    (htype : ( annotation R).Agrees c mid post mid' post')
    (hvalue : (initializer R).Agrees c post rest post' rest') :
    (param R).Agrees c (t :: ts) rest (t :: ts') rest' := by
  unfold param
  simp only [acceptKeyword, atKeyword, bind_assoc, pure_bind]
  refine .peek_bind ?_
  cases hthis : t.lexeme.isKeyword .thisWord with
  | true =>
    simp only [if_true, bind_assoc, pure_bind]
    refine .advance_bind (.bind hquestion fun _ => .bind htype fun _ => ?_)
    exact agrees_default_bind hvalue fun _ => .pure _
  | false =>
    obtain ht | ⟨name, ht⟩ := ht
    · rw [isKeyword_of_eq ht] at hthis
      cases hthis
    · simp only [Bool.false_eq_true, if_false, pure_bind]
      refine .expectName_bind ht (.bind hquestion fun _ => .bind htype fun _ => ?_)
      exact agrees_default_bind hvalue fun _ => .pure _

/-- A name with a type agrees with the name alone before a comma or a closing parenthesis. -/
theorem agrees_param_type {s t u : Token} {name : String} (hs : s.lexeme.name? = some name)
    (ht : t.lexeme = .mark .colon) (htype : R.type c ts = .ok () (u :: rest))
    (hu : u.lexeme = .mark .comma ∨ u.lexeme = .mark .closeParen) :
    (param R).Agrees c (s :: t :: ts) (u :: rest) (s :: u :: rest') (u :: rest') := by
  have hmark {m : Mark} (hcomma : m ≠ .comma) (hclose : m ≠ .closeParen) :
      u.lexeme.isMark m = false := by
    obtain hu | hu := hu
    · rw [hu, Lexeme.isMark, decide_eq_false hcomma.symm]
    · rw [hu, Lexeme.isMark, decide_eq_false hclose.symm]
  have hnone (m : Mark) (hcomma : m ≠ .comma) (hclose : m ≠ .closeParen) (l : List Token) :
      acceptMark m c (u :: l) = .ok false (u :: l) := by
    rw [acceptMark_cons, hmark hcomma hclose]
    rfl
  have hquestion : (acceptMark .question).Agrees c (t :: ts) (t :: ts) (u :: rest')
    (u :: rest') := by
    refine ⟨false, ?_, hnone .question (by decide) (by decide) rest'⟩
    rw [acceptMark_cons, ht]
    rfl
  have hcolon : annotation R c (u :: rest') = .ok () (u :: rest') :=
    bind_eq_ok.mpr ⟨false, _, hnone .colon (by decide) (by decide) rest', rfl⟩
  have hvalue (l : List Token) : initializer R c (u :: l) = .ok none (u :: l) :=
    bind_eq_ok.mpr ⟨false, _, hnone .assign (by decide) (by decide) l, rfl⟩
  exact agrees_param (.inr ⟨name, hs⟩) hquestion (agrees_annotated ht htype hcolon)
    ⟨none, hvalue rest, hvalue rest'⟩

/-- Two inputs hold parameters that agree one after the other, up to a closing parenthesis that
    `rest` and `rest'` follow. -/
inductive ParamsAgree (R : Rules) (c : Context) (rest rest' : List Token) :
    List Token → List Token → Prop where
  | close {t : Token} (ht : t.lexeme = .mark .closeParen) :
    ParamsAgree R c rest rest' (t :: rest) (t :: rest')
  | last {s t : Token} {ts ts' : List Token} (hs : s.lexeme.isMark .closeParen = false)
    (ht : t.lexeme = .mark .closeParen)
    (hparam : (param R).Agrees c (s :: ts) (t :: rest) (s :: ts') (t :: rest')) :
    ParamsAgree R c rest rest' (s :: ts) (s :: ts')
  | comma {s t : Token} {ts mid ts' mid' : List Token} (hs : s.lexeme.isMark .closeParen = false)
    (ht : t.lexeme = .mark .comma)
    (hparam : (param R).Agrees c (s :: ts) (t :: mid) (s :: ts') (t :: mid'))
    (hmore : ParamsAgree R c rest rest' mid mid') :
    ParamsAgree R c rest rest' (s :: ts) (s :: ts')

/-- A parameter takes a token. -/
theorem length_param {o : Option Param} (h : R.Enough n) (hts : 4 * ts.length ≤ n + 1)
    (hparam : param R c ts = .ok o rest) : rest.length < ts.length := by
  have htakes := takes_param h hts (c := c) (a := 0)
  rw [Takes, hparam] at htakes
  obtain ⟨w, rfl, -, hw⟩ := htakes
  rw [List.length_append]
  exact Nat.lt_add_of_pos_left hw

/-- The loop over parameters that agree. -/
theorem ParamsAgree.loop (h : R.Enough n) (hparams : ParamsAgree R c rest rest' ts ts')
    (hts : 4 * ts.length ≤ n + 1) (hts' : 4 * ts'.length ≤ n + 1) (acc : List (Option Param)) :
    ∃ t : Token, t.lexeme = .mark .closeParen ∧
      (Parser.loop (listTurn .closeParen (param R)) acc).Agrees c ts (t :: rest) ts'
      (t :: rest') := by
  induction hparams generalizing acc with
  | close ht => exact ⟨_, ht, .loop_done (listTurn_close ht acc) (listTurn_close ht acc)⟩
  | last hs ht hparam =>
    obtain ⟨x, hx, hx'⟩ := hparam
    have hround := listTurn_item hs hx acc
    have hround' := listTurn_item hs hx' acc
    rw [ht] at hround hround'
    exact ⟨_, ht, .loop_done hround hround'⟩
  | comma hs ht hparam hmore ih =>
    obtain ⟨x, hx, hx'⟩ := hparam
    have hround := listTurn_item hs hx acc
    have hround' := listTurn_item hs hx' acc
    rw [ht] at hround hround'
    have hlen := length_param h hts hx
    have hlen' := length_param h hts' hx'
    rw [List.length_cons] at hlen hlen'
    obtain ⟨u, hu, hloop⟩ := ih (by omega) (by omega) (acc ++ [x])
    exact ⟨u, hu, .loop_again hround hround' (by omega) (by omega) hloop⟩

/-- The parameters of a function agree when they do so one by one. -/
theorem agrees_params (h : R.Enough n) {t : Token} (ht : t.lexeme = .mark .openParen)
    (hparams : ParamsAgree R c rest rest' ts ts') (hts : 4 * ts.length ≤ n + 1)
    (hts' : 4 * ts'.length ≤ n + 1) : (params R).Agrees c (t :: ts) rest (t :: ts') rest' := by
  obtain ⟨u, hu, hloop⟩ := hparams.loop h hts hts' []
  unfold params
  rw [listUntil_eq]
  refine .expectMark_bind ht ?_
  simp only [bind_assoc]
  exact .bind hloop fun _ => .expectMark_bind hu (.pure _)

/-! ## Declarations and functions -/

/-- A declaration agrees when its annotation and its value do. -/
theorem agrees_varDecl {kind : DeclKind} {s t : Token} {name : String} {value : Option Expr}
    (ht : t.lexeme.name? = some name) (htype : ( annotation R).Agrees c ts mid ts' mid')
    (hvalue : initializer R c mid = .ok value rest)
    (hvalue' : initializer R c mid' = .ok value rest')
    (hconst : kind = .constant → value.isSome) :
    (varDecl R kind).Agrees c (s :: t :: ts) rest (s :: t :: ts') rest' := by
  unfold varDecl
  refine .advance_bind (.expectName_bind ht (.bind htype fun _ => ?_))
  have hnone : (kind = .constant && value.isNone) = false := by
    cases value with
    | some e => simp
    | none =>
      have : kind ≠ .constant := fun h => by simpa using hconst h
      simp [this]
  refine ⟨⟨s.pos, kind, name, value⟩, ?_, ?_⟩
  · refine bind_eq_ok.mpr ⟨value, rest, hvalue, ?_⟩
    simp only [hnone]
    rfl
  · refine bind_eq_ok.mpr ⟨value, rest', hvalue', ?_⟩
    simp only [hnone]
    rfl

/-- Generic parameters, parameters, result type and statements of a function agree when each of them
    does. -/
theorem agrees_functionRest {pos : Position} {name : String} {isAsync : Bool}
    {u v u' v' : List Token} (hgenerics : (typeParams R).Agrees c ts u ts' u')
    (hparams : (params R).Agrees c u v u' v') (htype : ( annotation R).Agrees c v mid v' mid')
    (hbody : (functionBlock R isAsync).Agrees c mid rest mid' rest') :
    (functionRest R pos name isAsync).Agrees c ts rest ts' rest' :=
  .bind hgenerics fun _ => .bind hparams fun _ => .bind htype fun _ => .bind hbody fun _ => .pure _

/-- A method of an object agrees when its parameters, its result type and its statements do. -/
theorem agrees_property {s t : Token} (ht : t.lexeme = .mark .openParen)
    (hkey : propertyKey.Agrees c (s :: ts) (t :: mid) (s :: ts') (t :: mid'))
    {u u' : List Token} (hparams : (params R).Agrees c (t :: mid) u (t :: mid') u')
    (htype : ( annotation R).Agrees c u post u' post')
    (hbody : (functionBlock R false).Agrees c post rest post' rest') :
    (property R).Agrees c (s :: ts) rest (s :: ts') rest' := by
  refine .peek_bind (.bind hkey fun key => .acceptMark_miss (by rw [ht]; rfl) (.atMark_bind ?_))
  rw [isMark_of_eq ht]
  exact .bind hparams fun _ => .bind htype fun _ => .bind hbody fun _ => .pure _

/-- A function without a name agrees when its parts do. -/
theorem agrees_functionExpr {isAsync : Bool} {s t : Token} {u u' : List Token}
    (hs : s.lexeme = .keyword .functionWord) (ht : t.lexeme.name? = none)
    (hgenerics : (typeParams R).Agrees c (t :: ts) mid (t :: ts') mid')
    (hparams : (params R).Agrees c mid u mid' u')
    (htype : ( annotation R).Agrees c u post u' post')
    (hbody : (functionBlock R isAsync).Agrees c post rest post' rest') :
    (functionExpr R isAsync).Agrees c (s :: t :: ts) rest (s :: t :: ts') rest' := by
  refine .expectKeyword_bind hs (.peek_bind ?_)
  simp only [ht]
  exact .bind hgenerics fun _ => .bind hparams fun _ => .bind htype fun _ => .bind hbody fun _ =>
    .pure _

/-- A function with a name agrees when its parts do. -/
theorem agrees_functionExpr_named {isAsync : Bool} {s t : Token} {name : String} {u u' : List Token}
    (hs : s.lexeme = .keyword .functionWord) (ht : t.lexeme.name? = some name)
    (hgenerics : (typeParams R).Agrees c ts mid ts' mid')
    (hparams : (params R).Agrees c mid u mid' u')
    (htype : ( annotation R).Agrees c u post u' post')
    (hbody : (functionBlock R isAsync).Agrees c post rest post' rest') :
    (functionExpr R isAsync).Agrees c (s :: t :: ts) rest (s :: t :: ts') rest' := by
  refine .expectKeyword_bind hs (.peek_bind ?_)
  simp only [ht]
  refine .advance_bind ?_
  exact .bind hgenerics fun _ => .bind hparams fun _ => .bind htype fun _ => .bind hbody fun _ =>
    .pure _

/-! ## Arrow functions -/

/-- The head of an arrow function agrees when its parameters and its result type do. -/
theorem agrees_arrowHead {t : Token} (ht : t.lexeme = .mark .arrow) (hbreak : t.afterBreak = false)
    (hparams : (params R).Agrees c ts mid ts' mid')
    (htype : ( annotation R).Agrees c mid (t :: rest) mid' (t :: rest')) :
    (arrowHead R).Agrees c ts rest ts' rest' := by
  refine .bind hparams fun ps => .bind htype fun _ => .peek_bind ?_
  rw [isMark_of_eq ht, hbreak]
  exact .advance_bind (.pure ps)

/-- The parameters of an arrow function are those of its head, which is found behind an `async` that
    comes first. -/
theorem arrowParams_of_head {pre : List Token} (hpre : pre.length ≤ 1) {t : Token}
    (ht : t.lexeme = .mark .openParen) {ps : List Param}
    (hhead : arrowHead R c (t :: ts) = .ok ps rest) :
    arrowParams? R pre.length c (pre ++ t :: ts) = .ok (some ps) rest := by
  refine bind_eq_ok.mpr ⟨t, pre ++ t :: ts, ?_, ?_⟩
  · rw [peekAt, List.getElem?_append_right (Nat.le_refl _), Nat.sub_self]
    rfl
  · rw [ht]
    simp only [Lexeme.name?, Lexeme.isMark, decide_true, if_true]
    rw [speculate]
    cases pre with
    | nil => simp [hhead]
    | cons s l =>
      obtain rfl : l = [] := by
        rw [List.length_cons] at hpre
        exact List.length_eq_zero_iff.mp (by omega)
      simp [Bind.bind, advance, peek, peekAt, hhead]

theorem agrees_arrowParams_bind {β : Type} {f : Option (List Param) → Parser β} (pre : List Token)
    (hpre : pre.length ≤ 1) {t : Token} (ht : t.lexeme = .mark .openParen)
    (hhead : (arrowHead R).Agrees c (t :: ts) mid (t :: ts') mid')
    (hf : ∀ ps, (f (some ps)).Agrees c mid rest mid' rest') :
    (arrowParams? R pre.length >>= f).Agrees c (pre ++ t :: ts) rest (pre ++ t :: ts') rest' := by
  obtain ⟨ps, hps, hps'⟩ := hhead
  obtain ⟨y, hy, hy'⟩ := hf ps
  refine ⟨y, ?_, ?_⟩
  · exact bind_eq_ok.mpr ⟨some ps, mid, arrowParams_of_head hpre ht hps, hy⟩
  · exact bind_eq_ok.mpr ⟨some ps, mid', arrowParams_of_head hpre ht hps', hy'⟩

/-- An arrow function agrees when its head and its body do. -/
theorem agrees_arrow {t : Token} (ht : t.lexeme = .mark .openParen)
    (hhead : (arrowHead R).Agrees c (t :: ts) mid (t :: ts') mid')
    (hbody : (arrowBody R false).Agrees c mid rest mid' rest') :
    (arrow? R).Agrees c (t :: ts) rest (t :: ts') rest' := by
  refine .peek_bind ?_
  rw [ht]
  simp only [Lexeme.isKeyword, Bool.false_eq_true, if_false]
  exact agrees_arrowParams_bind [] (Nat.zero_le 1) ht hhead fun ps => .bind hbody fun _ => .pure _

/-- An asynchronous arrow function agrees when its head and its body do. -/
theorem agrees_asyncArrow {s t : Token} (hs : s.lexeme = .keyword .asyncWord)
    (ht : t.lexeme = .mark .openParen) (hbreak : t.afterBreak = false)
    (hhead : (arrowHead R).Agrees c (t :: ts) mid (t :: ts') mid')
    (hbody : (arrowBody R true).Agrees c mid rest mid' rest') :
    (arrow? R).Agrees c (s :: t :: ts) rest (s :: t :: ts') rest' := by
  refine .peek_bind ?_
  simp only [isKeyword_of_eq hs, if_true]
  refine .peekAt_one_bind ?_
  rw [hbreak, isMark_of_eq ht]
  exact agrees_arrowParams_bind [s] (Nat.le_refl 1) ht hhead fun ps => .bind hbody fun _ => .pure _

/-- The trial at `(a)` takes the parameters of the annotated function for those of a function type,
    and the branch behind the colon is gone. -/
example : (parse "x ? (a) : (b?) => d => e").isOk = true ∧
    (parse "x ? (a) : (b?: T) => d => e").isOk = false := by
  constructor
  · cbv
  · cbv

/-! ## Calls -/

/-- Type arguments before the parenthesis of a call agree with none. -/
theorem loop_callMember_typeArgs (h : R.Enough n) (hn : 4 * (ts.length + 1) ≤ n + 1) {e : Expr}
    (he : takesTypeArgs e) {s t t' : Token} (hs : s.lexeme = .mark .less)
    (ht : t.lexeme = .mark .openParen) (hbreak : t.afterBreak = false)
    (htypes : typeArgs R c (s :: ts) = .ok () (t :: mid))
    (hcall : (loop (callMemberTurn R) e).Agrees c (t :: mid) rest (t' :: mid') rest') :
    (loop (callMemberTurn R) e).Agrees c (s :: ts) rest (t' :: mid') rest' := by
  have hargs : callTypeArgs R c (s :: ts) = .ok () (t :: mid) := by
    refine bind_eq_ok.mpr ⟨(), t :: mid, htypes, ?_⟩
    refine bind_eq_ok.mpr ⟨t, t :: mid, rfl, ?_⟩
    rw [isMark_of_eq ht, hbreak]
    rfl
  have hturn : callMemberTurn R e c (s :: ts) = .ok (.again e) (t :: mid) := by
    refine bind_eq_ok.mpr ⟨s, s :: ts, rfl, ?_⟩
    rw [hs]
    simp only [he, if_true]
    refine bind_eq_ok.mpr ⟨some (), t :: mid, ?_, rfl⟩
    rw [speculate, hargs]
  have htakes : (typeArgs R).Takes c (s :: ts) 0 (fun _ => 0) fun _ => 1 := takes_typeArgs h hn
  rw [Takes, htypes] at htakes
  obtain ⟨w, hw, -, hpos⟩ := htakes
  obtain ⟨x, hx, hx'⟩ := hcall
  refine ⟨x, ?_, hx'⟩
  unfold loop at hx ⊢
  refine bind_eq_ok.mpr ⟨_, t :: mid, hturn, rounds_mono ?_ hx⟩
  have := congrArg List.length hw
  rw [List.length_append] at this
  have hpos : 1 ≤ w.length := hpos
  omega

end Grammar

end CoScript
