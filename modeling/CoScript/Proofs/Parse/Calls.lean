import CoScript.Proofs.Parse.Unbounded

/-!
# The parser ends

The rules without a depth could go on forever in two ways: by a loop with a round that takes no
token, or by rules that call each other at one place. There is neither. A round of a loop that is
not the last one takes a token. A rule that calls another one at the same token calls one of lower
rank, so a call weighs less than the call that makes it, and the calls that are made one inside the
other are at most five for each token and for the end of the input.

One call makes another one if it gives up where that one does; a trial does not hide this, as giving
up cannot be taken back.

Results:
* `Call.Makes`, `Call.Makes.weight_lt`: the calls that a call makes weigh less.
* `Grammar.Turns.progress`: rounds of loops take tokens.
* `Program.ofTokens_ends`: the parser ends on every sequence of tokens.
-/

namespace CoScript

open CoScript.Parser

/-! ## Calls -/

/-- A rule that is called in a context, with an input. -/
structure Call where
  rule : Rule
  context : Context
  input : List Token

open Classical in
/-- The rules that give up at one call and are as before at all others. -/
noncomputable def Rules.without (R : Rules) (k : Call) : Rules :=
  .ofRule fun r c ts => if (⟨r, c, ts⟩ : Call) = k then .tooDeep else R.rule r c ts

theorem Rules.rule_without (R : Rules) {k : Call} {r : Rule} {c : Context} {ts : List Token}
    (h : (⟨r, c, ts⟩ : Call) ≠ k) : (R.without k).rule r c ts = R.rule r c ts :=
  (rule_ofRule_apply _ r c ts).trans (if_neg h)

theorem Rules.rule_without_self (R : Rules) (r : Rule) (c : Context) (ts : List Token) :
    (R.without ⟨r, c, ts⟩).rule r c ts = .tooDeep :=
  (rule_ofRule_apply _ r c ts).trans (if_pos rfl)

namespace Call

/-- How many calls may be made inside a call, one inside the other. -/
def weight (k : Call) : ℕ :=
  4 * k.input.length + k.rule.rank

/-- The body of one call makes another call: it gives up if that one does. -/
def Makes (k k' : Call) : Prop :=
  (Rules.unbounded.without k').next.rule k.rule k.context k.input = .tooDeep

/-- The parser of a program makes a call. -/
def Starts (k : Call) (tokens : Tokens) : Prop :=
  Grammar.program (Rules.unbounded.without k) (.topLevel tokens.ending) tokens.list = .tooDeep

variable {k k' : Call} {ks : List Call}

/-- Without a call, the rules are still enough for all calls that weigh less. -/
theorem enough_without (k : Call) : (Rules.unbounded.without k).Enough (k.weight - 1) := by
  refine Rules.enough_of_rule fun r c ts a hconstruction hts => ?_
  have hne : (⟨r, c, ts⟩ : Call) ≠ k := by
    rintro rfl
    simp only [weight] at hts
    cases r with
    | construction =>
      have := hconstruction rfl
      omega
    | _ => simp only [Rule.rank] at hts; omega
  unfold Takes
  rw [Rules.rule_without _ hne]
  exact Rules.takes_unbounded r c ts a

/-- A call weighs less than the call that makes it. -/
theorem Makes.weight_lt (h : k.Makes k') : k'.weight < k.weight := by
  refine Nat.lt_of_not_le fun hle => ?_
  exact (Rules.takes_next (enough_without k') k.rule k.context 0 (by
    simp only [weight] at hle ⊢
    omega)).ne_tooDeep h

/-- A call has no more tokens before it than the call that makes it. -/
theorem Makes.input_le (h : k.Makes k') : k'.input.length ≤ k.input.length := by
  have hlt := h.weight_lt
  have hrank := k.rule.rank_le
  simp only [weight] at hlt
  omega

theorem Starts.weight_le {tokens : Tokens} (h : k.Starts tokens) :
    k.weight ≤ 4 * tokens.list.length + 4 := by
  refine Nat.le_of_not_lt fun hlt => ?_
  exact (Grammar.takes_program (a := 0) (enough_without k) (by omega)).ne_tooDeep h

/-- A chain of calls, each of which makes the next one, is no longer than its first call allows. -/
theorem chain_length {w : ℕ} (h : (k :: ks).IsChain Makes)
    (hw : ∀ k' ∈ k :: ks, w ≤ k'.weight) : ks.length + w ≤ k.weight := by
  induction ks generalizing k with
  | nil => simpa using hw k (by simp)
  | cons k' ks ih =>
    obtain ⟨hmakes, hrest⟩ := List.isChain_cons_cons.mp h
    have hlt := hmakes.weight_lt
    have := ih hrest fun x hx => hw x (List.mem_cons_of_mem _ hx)
    rw [List.length_cons]
    omega

/-- Calls made one inside the other that take no token are five at most. -/
theorem chain_length_same {n : ℕ} (h : ks.IsChain Makes) (hn : ∀ k ∈ ks, k.input.length = n) :
    ks.length ≤ 5 := by
  cases ks with
  | nil => simp
  | cons k ks =>
    have hlength := chain_length (w := 4 * n) h fun k' hk' => by
      simp only [weight, hn k' hk']
      omega
    have hrank := k.rule.rank_le
    simp only [weight, hn k (by simp)] at hlength
    rw [List.length_cons]
    omega

/-- Five calls at one token: those that a statement makes that starts with `new new`. -/
theorem chain_same_new : ∃ (ts : List Token) (ks : List Call), ks.IsChain Makes ∧
    (∀ k ∈ ks, k.input = ts) ∧ ks.length = 5 := by
  let t : Token := ⟨.keyword .newWord, .start, false⟩
  let c : Context := .topLevel (.complete .start)
  let R (k : Call) := Rules.unbounded.without k
  have hstatement : Makes ⟨.statement, c, [t, t]⟩ ⟨.assignment, c, [t, t]⟩ := by
    change ((R _).assignment >>= fun value => endStatement >>= fun _ =>
      pure (Stmt.expr .start value)) c [t, t] = _
    exact bind_tooDeep (Rules.rule_without_self _ .assignment c [t, t])
  have hassignment : Makes ⟨.assignment, c, [t, t]⟩ ⟨.binary 1, c, [t, t]⟩ := by
    have hconditional : Grammar.conditional (R ⟨.binary 1, c, [t, t]⟩) c [t, t] = .tooDeep :=
      bind_tooDeep (Rules.rule_without_self _ (.binary 1) c [t, t])
    exact bind_tooDeep (p := Grammar.conditional (R ⟨.binary 1, c, [t, t]⟩)) hconditional
  have hbinary : Makes ⟨.binary 1, c, [t, t]⟩ ⟨.unary, c, [t, t]⟩ :=
    bind_tooDeep (Rules.rule_without_self _ .unary c [t, t])
  have hunary : Makes ⟨.unary, c, [t, t]⟩ ⟨.construction, c, [t, t]⟩ := by
    change Grammar.postfixExpr (R _) c [t, t] = _
    refine bind_tooDeep ?_
    change ((R _).construction >>= loop (Grammar.callMemberTurn (R _))) c [t, t] = _
    exact bind_tooDeep (Rules.rule_without_self _ .construction c [t, t])
  exact ⟨[t, t], [⟨.statement, c, [t, t]⟩, ⟨.assignment, c, [t, t]⟩, ⟨.binary 1, c, [t, t]⟩,
    ⟨.unary, c, [t, t]⟩, ⟨.construction, c, [t, t]⟩], .cons_cons hstatement <|
    .cons_cons hassignment <| .cons_cons hbinary <| .cons_cons hunary (.singleton _), by simp, rfl⟩

end Call

/-! ## Rounds of loops -/

/-- A round of a loop does not give up, and takes a token if another round follows it. -/
theorem Grammar.Turns.progress {σ α : Type} {step : σ → Parser (Turn σ α)}
    (h : Turns .unbounded step) (s : σ) (c : Context) (ts : List Token) :
    step s c ts ≠ .tooDeep ∧
      ∀ s' rest, step s c ts = .ok (.again s') rest → rest.length < ts.length := by
  have henough := Rules.enough_unbounded (4 * ts.length + 4)
  obtain ⟨a, B, htakes⟩ : ∃ a B, (step s).Takes c ts a B Turn.least := by
    cases h with
    | typeArgs => exact ⟨0, _, .sepTurn (henough.type c ts 0 (by omega))⟩
    | dottedTail => exact ⟨0, _, takes_dottedTurn s⟩
    | functionType => exact ⟨0, _, .listTurn _ (takes_functionTypeParam henough (by omega))⟩
    | typeParams => exact ⟨0, _, takes_typeParamTurn henough s (by omega)⟩
    | params => exact ⟨0, _, .listTurn _ (takes_param henough (by omega))⟩
    | objectType => exact ⟨0, _, takes_typeMemberTurn henough s (by omega)⟩
    | tupleType => exact ⟨0, _, .listTurn _ (henough.type c ts 0 (by omega))⟩
    | postfixType => exact ⟨0, _, takes_arrayTurn⟩
    | intersectionType =>
      exact ⟨0, _, .least (takes_joinedTurn rfl (takes_postfixType henough (by omega)))⟩
    | type =>
      exact ⟨0, _, .least (takes_joinedTurn rfl (takes_joined rfl fun rest hr =>
        takes_postfixType henough (by omega)))⟩
    | block => exact ⟨0, _, takes_blockTurn henough (by omega)⟩
    | args => exact ⟨0, _, .listTurn _ (henough.assignment c ts 0 (by omega))⟩
    | array => exact ⟨0, _, .listTurn _ (henough.assignment c ts 0 (by omega))⟩
    | object => exact ⟨0, _, .listTurn _ (takes_property henough (by omega))⟩
    | construction => exact ⟨0, _, takes_classTurn⟩
    | callMember => exact ⟨0, _, takes_callMemberTurn henough (by omega)⟩
    | binary level => exact ⟨0, _, takes_binaryTurn henough level (by omega)⟩
    | skipModifiers => exact ⟨0, _, takes_modifierTurn⟩
    | classBody => exact ⟨1, _, takes_memberTurn henough (by omega)⟩
    | typeRefs => exact ⟨0, _, .sepTurn (takes_typeRef henough (by omega))⟩
    | importBindings => exact ⟨0, _, .listTurn _ takes_importedName⟩
    | switchCase => exact ⟨0, _, takes_clauseTurn henough (by omega)⟩
    | switchStmt => exact ⟨1, _, takes_switchTurn henough (by omega)⟩
    | program => exact ⟨0, _, takes_programTurn henough (by omega)⟩
  refine ⟨htakes.ne_tooDeep, fun s' rest hstep => ?_⟩
  unfold Takes at htakes
  rw [hstep] at htakes
  obtain ⟨w, rfl, -, hw⟩ := htakes
  simp only [Turn.least] at hw
  rw [List.length_append]
  omega

/-! ## Programs -/

/-- The parser of programs ends on every sequence of tokens: with a program, a rejection or the
    lexical error at the end of the tokens. The rules it consists of call each other without a
    depth. Each round of a loop takes a token, is the last one or fails; calls that are made one
    inside the other and take no token are five at most, and all calls that are made one inside the
    other are at most four for each token and five more. -/
theorem Program.ofTokens_ends :
    (∀ tokens : Tokens, (∃ p, ofTokens tokens = .ok p) ∨
      (∃ e, ofTokens tokens = .error (.grammatical e)) ∨
      ∃ e, tokens.ending = .broken e ∧ ofTokens tokens = .error (.lexical e)) ∧
    (∀ tokens : Tokens,
      Grammar.program (.ofDepth (depthFor tokens.list.length))
        (.topLevel tokens.ending) tokens.list =
        Grammar.program .unbounded (.topLevel tokens.ending) tokens.list) ∧
    Rules.unbounded.next = .unbounded ∧
    (∀ (σ α : Type) (step : σ → Parser (Turn σ α)), Grammar.Turns .unbounded step →
      ∀ s c ts, step s c ts ≠ .tooDeep ∧
        ∀ s' rest, step s c ts = .ok (.again s') rest → rest.length < ts.length) ∧
    (∀ k k' : Call, k.Makes k' → k'.input.length ≤ k.input.length) ∧
    (∀ (n : ℕ) (ks : List Call), ks.IsChain Call.Makes → (∀ k ∈ ks, k.input.length = n) →
      ks.length ≤ 5) ∧
    ∀ (tokens : Tokens) (k : Call) (ks : List Call), k.Starts tokens →
      (k :: ks).IsChain Call.Makes → (k :: ks).length ≤ 4 * tokens.list.length + 5 := by
  refine ⟨fun tokens => ?_, fun tokens => Grammar.program_ofDepth (Nat.le_refl _),
    Rules.next_unbounded, fun _ _ _ hstep => hstep.progress, fun _ _ h => h.input_le,
    fun _ _ => Call.chain_length_same, fun tokens k ks hk hks => ?_⟩
  · obtain ⟨p, _, -, h⟩ | ⟨e, -, h⟩ | ⟨e, he, -, h⟩ := ofTokens_cases tokens
    · exact .inl ⟨p, h⟩
    · exact .inr (.inl ⟨e, h⟩)
    · exact .inr (.inr ⟨e, he, h⟩)
  · have hlength := Call.chain_length (w := 0) hks fun _ _ => Nat.zero_le _
    have hweight := hk.weight_le
    rw [List.length_cons]
    omega

end CoScript
