import CoScript.Proofs.Parse.Takes
import CoScript.Proofs.Tree.Positions
import CoScript.Tree.Parser
import Mathlib.Data.List.Forall2

/-!
# Two inputs read side by side

The tokens of two inputs stand for each other one by one. Which tokens may do so is a parameter, but
they have to say the same, so a parser that looks at lexemes and line breaks alone goes the same way
on both inputs: it gives results that match, or stops at tokens that stand for each other. Where one
side gives up because it was not allowed to go deep enough, nothing is said about the other.

Results:
* `Pairing`: which tokens may stand for each other.
* `Parser.Tracks`: a parser goes the same way as another one on paired inputs.
-/

namespace CoScript

open CoScript.Parser

/-- Which token of one input may stand for a token of another. Such tokens say the same, and `place`
    takes their positions to one place. -/
structure Pairing where
  token : Token → Token → Prop
  place : Position → Position
  lexeme_eq : ∀ {t t' : Token}, token t t' → t.lexeme = t'.lexeme
  afterBreak_eq : ∀ {t t' : Token}, token t t' → t.afterBreak = t'.afterBreak
  place_eq : ∀ {t t' : Token}, token t t' → place t.pos = place t'.pos

/-- A function does not tell two things apart. -/
abbrev SameBy {α β : Type} (g : α → β) (x x' : α) : Prop :=
  g x = g x'

/-- One more item on both sides. -/
theorem SameBy.snoc {α β : Type} {g : α → β} {xs xs' : List α} {x x' : α}
    (hxs : SameBy (List.map g) xs xs') (hx : SameBy g x x') :
    SameBy (List.map g) (xs ++ [x]) (xs' ++ [x']) := by
  simp only [SameBy, List.map_append, List.map_cons, List.map_nil] at hxs hx ⊢
  rw [hxs, hx]

/-- What does not change under the function is the same of both. -/
theorem SameBy.apply_eq {α β : Type} {g : α → α} {k : α → β} {x x' : α} (hx : SameBy g x x')
    (hk : ∀ x, k (g x) = k x) : k x = k x' := by
  rw [← hk x, hx, hk]

namespace Pairing

/-- Tokens that are the same on both sides, of which something holds. -/
def same (Q : Token → Prop) : Pairing where
  token t t' := t = t' ∧ Q t
  place := id
  lexeme_eq h := congrArg Token.lexeme h.1
  afterBreak_eq h := congrArg Token.afterBreak h.1
  place_eq h := congrArg Token.pos h.1

variable (P : Pairing)

/-- Two inputs end alike: at tokens for the end of the input that stand for each other, or at one
    error. -/
inductive Ends : Ending → Ending → Prop
  | complete {p p' : Position} (h : P.token (.endOfInput p) (.endOfInput p')) :
    Ends (.complete p) (.complete p')
  | broken (e : LexError) : Ends (.broken e) (.broken e)

/-- Expressions that match, up to positions. -/
abbrev expr : Expr → Expr → Prop := SameBy (·.mapPos P.place)

/-- Statements that match, up to positions. -/
abbrev stmt : Stmt → Stmt → Prop := SameBy (·.mapPos P.place)

/-- Blocks that match, up to positions. -/
abbrev block : Block → Block → Prop := SameBy (·.mapPos P.place)

/-- Parameters that match, up to positions. -/
abbrev params : List Param → List Param → Prop := SameBy (List.map (·.mapPos P.place))

end Pairing

variable {P : Pairing} {α β γ : Type}

/-- Two contexts that differ in how the tokens end at most. -/
def Context.Tracks (P : Pairing) (c c' : Context) : Prop :=
  ∃ e, P.Ends c.ending e ∧ c' = { c with ending := e }

/-- Two parsers end alike: with results that match and the same number of tokens left, with
    rejections at tokens that stand for each other, or with one lexical error. If the first one
    gives up, the second one may do anything. -/
inductive Outcome.Tracks (P : Pairing) (V : α → α → Prop) : Outcome α → Outcome α → Prop
  | ok {x x' : α} {rest rest' : List Token} (hx : V x x')
    (hrest : List.Forall₂ P.token rest rest') : Tracks P V (.ok x rest) (.ok x' rest')
  | rejected (expected : Expectation) {t t' : Token} (ht : P.token t t') :
    Tracks P V (.rejected ⟨expected, t.lexeme, t.pos⟩) (.rejected ⟨expected, t'.lexeme, t'.pos⟩)
  | broken (e : LexError) : Tracks P V (.broken e) (.broken e)
  | tooDeep (o : Outcome α) : Tracks P V .tooDeep o

/-- Two rounds of loops decide alike. -/
inductive Parser.Turn.Matches (V : α → α → Prop) : Turn α α → Turn α α → Prop
  | again {x x' : α} (h : V x x') : Matches V (.again x) (.again x')
  | done {x x' : α} (h : V x x') : Matches V (.done x) (.done x')

namespace Parser

/-- On inputs that stand for each other, in contexts that do, the second parser goes the same way as
    the first one, and its result matches that of the first one by `V`. -/
def Tracks (P : Pairing) (V : α → α → Prop) (p p' : Parser α) : Prop :=
  ∀ ⦃c c' : Context⦄ ⦃ts ts' : List Token⦄, c.Tracks P c' → List.Forall₂ P.token ts ts' →
    (p c ts).Tracks P V (p' c' ts')

namespace Tracks

variable {V : α → α → Prop} {W : β → β → Prop} {p p' : Parser α} {f f' : α → Parser β}

/-! ## Sequences -/

theorem pure {x x' : α} (h : V x x') : Tracks P V (Pure.pure x) (Pure.pure x') :=
  fun _ _ _ _ _ hts => .ok h hts

theorem mono {V' : α → α → Prop} (h : p.Tracks P V p') (hV : ∀ x x', V x x' → V' x x') :
    p.Tracks P V' p' := by
  intro c c' ts ts' hc hts
  have hp := h hc hts
  generalize p c ts = o, p' c' ts' = o' at hp ⊢
  cases hp with
  | ok hx hrest => exact .ok (hV _ _ hx) hrest
  | rejected expected ht => exact .rejected expected ht
  | broken e => exact .broken e
  | tooDeep => exact .tooDeep _

theorem bind (h : p.Tracks P V p') (hf : ∀ x x', V x x' → (f x).Tracks P W (f' x')) :
    (p >>= f).Tracks P W (p' >>= f') := by
  intro c c' ts ts' hc hts
  have hp := h hc hts
  simp only [Bind.bind]
  generalize p c ts = o, p' c' ts' = o' at hp ⊢
  cases hp with
  | ok hx hrest => exact hf _ _ hx hc hrest
  | rejected expected ht => exact .rejected expected ht
  | broken e => exact .broken e
  | tooDeep => exact .tooDeep _

/-- A sequence whose first part gives one result on both sides. -/
theorem bind_eq (h : p.Tracks P Eq p') (hf : ∀ x, (f x).Tracks P W (f' x)) :
    (p >>= f).Tracks P W (p' >>= f') :=
  h.bind fun x _ hx => hx ▸ hf x

theorem map {g : α → β} (h : p.Tracks P V p') (hg : ∀ x x', V x x' → W (g x) (g x')) :
    (g <$> p).Tracks P W (g <$> p') :=
  h.bind fun x x' hx => pure (hg x x' hx)

theorem some {g : α → γ} (h : p.Tracks P (SameBy g) p') :
    (some <$> p).Tracks P (SameBy (Option.map g)) (some <$> p') :=
  h.map fun _ _ hx => congrArg Option.some hx

theorem ite {b : Prop} [Decidable b] {q q' : Parser α} (h : b → p.Tracks P V p')
    (h' : ¬ b → q.Tracks P V q') : Tracks P V (if b then p else q) (if b then p' else q') := by
  split
  · exact h ‹_›
  · exact h' ‹_›

theorem within {g : Context → Context}
    (hg : ∀ c e, g { c with ending := e } = { g c with ending := e }) (h : p.Tracks P V p') :
    (within g p).Tracks P V (within g p') := by
  rintro c _ ts ts' ⟨e, he, rfl⟩ hts
  refine h ⟨e, ?_, hg c e⟩ hts
  have hsame : g c = { g c with ending := c.ending } := hg c c.ending
  have hending : (g c).ending = c.ending := (congrArg Context.ending hsame).trans rfl
  rwa [hending]

theorem context_bind {f f' : Context → Parser β}
    (h : ∀ c e, (f c).Tracks P W (f' { c with ending := e })) :
    (context >>= f).Tracks P W (context >>= f') := by
  rintro c _ ts ts' ⟨e, he, rfl⟩ hts
  exact h c e ⟨e, he, rfl⟩ hts

theorem tooDeep (q : Parser α) : Tracks P V tooDeep q :=
  fun _ _ _ _ _ _ => .tooDeep _

/-! ## Single tokens -/

theorem peekAt (n : ℕ) : (peekAt n).Tracks P P.token (peekAt n) := by
  rintro c _ ts ts' ⟨e, he, rfl⟩ hts
  unfold Parser.peekAt
  obtain ⟨t, t', ht, hn, hn'⟩ | ⟨hn, hn'⟩ : (∃ t t', P.token t t' ∧ ts[n]? = .some t ∧
      ts'[n]? = .some t') ∨ ts[n]? = none ∧ ts'[n]? = none := by
    induction hts generalizing n with
    | nil => exact .inr ⟨rfl, rfl⟩
    | @cons t t' r r' ht hr ih =>
      cases n with
      | zero => exact .inl ⟨t, t', ht, rfl, rfl⟩
      | succ n => exact ih n
  · rw [hn, hn']
    exact .ok ht hts
  · rw [hn, hn']
    generalize c.ending = e₀ at he
    cases he with
    | complete h => exact .ok h hts
    | broken e => exact .broken e

/-- A look at a token ahead: on the other side stands the same lexeme, and as much of a line
    break. -/
theorem peekAt_bind {n : ℕ} {f f' : Token → Parser β}
    (h : ∀ x b p p', P.token ⟨x, p, b⟩ ⟨x, p', b⟩ → (f ⟨x, p, b⟩).Tracks P W (f' ⟨x, p', b⟩)) :
    (Parser.peekAt n >>= f).Tracks P W (Parser.peekAt n >>= f') := by
  refine (peekAt n).bind ?_
  rintro ⟨x, p, b⟩ ⟨x', p', b'⟩ ht
  obtain rfl : x = x' := P.lexeme_eq ht
  obtain rfl : b = b' := P.afterBreak_eq ht
  exact h x b p p' ht

theorem peek_bind {f f' : Token → Parser β}
    (h : ∀ x b p p', P.token ⟨x, p, b⟩ ⟨x, p', b⟩ → (f ⟨x, p, b⟩).Tracks P W (f' ⟨x, p', b⟩)) :
    (peek >>= f).Tracks P W (peek >>= f') :=
  peekAt_bind h

theorem advance : advance.Tracks P P.token advance := by
  refine (peekAt 0).bind fun t t' ht => ?_
  intro c c' ts ts' _ hts
  exact .ok ht (List.forall₂_drop 1 hts)

theorem advance_bind {q q' : Parser β} (h : q.Tracks P W q') :
    (Parser.advance >>= fun _ => q).Tracks P W (Parser.advance >>= fun _ => q') :=
  advance.bind fun _ _ _ => h

theorem rejectAt {expected : Expectation} {t t' : Token} (ht : P.token t t') :
    (rejectAt expected t).Tracks P V (rejectAt expected t') :=
  fun _ _ _ _ _ _ => .rejected expected ht

theorem reject {expected : Expectation} : (reject expected).Tracks P V (reject expected) :=
  (peekAt 0).bind fun _ _ ht => rejectAt ht

theorem atMark {m : Mark} : (atMark m).Tracks P Eq (atMark m) :=
  peek_bind fun _ _ _ _ _ => pure rfl

theorem atKeyword {k : Keyword} : (atKeyword k).Tracks P Eq (atKeyword k) :=
  peek_bind fun _ _ _ _ _ => pure rfl

theorem acceptMark {m : Mark} : (acceptMark m).Tracks P Eq (acceptMark m) :=
  atMark.bind_eq fun _ => ite (fun _ => advance_bind (pure rfl)) fun _ => pure rfl

theorem acceptKeyword {k : Keyword} : (acceptKeyword k).Tracks P Eq (acceptKeyword k) :=
  atKeyword.bind_eq fun _ => ite (fun _ => advance_bind (pure rfl)) fun _ => pure rfl

/-- A mark, if it is next. -/
theorem acceptMark_bind {m : Mark} {f f' : Bool → Parser β}
    (ht : (f true).Tracks P W (f' true)) (hf : (f false).Tracks P W (f' false)) :
    (Parser.acceptMark m >>= f).Tracks P W (Parser.acceptMark m >>= f') := by
  refine acceptMark.bind_eq fun b => ?_
  cases b with
  | true => exact ht
  | false => exact hf

@[inherit_doc acceptMark_bind]
theorem acceptKeyword_bind {k : Keyword} {f f' : Bool → Parser β}
    (ht : (f true).Tracks P W (f' true)) (hf : (f false).Tracks P W (f' false)) :
    (Parser.acceptKeyword k >>= f).Tracks P W (Parser.acceptKeyword k >>= f') := by
  refine acceptKeyword.bind_eq fun b => ?_
  cases b with
  | true => exact ht
  | false => exact hf

theorem expectMark {m : Mark} : (expectMark m).Tracks P P.token (expectMark m) :=
  atMark.bind_eq fun _ => ite (fun _ => advance) fun _ => reject

theorem expectKeyword {k : Keyword} : (expectKeyword k).Tracks P P.token (expectKeyword k) :=
  atKeyword.bind_eq fun _ => ite (fun _ => advance) fun _ => reject

theorem expectMark_bind {m : Mark} {q q' : Parser β} (h : q.Tracks P W q') :
    (Parser.expectMark m >>= fun _ => q).Tracks P W (Parser.expectMark m >>= fun _ => q') :=
  expectMark.bind fun _ _ _ => h

theorem expectName : expectName.Tracks P Eq expectName := by
  refine peek_bind fun x b p p' ht => ?_
  dsimp only
  cases x.name? with
  | some name => exact advance_bind (pure rfl)
  | none => exact reject

theorem expectPropertyName : expectPropertyName.Tracks P Eq expectPropertyName := by
  refine peek_bind fun x b p p' ht => ?_
  dsimp only
  cases x.word? with
  | some name => exact advance_bind (pure rfl)
  | none => exact reject

theorem endStatement : endStatement.Tracks P Eq endStatement :=
  peek_bind fun _ _ _ _ _ => ite (fun _ => advance_bind (pure rfl)) fun _ =>
    ite (fun _ => pure rfl) fun _ => reject

/-! ## Trials and repetition -/

theorem speculate {g : α → γ} (h : p.Tracks P (SameBy g) p') :
    (speculate p).Tracks P (SameBy (Option.map g)) (speculate p') := by
  intro c c' ts ts' hc hts
  have hp := h hc hts
  unfold Parser.speculate
  generalize p c ts = o, p' c' ts' = o' at hp ⊢
  cases hp with
  | ok hx hrest => exact .ok (congrArg Option.some hx) hrest
  | rejected => exact .ok rfl hts
  | broken e => exact .broken e
  | tooDeep => exact .tooDeep _

theorem rounds {step step' : α → Parser (Turn α α)}
    (h : ∀ x x', V x x' → (step x).Tracks P (Turn.Matches V) (step' x')) (n : ℕ) {x x' : α}
    (hx : V x x') : (rounds step n x).Tracks P V (rounds step' n x') := by
  induction n generalizing x x' with
  | zero => exact tooDeep _
  | succ n ih =>
    refine (h x x' hx).bind fun turn turn' hturn => ?_
    cases hturn with
    | again hx => exact ih hx
    | done hx => exact pure hx

/-- Loops go the same way if their rounds do: on both sides as many tokens are left. -/
theorem loop {V : α → α → Prop} {step step' : α → Parser (Turn α α)} {x x' : α} (hx : V x x')
    (h : ∀ x x', V x x' → (step x).Tracks P (Turn.Matches V) (step' x')) :
    (loop step x).Tracks P V (loop step' x') := by
  intro c c' ts ts' hc hts
  have hrounds := rounds h (ts.length + 1) hx hc hts
  rw [hts.length_eq] at hrounds
  unfold Parser.loop
  rwa [hts.length_eq]

/-- Whether a list goes on after a comma. -/
theorem commaTurn {x x' : α} (hx : V x x') :
    Tracks P (Turn.Matches V)
      (Parser.acceptMark .comma >>= fun b => if b = true then Pure.pure (Turn.again x)
        else Pure.pure (Turn.done x))
      (Parser.acceptMark .comma >>= fun b => if b = true then Pure.pure (Turn.again x')
        else Pure.pure (Turn.done x')) :=
  acceptMark_bind (pure (.again hx)) (pure (.done hx))

theorem listUntil {close : Mark} {g : α → γ} (h : p.Tracks P (SameBy g) p') :
    (listUntil close p).Tracks P (SameBy (List.map g)) (listUntil close p') := by
  refine (loop (V := SameBy (List.map g)) rfl fun xs xs' hxs => ?_).bind fun xs xs' hxs =>
    expectMark_bind (pure hxs)
  refine atMark.bind_eq fun b => ite (fun _ => pure (.done hxs)) fun _ => ?_
  exact h.bind fun x x' hx => commaTurn (SameBy.snoc hxs hx)

theorem sepBy {g : α → γ} (h : p.Tracks P (SameBy g) p') :
    (sepBy p).Tracks P (SameBy (List.map g)) (sepBy p') :=
  loop rfl fun _ _ hxs => h.bind fun _ _ hx => commaTurn (SameBy.snoc hxs hx)

end Tracks

end Parser

/-- Rules that go the same way as others. -/
structure Rules.Tracks (P : Pairing) (R R' : Rules) : Prop where
  statement : R.statement.Tracks P P.stmt R'.statement
  assignment : R.assignment.Tracks P P.expr R'.assignment
  binary : ∀ level, (R.binary level).Tracks P P.expr (R'.binary level)
  unary : R.unary.Tracks P P.expr R'.unary
  construction : R.construction.Tracks P P.expr R'.construction
  type : R.type.Tracks P Eq R'.type

end CoScript
