import CoScript.Proofs.Parse.Formed
import CoScript.Proofs.Parse.Paired.Stmt
import CoScript.Proofs.Source.Splitting

/-!
# What a parser gives on the tokens of a text

Names, words and numbers come from the tokens, and each token of a text is a lexeme that can be
written. A parser takes tokens from the front, so the tokens that it leaves are tokens of the text
too. What it promises of its results is proved with one rule for each operation.

Results:
* `Lexeme.Known`: a lexeme that can be written, or the end of the input.
* `Parser.Gives`: what holds of every result of a parser on such lexemes.
* `Parser.Gives.bind`, `Parser.Gives.loop`, ...: a rule for each operation.
* `tokenize_known`: the tokens of a text are known.
-/

namespace CoScript

open CoScript.Parser

/-! ## Lexemes -/

/-- A lexeme that can be written, or the end of the input. -/
def Lexeme.Known (l : Lexeme) : Prop :=
  l = .endOfInput ∨ ∃ w, l.Written w

/-- Tokens with such lexemes. -/
def TokensKnown (ts : List Token) : Prop :=
  ∀ t ∈ ts, t.lexeme.Known

theorem tokensKnown_drop {ts : List Token} (h : TokensKnown ts) (n : ℕ) : TokensKnown (ts.drop n) :=
  fun t ht => h t (List.mem_of_mem_drop ht)

theorem tokensKnown_of_forall₂ {ts ts' : List Token}
    (h : List.Forall₂ (Pairing.same (·.lexeme.Known)).token ts ts') : TokensKnown ts := by
  induction h with
  | nil => exact fun _ ht => absurd ht List.not_mem_nil
  | cons ht _ ih => exact List.forall_mem_cons.mpr ⟨ht.2, ih⟩

namespace Lexeme.Known

variable {l : Lexeme}

/-- A lexeme that is a word is the lexeme of this word. -/
theorem word (h : l.Known) {s : String} (hs : l.word? = some s) :
    isWord s ∧ l = Lexer.wordLexeme s.toList := by
  obtain rfl | ⟨w, hw⟩ := h
  · cases hs
  · cases hw using Lexeme.Written.readAs with
    | word c r hc hr =>
      obtain rfl : s = String.ofList (c :: r) := by
        unfold Lexer.wordLexeme at hs
        cases hk : Keyword.ofText? (String.ofList (c :: r)) with
        | none =>
          simp only [hk] at hs
          exact (Option.some.inj hs).symm
        | some k =>
          simp only [hk] at hs
          exact (Option.some.inj hs).symm.trans (Keyword.text_of_ofText hk)
      refine ⟨?_, by rw [String.toList_ofList]⟩
      simp [isWord, hc, hr, Lexer.isNamePart]
    | _ => cases hs

/-- A lexeme that can be a name is the lexeme of this name. -/
theorem name (h : l.Known) {s : String} (hs : l.name? = some s) : isName s := by
  have hword : l.word? = some s := by
    revert hs
    cases l <;> simp [Lexeme.name?, Lexeme.word?]
  obtain ⟨hs', rfl⟩ := h.word hword
  simp [isName, hs', hs]

/-- A number is one that can be written. -/
theorem number {value : Float} (h : (Lexeme.number value).Known) :
    (Literal.number value).Formed := by
  obtain h | ⟨w, hw⟩ := h
  · cases h
  · generalize hl : Lexeme.number value = l at hw
    cases hw using Lexeme.Written.readAs with
    | word c r hc hr =>
      unfold Lexer.wordLexeme at hl
      dsimp only at hl
      split at hl <;> cases hl
    | number whole part hne hwhole hpart =>
      obtain rfl := Lexeme.number.inj hl
      exact ⟨whole, part, hne, hwhole, hpart, rfl⟩
    | _ => cases hl

end Lexeme.Known

/-- The tokens of a text are known. -/
theorem tokenize_known (source : String) : TokensKnown (tokenize source).list := by
  obtain ⟨ps, g, k, h⟩ := Splits.exists_splits source.toList
  have htokens := h.tokenize_eq
  have hwritten : ∀ p ∈ ps, ∃ w, p.lexeme.Written w := by
    clear htokens
    generalize source.toList = cs at h
    induction h with
    | last => simp
    | piece _ _ _ hlongest _ ih => exact List.forall_mem_cons.mpr ⟨⟨_, hlongest.written⟩, ih⟩
  intro t ht
  rw [htokens] at ht
  obtain ⟨i, hi, rfl⟩ := List.mem_mapIdx.mp ht
  exact .inr (hwritten _ (List.getElem_mem hi))

/-! ## Parsers -/

namespace Parser

variable {α β σ : Type} {c : Context}

/-- What holds after a round of a loop: `I` of a state that it goes on with, `P` of a result. -/
def Turn.Holds (I : σ → Prop) (P : α → Prop) : Turn σ α → Prop
  | .again s => I s
  | .done a => P a

/-- On known tokens every result of a parser satisfies `Q`, and the tokens that are left are
    known. -/
def Gives (p : Parser α) (c : Context) (Q : α → Prop) : Prop :=
  ∀ ts, TokensKnown ts → ∀ a rest, p c ts = .ok a rest → TokensKnown rest ∧ Q a

namespace Gives

variable {p : Parser α} {f : α → Parser β} {P : α → Prop} {Q : β → Prop}

theorem mono {P' : α → Prop} (h : p.Gives c P) (hP : ∀ a, P a → P' a) : p.Gives c P' :=
  fun ts hts a rest ha => ⟨(h ts hts a rest ha).1, hP a (h ts hts a rest ha).2⟩

/-- A parser that goes the same way on the same tokens leaves some of them. -/
theorem tracked {V : α → α → Prop} {p' : Parser α}
    (h : p.Tracks (.same (·.lexeme.Known)) V p') : p.Gives c fun _ => True := by
  intro ts hts a rest ha
  have hends : (Pairing.same (·.lexeme.Known)).Ends c.ending c.ending := by
    cases c.ending with
    | complete pos => exact .complete ⟨rfl, .inl rfl⟩
    | broken e => exact .broken e
  have hpaired : List.Forall₂ (Pairing.same (·.lexeme.Known)).token ts ts :=
    List.forall₂_same.mpr fun t ht => ⟨rfl, hts t ht⟩
  have hrun := h ⟨c.ending, hends, rfl⟩ hpaired
  rw [ha] at hrun
  generalize p' _ ts = o at hrun
  cases hrun with
  | ok _ hrest => exact ⟨tokensKnown_of_forall₂ hrest, trivial⟩

theorem pure {a : α} (h : P a) : (Pure.pure a : Parser α).Gives c P := by
  rintro ts hts _ rest ⟨⟩
  exact ⟨hts, h⟩

theorem bind (h : p.Gives c P) (hf : ∀ a, P a → (f a).Gives c Q) : (p >>= f).Gives c Q := by
  intro ts hts b rest hb
  obtain ⟨a, mid, ha, hb⟩ := bind_eq_ok.mp hb
  obtain ⟨hmid, hPa⟩ := h ts hts a mid ha
  exact hf a hPa mid hmid b rest hb

theorem map {g : α → β} (h : p.Gives c fun a => Q (g a)) : (g <$> p).Gives c Q :=
  bind h fun _ ha => pure ha

/-- Two parsers that go on in the same way. -/
theorem join {b : Prop} [Decidable b] {p' : Parser α} (h : p.Gives c P) (h' : p'.Gives c P)
    (hf : ∀ a, P a → (f a).Gives c Q) : (if b then p >>= f else p' >>= f).Gives c Q := by
  split
  · exact bind h hf
  · exact bind h' hf

/-- A parser before which another may come that does not matter. -/
theorem skip {b : Prop} [Decidable b] {q : Parser β} (h : p.Gives c P)
    (hq : q.Gives c Q) : (if b then p >>= fun _ => q else q).Gives c Q := by
  split
  · exact bind h fun _ _ => hq
  · exact hq

theorem within {g : Context → Context} (h : p.Gives (g c) P) : (within g p).Gives c P :=
  fun ts hts a rest ha => h ts hts a rest ha

theorem context : Parser.context.Gives c (· = c) := by
  rintro ts hts _ rest ⟨⟩
  exact ⟨hts, rfl⟩

theorem rejectAt {e : Expectation} {t : Token} : (rejectAt e t : Parser α).Gives c P := by
  rintro ts hts a rest ⟨⟩

theorem tooDeep : (tooDeep : Parser α).Gives c P := by
  rintro ts hts a rest ⟨⟩

/-! ### Single tokens -/

theorem peekAt {n : ℕ} : (peekAt n).Gives c (·.lexeme.Known) := by
  intro ts hts t rest ht
  unfold Parser.peekAt at ht
  cases hn : ts[n]? with
  | some s =>
    rw [hn] at ht
    obtain ⟨⟩ := ht
    exact ⟨hts, hts t (List.mem_of_getElem? hn)⟩
  | none =>
    rw [hn] at ht
    cases he : c.ending with
    | complete pos =>
      rw [he] at ht
      obtain ⟨⟩ := ht
      exact ⟨hts, .inl rfl⟩
    | broken e => simp [he] at ht

theorem peek : peek.Gives c (·.lexeme.Known) :=
  peekAt

theorem reject {e : Expectation} : (reject e : Parser α).Gives c P :=
  bind peek fun _ _ => rejectAt

theorem advance : advance.Gives c (·.lexeme.Known) := by
  refine bind peek fun t ht => ?_
  rintro ts hts _ rest ⟨⟩
  exact ⟨tokensKnown_drop hts 1, ht⟩

theorem atMark {m : Mark} : (atMark m).Gives c fun _ => True :=
  tracked .atMark

theorem atKeyword {k : Keyword} : (atKeyword k).Gives c fun _ => True :=
  tracked .atKeyword

theorem acceptMark {m : Mark} : (acceptMark m).Gives c fun _ => True :=
  tracked .acceptMark

theorem acceptKeyword {k : Keyword} : (acceptKeyword k).Gives c fun _ => True :=
  tracked .acceptKeyword

theorem expectMark {m : Mark} : (expectMark m).Gives c fun _ => True :=
  tracked .expectMark

theorem expectKeyword {k : Keyword} : (expectKeyword k).Gives c fun _ => True :=
  tracked .expectKeyword

theorem endStatement : endStatement.Gives c fun _ => True :=
  tracked .endStatement

theorem expectName : expectName.Gives c (isName · = true) := by
  refine bind peek fun t ht => ?_
  cases hname : t.lexeme.name? with
  | some name => exact bind advance fun _ _ => pure (ht.name hname)
  | none => exact reject

theorem expectPropertyName : expectPropertyName.Gives c (isWord · = true) := by
  refine bind peek fun t ht => ?_
  cases hword : t.lexeme.word? with
  | some word => exact bind advance fun _ _ => pure (ht.word hword).1
  | none => exact reject

/-! ### Trials and repetition -/

/-- What a trial gives is a result of the parser tried, or nothing. -/
theorem speculate (h : p.Gives c P) : (speculate p).Gives c fun o => ∀ a ∈ o, P a := by
  intro ts hts o rest ho
  unfold Parser.speculate at ho
  cases hp : p c ts with
  | ok a mid =>
    simp only [hp, Outcome.ok.injEq] at ho
    obtain ⟨rfl, rfl⟩ := ho
    simpa using h ts hts a mid hp
  | rejected e =>
    simp only [hp, Outcome.ok.injEq] at ho
    obtain ⟨rfl, rfl⟩ := ho
    exact ⟨hts, by simp⟩
  | _ => simp [hp] at ho

/-- An invariant that all rounds of a loop keep holds when it is done. -/
theorem rounds {step : σ → Parser (Turn σ α)} {I : σ → Prop}
    (h : ∀ s, I s → (step s).Gives c (Turn.Holds I P)) (n : ℕ) {s : σ} (hs : I s) :
    (rounds step n s).Gives c P := by
  induction n generalizing s with
  | zero => exact tooDeep
  | succ n ih =>
    refine bind (h s hs) fun turn hturn => ?_
    cases turn with
    | again s => exact ih hturn
    | done a => exact pure hturn

theorem loop {step : σ → Parser (Turn σ α)} {I : σ → Prop} {s : σ} (hs : I s)
    (h : ∀ s, I s → (step s).Gives c (Turn.Holds I P)) : (loop step s).Gives c P :=
  fun ts hts => rounds h (ts.length + 1) hs ts hts

/-- Lists grow by results of the parser for items. -/
theorem snoc {as : List α} {a : α} (has : ∀ a ∈ as, P a) (ha : P a) : ∀ b ∈ as ++ [a], P b := by
  intro b hb
  obtain hb | hb := List.mem_append.mp hb
  · exact has b hb
  · obtain rfl := List.mem_singleton.mp hb
    exact ha

theorem listUntil {close : Mark} (h : p.Gives c P) :
    (listUntil close p).Gives c fun as => ∀ a ∈ as, P a := by
  refine bind (loop (I := fun as => ∀ a ∈ as, P a) (by simp) fun as has => ?_) fun as has =>
    bind expectMark fun _ _ => pure has
  refine bind atMark fun b _ => ?_
  split
  · exact pure has
  · refine bind h fun a ha => bind acceptMark fun b _ => ?_
    split
    · exact pure (snoc has ha)
    · exact pure (snoc has ha)

theorem sepBy (h : p.Gives c P) : (sepBy p).Gives c fun as => ∀ a ∈ as, P a := by
  refine loop (I := fun as => ∀ a ∈ as, P a) (by simp) fun as has => ?_
  refine bind h fun a ha => bind acceptMark fun b _ => ?_
  split
  · exact pure (snoc has ha)
  · exact pure (snoc has ha)

end Gives

end Parser

end CoScript
