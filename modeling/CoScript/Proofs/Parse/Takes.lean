import CoScript.Proofs.Parse.Turns

/-!
# What parsers take from the input

A parser that succeeds takes a word from the front of the input. The words of the grammar close
every bracket that they open, so the tokens up to a closing bracket do not depend on the parser that
reads them. A parser that is given enough depth for the tokens before it never gives up.

Results:
* `Balanced`: every bracket of a word is closed in it.
* `Balanced.eq_of_append_eq`: a balanced word up to a closing bracket is determined by the input.
* `Parser.Takes`: a parser does not give up, and what it takes from the input.
-/

namespace CoScript

/-! ## Brackets -/

namespace Lexeme

/-- Whether a lexeme opens a bracket. -/
def opens : Lexeme → Bool
  | .mark .openParen | .mark .openBracket | .mark .openBrace => true
  | _ => false

/-- Whether a lexeme closes a bracket. -/
def closes : Lexeme → Bool
  | .mark .closeParen | .mark .closeBracket | .mark .closeBrace => true
  | _ => false

/-- How many brackets are open after a lexeme, if it does not close one too many. -/
def nest (l : Lexeme) (a : ℕ) : Option ℕ :=
  if l.opens then some (a + 1)
  else if l.closes then if a = 0 then none else some (a - 1)
  else some a

end Lexeme

/-- How many brackets are open after a word, if it does not close one too many. -/
def nesting : ℕ → List Lexeme → Option ℕ
  | a, [] => some a
  | a, l :: r => (l.nest a).bind (nesting · r)

theorem nesting_append (a : ℕ) (l r : List Lexeme) :
    nesting a (l ++ r) = (nesting a l).bind (nesting · r) := by
  induction l generalizing a with
  | nil => rfl
  | cons x l ih =>
    rw [List.cons_append, nesting, nesting]
    cases x.nest a with
    | none => rfl
    | some b => exact ih b

/-- Every bracket of a word is closed in it, and none is closed that it does not open. -/
def Balanced (l : List Lexeme) : Prop :=
  nesting 0 l = some 0

namespace Balanced

/-- A balanced word up to a closing bracket is determined by the input. -/
theorem eq_of_append_eq {l r s t : List Lexeme} {x y : Lexeme} (hl : Balanced l)
    (hr : Balanced r) (hx : x.closes) (hy : y.closes) (h : l ++ x :: s = r ++ y :: t) :
    l = r := by
  -- a longer balanced word would have to close a bracket that it did not open
  have key {l r s : List Lexeme} {x : Lexeme} (hl : Balanced l) (hx : x.closes)
      (h : r = l ++ x :: s) : ¬ Balanced r := by
    subst h
    unfold Balanced
    rw [nesting_append, hl, Option.bind_some, nesting]
    have hopens : x.opens = false := by
      unfold Lexeme.closes at hx
      split at hx
      · rfl
      · rfl
      · rfl
      · simp at hx
    simp [Lexeme.nest, hopens, hx]
  obtain ⟨u, hu, hs⟩ | ⟨u, hu, ht⟩ := List.append_eq_append_iff.mp h
  · cases u with
    | nil => simpa using hu.symm
    | cons z u =>
      obtain ⟨rfl, -⟩ := List.cons.inj hs
      exact absurd hr (key hl hx hu)
  · cases u with
    | nil => simpa using hu
    | cons z u =>
      obtain ⟨rfl, -⟩ := List.cons.inj ht
      exact absurd hl (key hr hy hu)

end Balanced

/-! ## Taking words -/

variable {α β σ : Type}

/-- What a parser may end with on an input, where the tokens end in a given way: it takes a word
    with at least `I` of its result many tokens, after which `B` of its result many brackets are
    open if `a` were open before it; or it rejects the input, or it meets the error at the end of
    the tokens. It does not give up. -/
def Outcome.Takes (ending : Ending) (ts : List Token) (a : ℕ) (B I : α → ℕ) :
    Outcome α → Prop
  | .ok x rest =>
    ∃ w, ts = w ++ rest ∧ nesting a (w.map Token.lexeme) = some (B x) ∧ I x ≤ w.length
  | .rejected _ => True
  | .broken e => ending = .broken e
  | .tooDeep => False

namespace Parser

instance : LawfulMonad Parser :=
  .mk' Parser
    (fun p => by
      funext c ts
      simp only [Functor.map, Function.comp]
      cases p c ts with
      | _ => rfl)
    (fun _ _ => rfl)
    (fun p f g => by
      funext c ts
      simp only [Bind.bind]
      cases p c ts with
      | _ => rfl)

/-- What a parser takes from an input. -/
def Takes (p : Parser α) (c : Context) (ts : List Token) (a : ℕ) (B I : α → ℕ) : Prop :=
  (p c ts).Takes c.ending ts a B I

/-- How many tokens a round of a loop has to take: one, unless it is the last round. -/
def Turn.least : Turn σ α → ℕ
  | .again _ => 1
  | .done _ => 0

/-- How many brackets are open after a round of a loop. -/
def Turn.nest (N : σ → ℕ) (B : α → ℕ) : Turn σ α → ℕ
  | .again s => N s
  | .done x => B x

/-- `t` is the token `n` places ahead, or stands for the end of the input that is there. -/
def Ahead (ts : List Token) (n : ℕ) (t : Token) : Prop :=
  ts[n]? = some t ∨ ts[n]? = none ∧ t.lexeme = .endOfInput

theorem Ahead.eq_cons {ts : List Token} {t : Token} (h : Ahead ts 0 t)
    (ht : t.lexeme ≠ .endOfInput) : ∃ rest, ts = t :: rest := by
  obtain h | ⟨-, h⟩ := h
  · cases ts with
    | nil => simp at h
    | cons s rest =>
      obtain rfl : s = t := by simpa using h
      exact ⟨rest, rfl⟩
  · exact absurd h ht

theorem lexeme_of_isKeyword {l : Lexeme} {k : Keyword} (h : l.isKeyword k) : l = .keyword k := by
  unfold Lexeme.isKeyword at h
  split at h
  · obtain rfl := of_decide_eq_true h
    rfl
  · simp at h

theorem lexeme_of_isMark {l : Lexeme} {m : Mark} (h : l.isMark m) : l = .mark m := by
  unfold Lexeme.isMark at h
  split at h
  · obtain rfl := of_decide_eq_true h
    rfl
  · simp at h

/-- A sequence succeeds when both of its parts do. -/
theorem bind_eq_ok {p : Parser α} {f : α → Parser β} {c : Context} {ts rest : List Token} {y : β} :
    (p >>= f) c ts = .ok y rest ↔ ∃ x mid, p c ts = .ok x mid ∧ f x c mid = .ok y rest := by
  simp only [Bind.bind]
  cases p c ts with
  | ok x mid =>
    constructor
    · exact fun h => ⟨x, mid, rfl, h⟩
    · rintro ⟨_, _, ⟨⟩, h⟩
      exact h
  | _ => simp

/-- A sequence gives up where its first part does. -/
theorem bind_tooDeep {p : Parser α} {f : α → Parser β} {c : Context} {ts : List Token}
    (h : p c ts = .tooDeep) : (p >>= f) c ts = .tooDeep := by
  simp only [Bind.bind, h]

theorem peek_eq_ok {c : Context} {ts rest : List Token} {t : Token}
    (h : peek c ts = .ok t rest) : rest = ts ∧ Ahead ts 0 t := by
  unfold peek peekAt at h
  cases hn : ts[0]? with
  | some s =>
    rw [hn] at h
    obtain ⟨⟩ := h
    exact ⟨rfl, .inl hn⟩
  | none =>
    rw [hn] at h
    cases he : c.ending with
    | complete pos =>
      rw [he] at h
      obtain ⟨⟩ := h
      exact ⟨rfl, .inr ⟨hn, rfl⟩⟩
    | broken e => simp [he] at h

theorem expectMark_eq_ok {m : Mark} {c : Context} {ts rest : List Token} {t : Token}
    (h : expectMark m c ts = .ok t rest) : ts = t :: rest ∧ t.lexeme = .mark m := by
  unfold expectMark atMark at h
  simp only [bind_assoc, pure_bind] at h
  obtain ⟨s, mid, hpeek, hs⟩ := bind_eq_ok.mp h
  obtain ⟨rfl, hs'⟩ := peek_eq_ok hpeek
  split at hs
  · rename_i hm
    have hl := lexeme_of_isMark hm
    obtain ⟨r, rfl⟩ := hs'.eq_cons (by rw [hl]; simp)
    obtain ⟨⟩ := hs
    exact ⟨rfl, hl⟩
  · obtain ⟨_, _, _, hs⟩ := bind_eq_ok.mp hs
    simp [rejectAt] at hs

theorem acceptMark_eq_ok {m : Mark} {c : Context} {ts rest : List Token} {b : Bool}
    (h : acceptMark m c ts = .ok b rest) :
    (b = true ∧ ∃ t, ts = t :: rest ∧ t.lexeme = .mark m) ∨ (b = false ∧ rest = ts) := by
  unfold acceptMark atMark at h
  simp only [bind_assoc, pure_bind] at h
  obtain ⟨s, mid, hpeek, hs⟩ := bind_eq_ok.mp h
  obtain ⟨rfl, hs'⟩ := peek_eq_ok hpeek
  split at hs
  · rename_i hm
    have hl := lexeme_of_isMark hm
    obtain ⟨r, rfl⟩ := hs'.eq_cons (by rw [hl]; simp)
    obtain ⟨⟩ := hs
    exact .inl ⟨rfl, s, rfl, hl⟩
  · obtain ⟨⟩ := hs
    exact .inr ⟨rfl, rfl⟩

/-- More rounds than a loop needs do not change what it does. -/
theorem rounds_mono {step : σ → Parser (Turn σ α)} {n m : ℕ} (hnm : n ≤ m) {s : σ}
    {c : Context} {ts rest : List Token} {x : α} (h : rounds step n s c ts = .ok x rest) :
    rounds step m s c ts = .ok x rest := by
  induction n generalizing m s ts with
  | zero => simp [rounds, tooDeep] at h
  | succ n ih =>
    obtain ⟨m, rfl⟩ : ∃ m', m = m' + 1 := ⟨m - 1, by omega⟩
    rw [rounds] at h ⊢
    obtain ⟨turn, mid, hstep, hturn⟩ := bind_eq_ok.mp h
    refine bind_eq_ok.mpr ⟨turn, mid, hstep, ?_⟩
    cases turn with
    | again s' => exact ih (by omega) hturn
    | done y => exact hturn

namespace Takes

variable {p : Parser α} {f : α → Parser β} {c : Context} {ts : List Token} {a : ℕ}
variable {B I : α → ℕ} {B' I' : β → ℕ}

theorem mono {J : α → ℕ} (h : p.Takes c ts a B I) (hJ : ∀ x, J x ≤ I x) :
    p.Takes c ts a B J := by
  unfold Takes at h ⊢
  cases hp : p c ts with
  | ok x rest =>
    rw [hp] at h
    obtain ⟨w, hw, hn, hi⟩ := h
    exact ⟨w, hw, hn, Nat.le_trans (hJ x) hi⟩
  | _ => rwa [hp] at h

theorem pure {x : α} (hb : B x = a) (hi : I x = 0) : (Pure.pure x : Parser α).Takes c ts a B I :=
  ⟨[], rfl, by rw [hb]; rfl, by rw [hi]; exact Nat.le_refl 0⟩

theorem bind_of (h : p.Takes c ts a B I)
    (hf : ∀ x rest, p c ts = .ok x rest → rest.length + I x ≤ ts.length →
      (f x).Takes c rest (B x) B' fun y => I' y - I x) :
    (p >>= f).Takes c ts a B' I' := by
  unfold Takes at h ⊢
  simp only [Bind.bind]
  cases hp : p c ts with
  | ok x mid =>
    rw [hp] at h
    obtain ⟨w, rfl, hn, hi⟩ := h
    have hrest := hf x mid hp (by rw [List.length_append]; omega)
    unfold Takes at hrest
    dsimp only
    cases hfx : f x c mid with
    | ok y rest =>
      rw [hfx] at hrest
      obtain ⟨v, rfl, hn', hi'⟩ := hrest
      dsimp only at hi'
      refine ⟨w ++ v, by rw [List.append_assoc], ?_, ?_⟩
      · rw [List.map_append, nesting_append, hn, Option.bind_some, hn']
      · rw [List.length_append]
        omega
    | _ => rwa [hfx] at hrest
  | _ => rwa [hp] at h

theorem bind (h : p.Takes c ts a B I)
    (hf : ∀ x rest, rest.length + I x ≤ ts.length →
      (f x).Takes c rest (B x) B' fun y => I' y - I x) :
    (p >>= f).Takes c ts a B' I' :=
  bind_of h fun x rest _ => hf x rest

theorem map {g : α → β} (h : p.Takes c ts a B I) (hB : ∀ x, B' (g x) = B x)
    (hI : ∀ x, I' (g x) ≤ I x) : (g <$> p).Takes c ts a B' I' :=
  bind h fun x _ _ => pure (hB x) (by have := hI x; omega)

/-- Two parsers that go on in the same way. -/
theorem join {b : Prop} [Decidable b] {p' : Parser α} (h : b → p.Takes c ts a B I)
    (h' : ¬ b → p'.Takes c ts a B I)
    (hf : ∀ x rest, rest.length + I x ≤ ts.length →
      (f x).Takes c rest (B x) B' fun y => I' y - I x) :
    (if b then p >>= f else p' >>= f).Takes c ts a B' I' := by
  split
  · exact bind (h ‹_›) hf
  · exact bind (h' ‹_›) hf

/-- A parser before which another may come. -/
theorem skip {b : Prop} [Decidable b] {q : Parser β} (h : b → p.Takes c ts a (fun _ => a) I)
    (hq : ∀ rest, rest.length ≤ ts.length → q.Takes c rest a B' I') :
    (if b then p >>= fun _ => q else q).Takes c ts a B' I' := by
  split
  · exact bind (h ‹_›) fun x rest hr => (hq rest (by omega)).mono fun _ => Nat.sub_le _ _
  · exact hq ts (Nat.le_refl _)

theorem within {g : Context → Context} (hg : (g c).ending = c.ending)
    (h : p.Takes (g c) ts a B I) : (within g p).Takes c ts a B I := by
  unfold Takes at h
  rwa [hg] at h

theorem context : Parser.context.Takes c ts a (fun _ => a) fun _ => 0 :=
  ⟨[], rfl, rfl, Nat.le_refl _⟩

theorem context_bind {f : Context → Parser β} (h : (f c).Takes c ts a B' I') :
    (Parser.context >>= f).Takes c ts a B' I' := h

theorem rejectAt {e : Expectation} {t : Token} : (rejectAt e t : Parser α).Takes c ts a B I :=
  trivial

/-! ### Single tokens -/

theorem peekAt_bind {n : ℕ} {f : Token → Parser β}
    (hf : ∀ t, Ahead ts n t → (f t).Takes c ts a B' I') :
    (peekAt n >>= f).Takes c ts a B' I' := by
  simp only [Takes, Bind.bind, Parser.peekAt]
  cases hn : ts[n]? with
  | some t => exact hf t (.inl hn)
  | none =>
    cases he : c.ending with
    | complete pos =>
      have := hf (.endOfInput pos) (.inr ⟨hn, rfl⟩)
      rwa [Takes, he] at this
    | broken e => rfl

theorem peek_bind {f : Token → Parser β} (hf : ∀ t, Ahead ts 0 t → (f t).Takes c ts a B' I') :
    (peek >>= f).Takes c ts a B' I' :=
  peekAt_bind hf

theorem reject {e : Expectation} : (reject e : Parser α).Takes c ts a B I :=
  peek_bind fun _ _ => rejectAt

/-- A known token is taken. -/
theorem advance_bind {t : Token} {f : Token → Parser β} {b : ℕ} (ht : Ahead ts 0 t)
    (hend : t.lexeme ≠ .endOfInput) (hb : t.lexeme.nest a = some b)
    (hf : ∀ rest, ts = t :: rest → (f t).Takes c rest b B' fun y => I' y - 1) :
    (advance >>= f).Takes c ts a B' I' := by
  obtain ⟨rest, rfl⟩ := ht.eq_cons hend
  have hrest := hf rest rfl
  have h : (advance >>= f) c (t :: rest) = f t c rest := rfl
  unfold Takes at hrest ⊢
  rw [h]
  cases hf : f t c rest with
  | ok y rest' =>
    rw [hf] at hrest
    obtain ⟨v, rfl, hn, hi⟩ := hrest
    dsimp only at hi
    refine ⟨t :: v, rfl, ?_, by rw [List.length_cons]; omega⟩
    rw [List.map_cons, nesting, hb, Option.bind_some, hn]
  | _ => rwa [hf] at hrest

/-- A known token is taken, and one token less is left. -/
theorem advance_shorter {t : Token} {f : Token → Parser β} {b : ℕ} (ht : Ahead ts 0 t)
    (hend : t.lexeme ≠ .endOfInput) (hb : t.lexeme.nest a = some b)
    (hf : ∀ rest, rest.length + 1 = ts.length → (f t).Takes c rest b B' fun y => I' y - 1) :
    (advance >>= f).Takes c ts a B' I' :=
  advance_bind ht hend hb fun rest hrest => hf rest (by rw [hrest, List.length_cons])

/-- A token is taken whose lexeme is known. -/
theorem advance_lexeme {t : Token} {l : Lexeme} {f : Token → Parser β} {b : ℕ} (ht : Ahead ts 0 t)
    (hl : t.lexeme = l) (hend : l ≠ .endOfInput) (hb : l.nest a = some b)
    (hf : ∀ rest, rest.length + 1 = ts.length → (f t).Takes c rest b B' fun y => I' y - 1) :
    (advance >>= f).Takes c ts a B' I' := by
  subst hl
  exact advance_shorter ht hend hb hf

/-- Taking the next token where it does not matter which one it is. -/
theorem advance_any (h : ∀ t, Ahead ts 0 t → t.lexeme.nest a = some a) :
    advance.Takes c ts a (fun _ => a) fun _ => 0 := by
  refine peek_bind fun t ht => ?_
  cases ts with
  | nil => exact ⟨[], rfl, rfl, Nat.le_refl _⟩
  | cons s rest =>
    obtain rfl : s = t := by simpa [Ahead] using ht
    refine ⟨[s], rfl, ?_, Nat.zero_le _⟩
    rw [List.map_cons, nesting, h s ht]
    rfl

/-- A mark, if it is next. -/
theorem acceptMark_bind {m : Mark} {f : Bool → Parser β} {b : ℕ}
    (hb : (Lexeme.mark m).nest a = some b)
    (ht : ∀ rest, rest.length + 1 = ts.length → (f true).Takes c rest b B' fun y => I' y - 1)
    (hf : (f false).Takes c ts a B' I') : (acceptMark m >>= f).Takes c ts a B' I' := by
  have h : (acceptMark m >>= f) = (peek >>= fun t =>
      if t.lexeme.isMark m then advance >>= fun _ => f true else f false) := by
    simp only [acceptMark, atMark, bind_assoc, pure_bind]
    congr 1
    funext t
    split <;> simp
  rw [h]
  refine peek_bind fun t hnext => ?_
  split
  · rename_i hm
    have hl := lexeme_of_isMark hm
    exact advance_lexeme hnext hl nofun hb ht
  · exact hf

/-- A look at the next token that tells whether it is a mark. -/
theorem atMark_bind {m : Mark} {f : Bool → Parser β}
    (hf : ∀ b, (b = true → 1 ≤ ts.length) → (f b).Takes c ts a B' I') :
    (atMark m >>= f).Takes c ts a B' I' := by
  simp only [atMark, bind_assoc, pure_bind]
  refine peek_bind fun t ht => hf _ fun hm => ?_
  obtain ⟨rest, rfl⟩ := ht.eq_cons (by rintro hl; simp [hl, Lexeme.isMark] at hm)
  exact Nat.le_add_left 1 _

@[inherit_doc atMark_bind]
theorem atKeyword_bind {k : Keyword} {f : Bool → Parser β}
    (hf : ∀ b, (b = true → 1 ≤ ts.length) → (f b).Takes c ts a B' I') :
    (atKeyword k >>= f).Takes c ts a B' I' := by
  simp only [atKeyword, bind_assoc, pure_bind]
  refine peek_bind fun t ht => hf _ fun hk => ?_
  obtain ⟨rest, rfl⟩ := ht.eq_cons (by rintro hl; simp [hl, Lexeme.isKeyword] at hk)
  exact Nat.le_add_left 1 _

theorem nest_keyword (k : Keyword) (a : ℕ) : (Lexeme.keyword k).nest a = some a := rfl

/-- A keyword, if it is next. -/
theorem acceptKeyword_bind {k : Keyword} {f : Bool → Parser β}
    (ht : ∀ rest, rest.length + 1 = ts.length → (f true).Takes c rest a B' fun y => I' y - 1)
    (hf : (f false).Takes c ts a B' I') : (acceptKeyword k >>= f).Takes c ts a B' I' := by
  have h : (acceptKeyword k >>= f) = (peek >>= fun t =>
      if t.lexeme.isKeyword k then advance >>= fun _ => f true else f false) := by
    simp only [acceptKeyword, atKeyword, bind_assoc, pure_bind]
    congr 1
    funext t
    split <;> simp
  rw [h]
  refine peek_bind fun t hnext => ?_
  split
  · rename_i hk
    have hl := lexeme_of_isKeyword hk
    exact advance_lexeme hnext hl nofun (nest_keyword k a) ht
  · exact hf

theorem expectMark {m : Mark} {b : ℕ} (hb : (Lexeme.mark m).nest a = some b) :
    (expectMark m).Takes c ts a (fun _ => b) fun _ => 1 := by
  unfold Parser.expectMark atMark
  simp only [bind_assoc, pure_bind]
  refine peek_bind fun t hnext => ?_
  split
  · rename_i hm
    have hl := lexeme_of_isMark hm
    rw [← bind_pure advance]
    exact advance_lexeme hnext hl nofun hb fun _ _ => pure rfl rfl
  · exact reject

theorem expectKeyword {k : Keyword} :
    (expectKeyword k).Takes c ts a (fun _ => a) fun _ => 1 := by
  unfold Parser.expectKeyword atKeyword
  simp only [bind_assoc, pure_bind]
  refine peek_bind fun t hnext => ?_
  split
  · rename_i hk
    have hl := lexeme_of_isKeyword hk
    rw [← bind_pure advance]
    exact advance_lexeme hnext hl nofun (nest_keyword k a) fun _ _ => pure rfl rfl
  · exact reject

/-- A word of any kind is neither the end of the input nor a bracket. -/
theorem nest_of_word {l : Lexeme} {s : String} (h : l.word? = some s) (a : ℕ) :
    l ≠ .endOfInput ∧ l.nest a = some a := by
  unfold Lexeme.word? at h
  split at h
  · exact ⟨by simp, rfl⟩
  · exact ⟨by simp, rfl⟩
  · simp at h

theorem word_of_name {l : Lexeme} {s : String} (h : l.name? = some s) : l.word? = some s := by
  unfold Lexeme.name? at h
  split at h
  · exact h
  · split at h
    · exact h
    · simp at h
  · simp at h

theorem expectName : expectName.Takes c ts a (fun _ => a) fun _ => 1 := by
  refine peek_bind fun t hnext => ?_
  split
  · rename_i name hname
    obtain ⟨hend, hb⟩ := nest_of_word (word_of_name hname) a
    exact advance_bind hnext hend hb fun rest _ => pure rfl rfl
  · exact reject

theorem expectPropertyName : expectPropertyName.Takes c ts a (fun _ => a) fun _ => 1 := by
  refine peek_bind fun t hnext => ?_
  split
  · rename_i name hname
    obtain ⟨hend, hb⟩ := nest_of_word hname a
    exact advance_bind hnext hend hb fun rest _ => pure rfl rfl
  · exact reject

theorem endStatement : endStatement.Takes c ts a (fun _ => a) fun _ => 0 := by
  refine peek_bind fun t hnext => ?_
  split
  · rename_i hm
    have hl := lexeme_of_isMark hm
    exact advance_lexeme hnext hl nofun rfl fun _ _ => pure rfl rfl
  · split
    · exact pure rfl rfl
    · exact reject

/-! ### Repetition -/

/-- A trial takes what the parser tried takes, or nothing. -/
theorem speculate (h : p.Takes c ts a (fun _ => a) I) :
    (speculate p).Takes c ts a (fun _ => a) fun o => o.elim 0 I := by
  unfold Takes at h ⊢
  unfold Parser.speculate
  cases hp : p c ts with
  | ok x mid => rwa [hp] at h
  | rejected e => exact ⟨[], rfl, rfl, Nat.le_refl _⟩
  | _ => rwa [hp] at h

/-- A round that takes a token in any case takes as many as it has to. -/
theorem least {p : Parser (Turn σ α)} {B : Turn σ α → ℕ} (h : p.Takes c ts a B fun _ => 1) :
    p.Takes c ts a B Turn.least := by
  refine h.mono fun turn => ?_
  cases turn with
  | again _ => exact Nat.le_refl 1
  | done _ => exact Nat.zero_le 1

/-- A loop takes what its rounds take; a round that another one follows takes a token. -/
theorem rounds {step : σ → Parser (Turn σ α)} {N : σ → ℕ} {n : ℕ} {s : σ} (hn : ts.length < n)
    (h : ∀ s rest, rest.length ≤ ts.length → (step s).Takes c rest (N s)
      (Turn.nest N B) Turn.least) :
    (rounds step n s).Takes c ts (N s) B fun _ => 0 := by
  induction n generalizing ts s with
  | zero => omega
  | succ n ih =>
    refine bind (h s ts (Nat.le_refl _)) fun turn rest hr => ?_
    cases turn with
    | again s' =>
      simp only [Turn.least] at hr
      refine (ih (by omega) fun s rest' hr' => h s rest' (by omega)).mono fun _ => by omega
    | done x => exact pure rfl (by omega)

theorem loop {step : σ → Parser (Turn σ α)} {N : σ → ℕ} {s : σ} (hs : N s = a)
    (h : ∀ s rest, rest.length ≤ ts.length → (step s).Takes c rest (N s)
      (Turn.nest N B) Turn.least) :
    (loop step s).Takes c ts a B fun _ => 0 := by
  subst hs
  exact rounds (Nat.lt_succ_self _) h

/-- The result of a loop is that of its last round. -/
theorem rounds_last {step : σ → Parser (Turn σ α)} {n : ℕ} {s : σ} {x : α} {rest : List Token}
    (h : Parser.rounds step n s c ts = .ok x rest) :
    ∃ s mid, step s c mid = .ok (.done x) rest := by
  induction n generalizing ts s with
  | zero => simp [Parser.rounds, tooDeep] at h
  | succ n ih =>
    simp only [Parser.rounds, Bind.bind] at h
    cases hstep : step s c ts with
    | ok turn mid =>
      rw [hstep] at h
      cases turn with
      | again s' => exact ih h
      | done y =>
        obtain ⟨⟩ := h
        exact ⟨s, ts, hstep⟩
    | _ => simp [hstep] at h

/-- An item of a list takes a token, and so does a round that reads it. -/
theorem listTurn (close : Mark) {item : Parser α} {items : List α}
    (h : item.Takes c ts a (fun _ => a) fun _ => 1) :
    (listTurn close item items).Takes c ts a (Turn.nest (fun _ => a) fun _ => a) Turn.least := by
  refine atMark_bind fun b _ => ?_
  split
  · exact pure rfl rfl
  · refine bind h fun x rest' _ => acceptMark_bind (b := a) rfl (fun _ _ => ?_) ?_
    · exact pure rfl rfl
    · exact pure rfl rfl

@[inherit_doc listTurn]
theorem sepTurn {item : Parser α} {items : List α}
    (h : item.Takes c ts a (fun _ => a) fun _ => 1) :
    (sepTurn item items).Takes c ts a (Turn.nest (fun _ => a) fun _ => a) Turn.least := by
  refine bind h fun x rest' _ => acceptMark_bind (b := a) rfl (fun _ _ => ?_) ?_
  · exact pure rfl rfl
  · exact pure rfl rfl

/-- Items of at least one token each, between commas, before a closing mark. -/
theorem listItems (close : Mark) {item : Parser α}
    (h : ∀ rest, rest.length ≤ ts.length → item.Takes c rest a (fun _ => a) fun _ => 1) :
    (Parser.loop (Parser.listTurn close item) []).Takes c ts a (fun _ => a) fun _ => 0 :=
  loop (N := fun _ => a) rfl fun _ rest hr => listTurn close (h rest hr)

/-- Items of at least one token each, between commas up to a closing mark. -/
theorem listUntil {close : Mark} {item : Parser α} {b : ℕ}
    (hclose : (Lexeme.mark close).nest a = some b)
    (h : ∀ rest, rest.length ≤ ts.length → item.Takes c rest a (fun _ => a) fun _ => 1) :
    (listUntil close item).Takes c ts a (fun _ => b) fun _ => 1 := by
  rw [listUntil_eq]
  exact bind (listItems close h) fun _ _ _ => bind (expectMark hclose) fun _ _ _ => pure rfl rfl

theorem sepBy {item : Parser α}
    (h : ∀ rest, rest.length ≤ ts.length → item.Takes c rest a (fun _ => a) fun _ => 1) :
    (sepBy item).Takes c ts a (fun _ => a) fun _ => 0 := by
  rw [sepBy_eq]
  exact loop (N := fun _ => a) rfl fun _ rest hr => sepTurn (h rest hr)

end Takes

end Parser

end CoScript
