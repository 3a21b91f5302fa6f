import CoScript.Proofs.Parse.Takes
import CoScript.Proofs.Print.Legible

/-!
# Reading lexemes

A parser reads lexemes when it succeeds on every list of tokens that say them, whatever their
positions, and leaves what comes after them. The rules here follow the shape of a parser: a sequence
reads what its parts read, one after the other.

Results:
* `Parser.Reads`: a parser reads lexemes before others.
-/

namespace CoScript

open Shape

/-- Whether the tokens of a text end without a lexical error. -/
def Context.Complete (c : Context) : Prop :=
  ∃ pos, c.ending = .complete pos

namespace Parser

variable {α β σ : Type}

/-- A parser reads the lexemes `l` before the lexemes `k` and gives a result that satisfies `Q`. -/
def Reads (p : Parser α) (c : Context) (l k : List Shape) (Q : α → Prop) : Prop :=
  ∀ ts rest, ts.map Token.shape = l → rest.map Token.shape = k →
    ∃ x, p c (ts ++ rest) = .ok x rest ∧ Q x

/-- The shape of the next token is the first of the shapes. -/
theorem Ahead.shape_eq {ts : List Token} {l : List Shape} {n : ℕ} {t : Token}
    (h : ts[n]? = some t) (hts : ts.map Token.shape = l) : t.shape = firstOf (l.drop n) := by
  subst hts
  rw [← List.map_drop, firstOf]
  have hn : (ts.drop n).head? = some t := by rw [List.head?_drop, h]
  cases hd : ts.drop n with
  | nil => simp [hd] at hn
  | cons s r =>
    obtain rfl : s = t := by simpa [hd] using hn
    rfl

theorem peekAt_eq {c : Context} (hc : c.Complete) {ts : List Token} {l : List Shape} (n : ℕ)
    (hts : ts.map Token.shape = l) :
    ∃ t, peekAt n c ts = .ok t ts ∧ t.shape = firstOf (l.drop n) := by
  unfold peekAt
  cases hn : ts[n]? with
  | some t => exact ⟨t, rfl, Ahead.shape_eq hn hts⟩
  | none =>
    obtain ⟨pos, hpos⟩ := hc
    rw [hpos]
    refine ⟨_, rfl, ?_⟩
    have hlen : l.length ≤ n := by
      rw [← hts, List.length_map]
      exact List.getElem?_eq_none_iff.mp hn
    rw [List.drop_eq_nil_of_le hlen]
    rfl

namespace Reads

variable {p : Parser α} {f : α → Parser β} {c : Context} {l r k : List Shape}
variable {P : α → Prop} {Q : β → Prop}

theorem mono {P' : α → Prop} (h : p.Reads c l k P) (hP : ∀ x, P x → P' x) :
    p.Reads c l k P' := by
  intro ts rest hts hrest
  obtain ⟨x, hx, hP'⟩ := h ts rest hts hrest
  exact ⟨x, hx, hP x hP'⟩

theorem pure {x : α} (h : P x) : (Pure.pure x : Parser α).Reads c [] k P := by
  intro ts rest hts _
  obtain rfl := List.map_eq_nil_iff.mp hts
  exact ⟨x, rfl, h⟩

theorem bind (h : p.Reads c l (r ++ k) P) (hf : ∀ x, P x → (f x).Reads c r k Q) :
    (p >>= f).Reads c (l ++ r) k Q := by
  intro ts rest hts hrest
  obtain ⟨ts₁, ts₂, rfl, h₁, h₂⟩ := List.map_eq_append_iff.mp hts
  obtain ⟨x, hx, hPx⟩ := h ts₁ (ts₂ ++ rest) h₁ (by rw [List.map_append, h₂, hrest])
  obtain ⟨y, hy, hQy⟩ := hf x hPx ts₂ rest h₂ hrest
  refine ⟨y, ?_, hQy⟩
  simp only [Bind.bind, List.append_assoc, hx, hy]

/-- The first part of a sequence reads nothing. -/
theorem bind_nil (h : p.Reads c [] (l ++ k) P) (hf : ∀ x, P x → (f x).Reads c l k Q) :
    (p >>= f).Reads c l k Q :=
  bind (l := []) h hf

/-- The first part of a sequence reads everything. -/
theorem bind_all (h : p.Reads c l k P) (hf : ∀ x, P x → (f x).Reads c [] k Q) :
    (p >>= f).Reads c l k Q := by
  have := bind (r := []) h hf
  rwa [List.append_nil] at this

theorem map {g : α → β} (h : p.Reads c l k fun x => Q (g x)) : (g <$> p).Reads c l k Q :=
  bind_all h fun _ hx => pure hx

theorem within {g : Context → Context} (h : p.Reads (g c) l k P) :
    (within g p).Reads c l k P := h

theorem context_bind {f : Context → Parser β} (h : (f c).Reads c l k Q) :
    (context >>= f).Reads c l k Q := h

/-! ### Single tokens -/

theorem peekAt_bind (hc : c.Complete) {n : ℕ} {f : Token → Parser β}
    (hf : ∀ t, t.shape = firstOf ((l ++ k).drop n) → (f t).Reads c l k Q) :
    (peekAt n >>= f).Reads c l k Q := by
  intro ts rest hts hrest
  have hmap : (ts ++ rest).map Token.shape = l ++ k := by rw [List.map_append, hts, hrest]
  obtain ⟨t, ht, hshape⟩ := peekAt_eq hc n hmap
  obtain ⟨y, hy, hQy⟩ := hf t hshape ts rest hts hrest
  refine ⟨y, ?_, hQy⟩
  simp only [Bind.bind, ht, hy]

theorem peek_bind (hc : c.Complete) {f : Token → Parser β}
    (hf : ∀ t, t.shape = firstOf (l ++ k) → (f t).Reads c l k Q) :
    (peek >>= f).Reads c l k Q :=
  peekAt_bind hc hf

theorem advance_bind {s : Shape} {f : Token → Parser β}
    (hf : ∀ t, t.shape = s → (f t).Reads c l k Q) : (advance >>= f).Reads c (s :: l) k Q := by
  intro ts rest hts hrest
  obtain ⟨t, ts, rfl, ht, hts⟩ := List.map_eq_cons_iff.mp hts
  exact hf t ht ts rest hts hrest

theorem atMark_bind (hc : c.Complete) {m : Mark} {f : Bool → Parser β} (b : Bool)
    (hb : (firstOf (l ++ k)).lexeme.isMark m = b) (hf : (f b).Reads c l k Q) :
    (atMark m >>= f).Reads c l k Q := by
  simp only [atMark, bind_assoc, pure_bind]
  refine peek_bind hc fun t ht => ?_
  rw [show t.lexeme = (firstOf (l ++ k)).lexeme from congrArg Shape.lexeme ht, hb]
  exact hf

theorem atKeyword_bind (hc : c.Complete) {w : Keyword} {f : Bool → Parser β} (b : Bool)
    (hb : (firstOf (l ++ k)).lexeme.isKeyword w = b) (hf : (f b).Reads c l k Q) :
    (atKeyword w >>= f).Reads c l k Q := by
  simp only [atKeyword, bind_assoc, pure_bind]
  refine peek_bind hc fun t ht => ?_
  rw [show t.lexeme = (firstOf (l ++ k)).lexeme from congrArg Shape.lexeme ht, hb]
  exact hf

/-- A mark that is next is taken. -/
theorem acceptMark_hit (hc : c.Complete) {m : Mark} {b : Bool} {f : Bool → Parser β}
    (hf : (f true).Reads c l k Q) : (acceptMark m >>= f).Reads c (⟨.mark m, b⟩ :: l) k Q := by
  simp only [acceptMark, bind_assoc]
  refine atMark_bind hc true (by simp [firstOf, Lexeme.isMark]) ?_
  simp only [if_pos, bind_assoc, pure_bind]
  exact advance_bind fun _ _ => hf

theorem acceptMark_miss (hc : c.Complete) {m : Mark} {f : Bool → Parser β}
    (hm : (firstOf (l ++ k)).lexeme.isMark m = false) (hf : (f false).Reads c l k Q) :
    (acceptMark m >>= f).Reads c l k Q := by
  simp only [acceptMark, bind_assoc]
  refine atMark_bind hc false hm ?_
  simpa using hf

/-- A keyword that is next is taken. -/
theorem acceptKeyword_hit (hc : c.Complete) {w : Keyword} {b : Bool} {f : Bool → Parser β}
    (hf : (f true).Reads c l k Q) :
    (acceptKeyword w >>= f).Reads c (⟨.keyword w, b⟩ :: l) k Q := by
  simp only [acceptKeyword, bind_assoc]
  refine atKeyword_bind hc true (by simp [firstOf, Lexeme.isKeyword]) ?_
  simp only [if_pos, bind_assoc, pure_bind]
  exact advance_bind fun _ _ => hf

theorem acceptKeyword_miss (hc : c.Complete) {w : Keyword} {f : Bool → Parser β}
    (hw : (firstOf (l ++ k)).lexeme.isKeyword w = false) (hf : (f false).Reads c l k Q) :
    (acceptKeyword w >>= f).Reads c l k Q := by
  simp only [acceptKeyword, bind_assoc]
  refine atKeyword_bind hc false hw ?_
  simpa using hf

theorem expectMark_bind (hc : c.Complete) {m : Mark} {b : Bool} {f : Token → Parser β}
    (hf : ∀ t, (f t).Reads c l k Q) : (expectMark m >>= f).Reads c (⟨.mark m, b⟩ :: l) k Q := by
  simp only [expectMark, bind_assoc]
  refine atMark_bind hc true (by simp [firstOf, Lexeme.isMark]) ?_
  exact advance_bind fun t _ => hf t

theorem expectKeyword_bind (hc : c.Complete) {w : Keyword} {b : Bool} {f : Token → Parser β}
    (hf : ∀ t, (f t).Reads c l k Q) :
    (expectKeyword w >>= f).Reads c (⟨.keyword w, b⟩ :: l) k Q := by
  simp only [expectKeyword, bind_assoc]
  refine atKeyword_bind hc true (by simp [firstOf, Lexeme.isKeyword]) ?_
  exact advance_bind fun t _ => hf t

theorem expectName_bind (hc : c.Complete) {s : Shape} {name : String} {f : String → Parser β}
    (hs : s.lexeme.name? = some name) (hf : (f name).Reads c l k Q) :
    (expectName >>= f).Reads c (s :: l) k Q := by
  simp only [expectName, bind_assoc]
  refine peek_bind hc fun t ht => ?_
  have hname : t.lexeme.name? = some name := by
    rw [← hs]
    exact congrArg (fun s => s.lexeme.name?) ht
  rw [hname]
  simp only [bind_assoc, pure_bind]
  exact advance_bind fun _ _ => hf

theorem expectPropertyName_bind (hc : c.Complete) {s : Shape} {name : String}
    {f : String → Parser β} (hs : s.lexeme.word? = some name) (hf : (f name).Reads c l k Q) :
    (expectPropertyName >>= f).Reads c (s :: l) k Q := by
  simp only [expectPropertyName, bind_assoc]
  refine peek_bind hc fun t ht => ?_
  have hname : t.lexeme.word? = some name := by
    rw [← hs]
    exact congrArg (fun s => s.lexeme.word?) ht
  rw [hname]
  simp only [bind_assoc, pure_bind]
  exact advance_bind fun _ _ => hf

/-- A statement ends without a semicolon before a closing brace, on a new line or at the end. -/
theorem endStatement_bind (hc : c.Complete) {f : Unit → Parser β}
    (hsemi : (firstOf (l ++ k)).lexeme.isMark .semicolon = false)
    (hend : (firstOf (l ++ k)).lexeme.isMark .closeBrace ∨ (firstOf (l ++ k)).afterBreak)
    (hf : (f ()).Reads c l k Q) : (endStatement >>= f).Reads c l k Q := by
  simp only [endStatement, bind_assoc]
  refine peek_bind hc fun t ht => ?_
  have hl : t.lexeme = (firstOf (l ++ k)).lexeme := congrArg Shape.lexeme ht
  have hb : t.afterBreak = (firstOf (l ++ k)).afterBreak := congrArg Shape.afterBreak ht
  rw [hl, hb, hsemi]
  have hcond : ((firstOf (l ++ k)).lexeme.isMark .closeBrace || (firstOf (l ++ k)).lexeme.isEnd
      || (firstOf (l ++ k)).afterBreak) = true := by
    obtain h | h := hend
    · simp [h]
    · simp [h]
  simp only [Bool.false_eq_true, if_false, hcond, if_true]
  exact hf

/-! ### Trials -/

/-- A trial that succeeds gives its result. -/
theorem speculate_some (h : p.Reads c l k P) :
    (speculate p).Reads c l k fun o => ∃ x, o = some x ∧ P x := by
  intro ts rest hts hrest
  obtain ⟨x, hx, hP⟩ := h ts rest hts hrest
  refine ⟨some x, ?_, x, rfl, hP⟩
  simp only [speculate, hx]

/-- A trial that is rejected reads nothing. -/
theorem speculate_none (h : ∀ ts, ts.map Token.shape = k → ∃ e, p c ts = .rejected e) :
    (speculate p).Reads c [] k fun o => o = none := by
  intro ts rest hts hrest
  obtain rfl := List.map_eq_nil_iff.mp hts
  obtain ⟨e, he⟩ := h rest hrest
  refine ⟨none, ?_, rfl⟩
  simp only [speculate, List.nil_append, he]

/-! ### Repetition -/

/-- A round that reads something, and the rest of the loop. -/
theorem loop_again {step : σ → Parser (Turn σ α)} {s : σ} {I : σ → Prop} (hl : l ≠ [])
    (hstep : (step s).Reads c l (r ++ k) fun turn => ∃ s', turn = .again s' ∧ I s')
    (hloop : ∀ s', I s' → (loop step s').Reads c r k P) : (loop step s).Reads c (l ++ r) k P := by
  intro ts rest hts hrest
  obtain ⟨ts₁, ts₂, rfl, h₁, h₂⟩ := List.map_eq_append_iff.mp hts
  obtain ⟨_, hturn, s', rfl, hI⟩ := hstep ts₁ (ts₂ ++ rest) h₁ (by rw [List.map_append, h₂, hrest])
  obtain ⟨x, hx, hP⟩ := hloop s' hI ts₂ rest h₂ hrest
  refine ⟨x, ?_, hP⟩
  have hlen : 1 ≤ ts₁.length := by
    cases ts₁ with
    | nil => exact absurd h₁.symm hl
    | cons _ _ => exact Nat.le_add_left 1 _
  unfold loop at hx ⊢
  rw [List.append_assoc, rounds]
  refine bind_eq_ok.mpr ⟨_, _, hturn, rounds_mono ?_ hx⟩
  simp only [List.length_append]
  omega

/-- The last round of a loop. -/
theorem loop_done {step : σ → Parser (Turn σ α)} {s : σ}
    (hstep : (step s).Reads c l k fun turn => ∃ x, turn = .done x ∧ P x) :
    (loop step s).Reads c l k P := by
  intro ts rest hts hrest
  obtain ⟨_, hturn, x, rfl, hP⟩ := hstep ts rest hts hrest
  refine ⟨x, ?_, hP⟩
  unfold loop
  rw [rounds]
  exact bind_eq_ok.mpr ⟨_, _, hturn, rfl⟩

section Lists

variable {γ δ : Type} {item : Parser α} {v : α → δ} {w : γ → δ} {sh : γ → List Shape}

/-- What comes after the first item of a list. -/
theorem commas_cons_append (l : List Shape) (items : List (List Shape)) (k : List Shape) :
    commas (l :: items) ++ k = l ++ afterItem items k := by
  cases items with
  | nil => simp [commas, separated, afterItem]
  | cons i r => simp [commas, separated, afterItem]

/-- The items of a list are read one after the other. What comes after an item is known, and is no
    longer than what is left of the list. -/
def Items (item : Parser α) (c : Context) (sh : γ → List Shape) (v : α → δ) (w : γ → δ)
    (xs : List γ) (k : List Shape) : Prop :=
  ∀ x post, x :: post <:+ xs →
    (sh x ++ afterItem (post.map sh) k).length ≤ (commas (xs.map sh) ++ k).length →
    item.Reads c (sh x) (afterItem (post.map sh) k) fun a => v a = w x

theorem Items.head {x : γ} {xs : List γ} (h : Items item c sh v w (x :: xs) k) :
    item.Reads c (sh x) (afterItem (xs.map sh) k) fun a => v a = w x :=
  h x xs (List.suffix_refl _) (Nat.le_of_eq (by rw [List.map_cons, commas_cons_append]))

theorem Items.tail {x : γ} {xs : List γ} (h : Items item c sh v w (x :: xs) k) :
    Items item c sh v w xs k := by
  intro y post hy hlen
  refine h y post (hy.trans (List.suffix_cons _ _)) (Nat.le_trans hlen ?_)
  rw [List.map_cons, commas_cons_append, @List.length_append _ (sh x)]
  cases xs with
  | nil => simp [commas, separated, afterItem]
  | cons z xs =>
    simp only [afterItem, List.map_cons, List.isEmpty_cons, Bool.false_eq_true, if_false,
      List.length_append, List.length_cons]
    omega

/-- An item and the comma after it, if others follow. -/
theorem item_comma (hc : c.Complete) {x : γ} {xs : List γ} (acc : List α)
    (hk : (firstOf k).lexeme.isMark .comma = false) (h : Items item c sh v w (x :: xs) k) :
    Reads (do
      let items := acc ++ [← item]
      if ← acceptMark .comma then return Turn.again items else return .done items) c
      (sh x ++ if xs.isEmpty then [] else [mark .comma]) (commas (xs.map sh) ++ k) fun turn =>
        ∃ a, v a = w x ∧ turn = if xs.isEmpty then .done (acc ++ [a]) else .again (acc ++ [a]) := by
  have hhead := h.head
  cases xs with
  | nil =>
    simp only [List.isEmpty_nil, if_true, List.append_nil]
    refine bind_all hhead fun a ha => acceptMark_miss hc hk ?_
    exact pure ⟨a, ha, rfl⟩
  | cons y xs =>
    simp only [List.isEmpty_cons, Bool.false_eq_true, if_false]
    refine bind (P := fun a => v a = w x) ?_ fun a ha => acceptMark_hit hc (pure ⟨a, ha, rfl⟩)
    simpa [afterItem] using hhead

theorem commas_cons (l : List Shape) (items : List (List Shape)) :
    commas (l :: items) = l ++ (if items.isEmpty then [] else [mark .comma]) ++ commas items := by
  cases items with
  | nil => simp [commas, separated]
  | cons i r => simp [commas, separated]

/-- One item or more. -/
theorem sepItems (hc : c.Complete) (x : γ) (xs : List γ) (acc : List α) {ys : List δ}
    (hacc : acc.map v = ys) (hne : ∀ y ∈ x :: xs, sh y ≠ [])
    (hk : (firstOf k).lexeme.isMark .comma = false) (h : Items item c sh v w (x :: xs) k) :
    (Parser.loop (fun items : List α => do
      let items := items ++ [← item]
      if ← acceptMark .comma then return Turn.again items else return .done items) acc).Reads c
        (commas ((x :: xs).map sh)) k fun as => as.map v = ys ++ (x :: xs).map w := by
  induction xs generalizing x acc ys with
  | nil =>
    have hstep := item_comma hc acc hk h
    simp only [List.isEmpty_nil, if_true, List.append_nil] at hstep
    refine loop_done (hstep.mono ?_)
    rintro _ ⟨a, ha, rfl⟩
    exact ⟨_, rfl, by simp [hacc, ha]⟩
  | cons y xs ih =>
    have hstep := item_comma hc acc hk h
    simp only [List.isEmpty_cons, Bool.false_eq_true, if_false] at hstep
    rw [List.map_cons, commas_cons]
    simp only [List.map_cons, List.isEmpty_cons, Bool.false_eq_true, if_false]
    refine loop_again (I := fun as => as.map v = ys ++ [w x]) (by simp) (hstep.mono ?_)
      fun as has => ?_
    · rintro _ ⟨a, ha, rfl⟩
      exact ⟨_, rfl, by simp [hacc, ha]⟩
    · have := ih y _ has (fun z hz => hne z (List.mem_cons_of_mem _ hz)) h.tail
      simpa using this

theorem sepBy (hc : c.Complete) (x : γ) (xs : List γ) (hne : ∀ y ∈ x :: xs, sh y ≠ [])
    (hk : (firstOf k).lexeme.isMark .comma = false) (h : Items item c sh v w (x :: xs) k) :
    (Parser.sepBy item).Reads c (commas ((x :: xs).map sh)) k
      fun as => as.map v = (x :: xs).map w :=
  sepItems hc x xs [] rfl hne hk h

/-- Items before a closing mark, which stays. -/
theorem listItems (hc : c.Complete) {close : Mark} (xs : List γ) (acc : List α)
    {ys : List δ} (hacc : acc.map v = ys)
    (hne : ∀ x ∈ xs, ∃ s r, sh x = s :: r ∧ s.lexeme.isMark close = false)
    (hclose : (Lexeme.mark close).isMark .comma = false)
    (h : Items item c sh v w xs (mark close :: k)) :
    (Parser.loop (fun items : List α => do
      if ← atMark close then return Turn.done items
      let items := items ++ [← item]
      if ← acceptMark .comma then return .again items else return .done items) acc).Reads c
        (commas (xs.map sh)) (mark close :: k) fun as => as.map v = ys ++ xs.map w := by
  induction xs generalizing acc ys with
  | nil =>
    refine loop_done (atMark_bind hc true (by simp [commas, separated, firstOf, Lexeme.isMark]) ?_)
    exact pure ⟨acc, rfl, by simpa using hacc⟩
  | cons x xs ih =>
    obtain ⟨s, r, hx, hs⟩ := hne x (List.mem_cons_self ..)
    have hcomma : (firstOf (mark close :: k)).lexeme.isMark .comma = false := hclose
    have hstep := item_comma hc acc hcomma h
    cases xs with
    | nil =>
      simp only [List.isEmpty_nil, if_true, List.append_nil] at hstep
      refine loop_done (atMark_bind hc false (by simp [hx, commas, separated, firstOf, hs]) ?_)
      simp only [Bool.false_eq_true, if_false]
      refine hstep.mono ?_
      rintro _ ⟨a, ha, rfl⟩
      exact ⟨_, rfl, by simp [hacc, ha]⟩
    | cons y xs =>
      simp only [List.isEmpty_cons, Bool.false_eq_true, if_false] at hstep
      rw [List.map_cons, commas_cons]
      simp only [List.map_cons, List.isEmpty_cons, Bool.false_eq_true, if_false]
      refine loop_again (I := fun as => as.map v = ys ++ [w x]) (by simp) ?_ fun as has => ?_
      · refine atMark_bind hc false (by simp [hx, firstOf, hs]) ?_
        simp only [Bool.false_eq_true, if_false]
        refine hstep.mono ?_
        rintro _ ⟨a, ha, rfl⟩
        exact ⟨_, rfl, by simp [hacc, ha]⟩
      · have := ih _ has (fun z hz => hne z (List.mem_cons_of_mem _ hz)) h.tail
        simpa using this

/-- Items and the closing mark after them. -/
theorem listUntil (hc : c.Complete) {close : Mark} (xs : List γ)
    (hne : ∀ x ∈ xs, ∃ s r, sh x = s :: r ∧ s.lexeme.isMark close = false)
    (hclose : (Lexeme.mark close).isMark .comma = false)
    (h : Items item c sh v w xs (mark close :: k)) :
    (Parser.listUntil close item).Reads c (commas (xs.map sh) ++ [mark close]) k
      fun as => as.map v = xs.map w :=
  bind (listItems hc xs [] rfl hne hclose h) fun _ has =>
    expectMark_bind hc fun _ => pure has

end Lists

end Reads

end Parser

end CoScript
