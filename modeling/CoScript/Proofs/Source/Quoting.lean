import CoScript.Proofs.Source.Splitting
import CoScript.Store.Render

/-!
# Quoted strings in a text

A quoted string at the start of a text is read as that string and ends with its closing quote,
whatever comes after it: no escape takes the quote with it, and no line break stands before it. The
rest of the text is then read as it is read alone, with its first line moved to the right.

Results:
* `Splits.quote`: a quoted string is the first lexeme of a text that starts with it.
* `Splits.tokens_behind`: the tokens of a text that is moved to the right.
* `tokenize_quote_append`: the tokens of a text that starts with a quoted string.
-/

namespace CoScript

open Lexer

/-! ## Moving to the right -/

/-- The place that a place of a text becomes when `n` characters come before the text, on its first
    line. -/
def Position.behind (p : Position) (n : ℕ) : Position :=
  if p.line = 1 then ⟨1, n + p.column⟩ else p

/-- A token with its place moved. -/
def Token.behind (t : Token) (n : ℕ) : Token :=
  { t with pos := t.pos.behind n }

/-- An error with its place moved. -/
def LexError.behind (e : LexError) (n : ℕ) : LexError :=
  { e with pos := e.pos.behind n }

/-- An end with its place moved. -/
def Ending.behind (n : ℕ) : Ending → Ending
  | .complete pos => .complete (pos.behind n)
  | .broken e => .broken (e.behind n)

variable {w : List Char}

namespace Position

variable {p : Position}

theorem next_behind (hp : 0 < p.line) (n : ℕ) (c : Char) :
    (p.behind n).next c = (p.next c).behind n := by
  by_cases hc : c = '\n'
  · have hline : p.line + 1 ≠ 1 := by omega
    by_cases hfirst : p.line = 1
    · simp [behind, next, hc, hfirst]
    · simp only [behind, next, hc, hfirst, hline, if_true, if_false]
  · by_cases hfirst : p.line = 1 <;> simp [behind, next, hc, hfirst, Nat.add_assoc]

theorem after_behind (hp : 0 < p.line) (n : ℕ) (cs : List Char) :
    (p.behind n).after cs = (p.after cs).behind n := by
  induction cs generalizing p with
  | nil => rfl
  | cons c cs ih =>
    have hnext : 0 < (p.next c).line := by
      unfold next
      split
      · exact Nat.succ_pos _
      · exact hp
    change ((p.behind n).next c).after cs = ((p.next c).after cs).behind n
    rw [next_behind hp, ih hnext]

/-- Characters without a line break take one column each. -/
theorem after_line (hw : '\n' ∉ w) (p : Position) :
    p.after w = ⟨p.line, w.length + p.column⟩ := by
  induction w generalizing p with
  | nil => simp [after]
  | cons c w ih =>
    rw [List.mem_cons, not_or] at hw
    change (p.next c).after w = _
    rw [ih hw.2, next, if_neg (Ne.symm hw.1)]
    simp only [List.length_cons, Nat.add_assoc, Nat.add_comm 1]

/-- Characters without a line break move the first line of what comes after them. -/
theorem ofPrefix_append (hw : '\n' ∉ w) (cs : List Char) :
    ofPrefix (w ++ cs) = (ofPrefix cs).behind w.length := by
  have hstart : start.after w = start.behind w.length := after_line hw start
  rw [← after_start, ← after_start, after_append, hstart, after_behind Nat.one_pos]

end Position

/-- The lexemes of a text behind characters of one line are its tokens, moved. -/
theorem Piece.tokens_append (hw : '\n' ∉ w) (before : List Char) (ps : List Piece) :
    tokens (w ++ before) ps = (tokens before ps).map (·.behind w.length) := by
  induction ps generalizing before with
  | nil => rfl
  | cons p ps ih =>
    simp only [tokens_cons, List.map_cons, List.append_assoc, ih]
    rw [Position.ofPrefix_append hw]
    rfl

theorem Ending.after_append (hw : '\n' ∉ w) (before k : List Char) :
    after (w ++ before) k = (after before k).behind w.length := by
  cases k with
  | nil => exact congrArg Ending.complete (Position.ofPrefix_append hw before)
  | cons c r =>
    exact congrArg (fun pos => Ending.broken ⟨_, pos⟩) (Position.ofPrefix_append hw before)

theorem Tokens.given_cons (t : Token) (ts : List Token) (ending : Ending) :
    (⟨t :: ts, ending⟩ : Tokens).given =
      (t :: (⟨ts, ending⟩ : Tokens).given.1, (⟨ts, ending⟩ : Tokens).given.2) := by
  cases ending <;> rfl

/-- What a reader of moved tokens is given. -/
theorem Tokens.given_behind (ts : Tokens) (n : ℕ) :
    (⟨ts.list.map (·.behind n), ts.ending.behind n⟩ : Tokens).given =
      (ts.given.1.map (·.behind n), ts.given.2.map (·.behind n)) := by
  obtain ⟨list, ending⟩ := ts
  cases ending with
  | complete pos => simp [given, Ending.behind, Token.behind, Token.endOfInput]
  | broken e => rfl

/-! ## Quoted strings -/

/-- A quoted string is the first lexeme of a text that starts with it, and the rest of the text
    falls into gaps and lexemes as it does alone. -/
theorem Splits.quote (v : String) {cs g k : List Char} {ps : List Piece} (h : Splits cs ps g k) :
    Splits ((Text.quote v).toList ++ cs) (⟨[], (Text.quote v).toList, .string v⟩ :: ps) g k := by
  have hwritten : (Lexeme.string v).Written (Text.quote v).toList := by
    rw [Text.toList_quote]
    exact .quoted v
  obtain ⟨body, hbody⟩ : ∃ body, (Text.quote v).toList = '"' :: body := ⟨_, Text.toList_quote v⟩
  -- what stands between the quotes does not matter from here on
  generalize (Text.quote v).toList = quoted at hwritten hbody ⊢
  have hnext : ∀ c ∈ cs.head?, (Lexeme.string v).joins c = false := fun _ _ => rfl
  have hbare : Bare (quoted ++ cs) := gap_eq_nil_iff.mp (gap_written hwritten hnext)
  -- the text starts with a quote, so with no comment
  have hopen : ¬ ['/', '*'] <+: quoted ++ cs := by
    rw [hbody]
    intro hprefix
    obtain ⟨hquote, -⟩ := List.cons_prefix_cons.mp hprefix
    revert hquote
    decide
  obtain ⟨-, hlongest⟩ := (lexeme_eq_some_iff hopen).mp (Lexeme.scan_written hwritten hnext)
  have hpiece := Splits.piece (p := ⟨[], quoted, .string v⟩) .nil hbare
    ((openComment_iff hbare).not.mpr hopen) hlongest h
  rwa [Piece.chars, List.nil_append] at hpiece

/-- A text that starts with a quoted string has it as its first token, at the first place and
    without a line break before it. Just the quoted string is taken for it, and after it come the
    tokens of the rest of the text and their end, whether that is complete or broken, with the first
    line moved behind the quoted string. What the printer and the texts of nested values put between
    the quotes is read as the string again. -/
theorem tokenize_quote_append (v r : String) :
    (tokenize (Text.quote v ++ r)).given =
      (⟨.string v, .start, false⟩ ::
          (tokenize r).given.1.map (·.behind (Text.quote v).toList.length),
        (tokenize r).given.2.map (·.behind (Text.quote v).toList.length)) ∧
    lexeme? (Text.quote v ++ r).toList = some ⟨.string v, (Text.quote v).toList, r.toList⟩ ∧
    (∃ ps g k, Splits r.toList ps g k ∧
      Splits (Text.quote v ++ r).toList (⟨[], (Text.quote v).toList, .string v⟩ :: ps) g k) ∧
    (Text.quote v).toList = '"' :: (Text.escapeInPasses v.toList ++ ['"']) ∧
    Text.unescape (Text.escapeInPasses v.toList) = v.toList ∧
    ∀ (h : Heap) ps fuel path,
      h.renderFrom ps (fuel + 1) path true (.string v) = some (Text.quote v) := by
  have hpasses := Text.escape_eq_escapeInPasses v.toList
  have hquoted := Text.toList_quote v
  have hbreak : '\n' ∉ (Text.quote v).toList := by
    rw [hquoted]
    exact (Lexeme.Written.quoted v).no_break
  obtain ⟨ps, g, k, h⟩ := Splits.exists_splits r.toList
  have hquote := h.quote v
  rw [← String.toList_append] at hquote
  have hrest := h.tokenize_eq
  have hwhole : tokenize (Text.quote v ++ r) =
      ⟨⟨.string v, .start, false⟩ :: (tokenize r).list.map (·.behind (Text.quote v).toList.length),
        (tokenize r).ending.behind (Text.quote v).toList.length⟩ := by
    have htokens := Piece.tokens_append hbreak [] ps
    have hending := Ending.after_append hbreak (ps.flatMap Piece.chars ++ g) k
    rw [hquote.tokenize_eq, hrest, ← htokens, ← hending, Piece.tokens_cons]
    simp only [List.nil_append, List.append_nil, List.flatMap_cons, Piece.chars, List.append_assoc]
    rfl
  refine ⟨?_, ?_, ⟨ps, g, k, h, hquote⟩, ?_, ?_, fun h ps fuel path => ?_⟩
  · rw [hwhole, Tokens.given_cons, Tokens.given_behind]
  · rw [String.toList_append, hquoted]
    exact Lexeme.scan_written (.quoted v) fun _ _ => rfl
  · rw [hquoted, hpasses]
  · rw [← hpasses, Text.unescape_escape]
  · rfl

end CoScript
