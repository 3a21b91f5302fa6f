import CoScript.Proofs.Parse.Paired.Programs
import CoScript.Session

/-!
# Lexical errors stop a program

Tokens are read from the front of a text, and every rule looks at the tokens that are there. What
rejects a text stands at one of them, so before the place where no token starts; and the rule for
programs goes on to the end of the input. So a text with a lexical error stands for no program, and
nothing of it runs.

Results:
* `Position.Before`: the order of places.
* `Grammar.program_eq_ok`: a program takes all tokens.
* `parse_stops`: a text with a lexical error is no program, and a text that is one has none.
-/

namespace CoScript

open CoScript.Parser

/-! ## The order of places -/

namespace Position

/-- One place comes before another: on an earlier line, or further to the left on the same one. -/
def Before (p q : Position) : Prop :=
  p.line < q.line ∨ p.line = q.line ∧ p.column < q.column

theorem Before.trans {p q r : Position} (h : p.Before q) (h' : q.Before r) : p.Before r := by
  unfold Before at *
  omega

theorem before_next (p : Position) (c : Char) : p.Before (p.next c) := by
  unfold next
  split
  · exact .inl (Nat.lt_succ_self _)
  · exact .inr ⟨rfl, Nat.lt_succ_self _⟩

theorem before_after (p : Position) {cs : List Char} (h : cs ≠ []) : p.Before (p.after cs) := by
  induction cs generalizing p with
  | nil => exact absurd rfl h
  | cons c r ih =>
    have hcons : p.after (c :: r) = (p.next c).after r := rfl
    rw [hcons]
    by_cases hr : r = []
    · subst hr
      exact p.before_next c
    · exact (p.before_next c).trans (ih _ hr)

/-- A place comes before what follows some characters. -/
theorem ofPrefix_before (l : List Char) {cs : List Char} (h : cs ≠ []) :
    (ofPrefix l).Before (ofPrefix (l ++ cs)) := by
  rw [← after_start, ← after_start, after_append]
  exact before_after _ h

end Position

/-- Every token comes before the place where the reading of a text ends. -/
theorem Splits.before {cs g k : List Char} {ps : List Piece} (h : Splits cs ps g k)
    (before : List Char) :
    ∀ t ∈ Piece.tokens before ps,
      t.pos.Before (.ofPrefix (before ++ ps.flatMap Piece.chars ++ g)) := by
  induction h generalizing before with
  | last => simp [Piece.tokens]
  | @piece p cs g k ps _ _ _ hlongest _ ih =>
    rw [Piece.tokens_cons]
    refine List.forall_mem_cons.mpr ⟨?_, ?_⟩
    · have hne : p.taken ++ (ps.flatMap Piece.chars ++ g) ≠ [] :=
        List.append_ne_nil_of_left_ne_nil hlongest.written.ne_nil _
      simpa [Piece.chars] using Position.ofPrefix_before (before ++ p.gap) hne
    · simpa using ih (before ++ p.chars)

/-! ## Errors at the end of the tokens -/

namespace Grammar

/-- A program takes all tokens, and after them comes the end of the input. -/
theorem program_eq_ok {R : Rules} {c : Context} {ts rest : List Token} {p : Program}
    (h : program R c ts = .ok p rest) (hrest : rest ⊆ ts)
    (hts : ∀ t ∈ ts, t.lexeme ≠ .endOfInput) :
    rest = [] ∧ ∃ pos, c.ending = .complete pos := by
  obtain ⟨statements, mid, hloop, hp⟩ := bind_eq_ok.mp h
  obtain ⟨⟩ := hp
  obtain ⟨s, mid, hlast⟩ := Takes.rounds_last hloop
  obtain ⟨t, mid', hpeek, ht⟩ := bind_eq_ok.mp hlast
  obtain ⟨rfl, hahead⟩ := peek_eq_ok hpeek
  split at ht
  · rename_i hend
    obtain ⟨⟩ := ht
    have hlexeme : t.lexeme = .endOfInput := by
      revert hend
      cases t.lexeme <;> simp [Lexeme.isEnd]
    cases hmid : rest with
    | nil =>
      subst hmid
      unfold peek peekAt at hpeek
      cases he : c.ending with
      | complete pos => exact ⟨rfl, pos, rfl⟩
      | broken e => simp [he] at hpeek
    | cons t' r =>
      subst hmid
      obtain hahead | ⟨hnone, -⟩ := hahead
      · obtain rfl : t' = t := by simpa using hahead
        exact absurd hlexeme (hts _ (hrest (by simp)))
      · simp at hnone
  · obtain ⟨_, _, _, hagain⟩ := bind_eq_ok.mp ht
    cases hagain

end Grammar

/-- A program that tokens stand for takes all of them, and there is no error at their end. -/
theorem Program.ofTokens_eq_ok {tokens : Tokens} {p : Program} (h : ofTokens tokens = .ok p)
    (hlist : ∀ t ∈ tokens.list, t.lexeme ≠ .endOfInput) :
    ∃ pos, tokens.ending = .complete pos ∧
      Grammar.program (.ofDepth (depthFor tokens.list.length)) (.topLevel (.complete pos))
        tokens.list = .ok p [] := by
  obtain ⟨q, rest, hq, hp⟩ | ⟨e, -, hp⟩ | ⟨e, -, -, hp⟩ := ofTokens_cases tokens
  · obtain rfl := Except.ok.inj (hp.symm.trans h)
    have htakes := takes tokens
    unfold Takes at htakes
    rw [hq] at htakes
    obtain ⟨w, hw, -⟩ := htakes
    have hsub : rest ⊆ tokens.list := hw ▸ List.subset_append_right w rest
    obtain ⟨rfl, pos, hpos⟩ := Grammar.program_eq_ok hq hsub hlist
    have hending : tokens.ending = .complete pos := hpos
    exact ⟨pos, hending, hending ▸ hq⟩
  all_goals cases h.symm.trans hp

/-- A text with a lexical error stands for no program: that error is reported, or what is rejected
    stands before it, and in no session anything of the text runs. A text that stands for a program
    has no lexical error, and the program takes all of its tokens up to the end of the input. -/
theorem parse_stops (source : String) :
    (∀ e, (tokenize source).ending = .broken e → ∃ error, parse source = .error error ∧
      (error = .lexical e ∨ ∃ pe, error = .grammatical pe ∧ pe.pos.Before e.pos) ∧
      (∀ fuel s, Session.runText fuel source s = some (.error (.rejected error), s)) ∧
      ∀ fuel config host, ∃ s, evaluate fuel config host source =
        some (.error (.rejected error), s) ∧
        s.world.output = "" ∧ s.sched = .fresh config.maxSteps) ∧
    ∀ p, parse source = .ok p → ∃ pos, (tokenize source).ending = .complete pos ∧
      Grammar.program (.ofDepth (depthFor (tokenize source).list.length))
        (.topLevel (.complete pos)) (tokenize source).list = .ok p [] := by
  obtain ⟨ps, g, k, h⟩ := Splits.exists_splits source.toList
  have htokens : tokenize source =
      ⟨Piece.tokens [] ps, .after (ps.flatMap Piece.chars ++ g) k⟩ :=
    h.tokensFrom_eq [] (Nat.lt_succ_self _)
  have hlist : ∀ t ∈ (tokenize source).list, t.lexeme ≠ .endOfInput := by
    rw [htokens]
    exact h.ne_endOfInput []
  refine ⟨fun e he => ?_, fun p hp => Program.ofTokens_eq_ok hp hlist⟩
  have hbefore : ∀ t ∈ (tokenize source).list, t.pos.Before e.pos := by
    have hpos : e.pos = .ofPrefix (ps.flatMap Piece.chars ++ g) := by
      rw [htokens] at he
      cases k with
      | nil => cases he
      | cons c r => exact (congrArg LexError.pos (Ending.broken.inj he)).symm
    rw [htokens, hpos]
    exact h.before []
  have hpaired : List.Forall₂ (Pairing.same (·.pos.Before e.pos)).token (tokenize source).list
      (tokenize source).list :=
    List.forall₂_same.mpr fun t ht => ⟨rfl, hbefore t ht⟩
  have hending : (Pairing.same (·.pos.Before e.pos)).Ends (tokenize source).ending
      (tokenize source).ending := by
    rw [he]
    exact .broken e
  have hrun {error : SyntaxError} (herror : parse source = .error error) (fuel : ℕ) (s : Session) :
      Session.runText fuel source s = some (.error (.rejected error), s) := by
    unfold Session.runText
    rw [herror]
  obtain ⟨error, herror, hcause⟩ : ∃ error, parse source = .error error ∧
      (error = .lexical e ∨ ∃ pe, error = .grammatical pe ∧ pe.pos.Before e.pos) := by
    obtain ⟨p, -, hp, -⟩ | ⟨expected, t, _, ⟨rfl, ht⟩, hp, -⟩ | ⟨e', he', hp, -⟩ :=
      Program.ofTokens_tracks hpaired hending
    · obtain ⟨pos, hpos, -⟩ := Program.ofTokens_eq_ok hp hlist
      cases he.symm.trans hpos
    · exact ⟨_, hp, .inr ⟨_, rfl, ht⟩⟩
    · obtain rfl := Ending.broken.inj (he.symm.trans he')
      exact ⟨_, hp, .inl rfl⟩
  exact ⟨error, herror, hcause, hrun herror, fun fuel config host =>
    ⟨_, hrun herror fuel (.new config host), rfl, rfl⟩⟩

/-- A string that is not closed, and the text before it. -/
theorem parse_stops_openString :
    (∃ e error, (tokenize "f; 'a").ending = .broken e ∧ parse "f; 'a" = .error error ∧
      (error = .lexical e ∨ ∃ pe, error = .grammatical pe ∧ pe.pos.Before e.pos)) ∧
    ∃ p pos, parse "f; " = .ok p ∧ (tokenize "f; ").ending = .complete pos := by
  have he : (tokenize "f; 'a").ending = .broken ⟨.openString, ⟨1, 4⟩⟩ := by rfl
  have hp : parse "f; " = .ok ⟨[.expr ⟨1, 1⟩ (.name ⟨1, 1⟩ "f")]⟩ := by rfl
  obtain ⟨error, herror, hcause, -⟩ := (parse_stops "f; 'a").1 _ he
  obtain ⟨pos, hpos, -⟩ := (parse_stops "f; ").2 _ hp
  exact ⟨⟨_, error, he, herror, hcause⟩, _, pos, hp, hpos⟩

end CoScript
