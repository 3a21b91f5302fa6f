import CoScript.Proofs.Parse.Enough
import CoScript.Proofs.Parse.Paired.Stmt
import CoScript.Proofs.Source.Layout

/-!
# Programs from paired tokens

Two sequences of tokens that stand for each other make programs that differ in positions at most, or
are rejected at tokens that stand for each other, or end at one lexical error. Taken with texts that
are laid out differently this says that layout does not change a program.

Results:
* `Program.ofTokens_tracks`: programs from tokens that stand for each other.
* `parse_relaid`: programs from two layouts of one text.
-/

namespace CoScript

open CoScript.Parser

namespace Pairing

/-- Tokens that are the same up to their places. -/
def shapes : Pairing where
  token t t' := t.shape = t'.shape
  place _ := .start
  lexeme_eq h := (Shape.mk.inj h).1
  afterBreak_eq h := (Shape.mk.inj h).2
  place_eq _ := rfl

theorem forall₂_shapes {ts ts' : List Token} (h : ts.map Token.shape = ts'.map Token.shape) :
    List.Forall₂ shapes.token ts ts' := by
  induction ts generalizing ts' with
  | nil =>
    rw [List.map_nil, eq_comm, List.map_eq_nil_iff] at h
    rw [h]
    exact .nil
  | cons t ts ih =>
    obtain ⟨t', r, rfl, ht, hr⟩ := List.map_eq_cons_iff.mp h.symm
    exact .cons ht.symm (ih hr.symm)

end Pairing

namespace Program

/-- Tokens that stand for each other make programs that match, or are rejected at tokens that stand
    for each other, or end at one lexical error. -/
theorem ofTokens_tracks {P : Pairing} {tokens tokens' : Tokens}
    (hlist : List.Forall₂ P.token tokens.list tokens'.list)
    (hending : P.Ends tokens.ending tokens'.ending) :
    (∃ p p', ofTokens tokens = .ok p ∧ ofTokens tokens' = .ok p' ∧
      p.mapPos P.place = p'.mapPos P.place) ∨
    (∃ expected t t', P.token t t' ∧
      ofTokens tokens = .error (.grammatical ⟨expected, t.lexeme, t.pos⟩) ∧
      ofTokens tokens' = .error (.grammatical ⟨expected, t'.lexeme, t'.pos⟩)) ∨
    ∃ e, tokens.ending = .broken e ∧ ofTokens tokens = .error (.lexical e) ∧
      ofTokens tokens' = .error (.lexical e) := by
  have htakes := takes tokens
  have hcontext : (Context.topLevel tokens.ending).Tracks P (.topLevel tokens'.ending) :=
    ⟨_, hending, rfl⟩
  have hrules := Rules.tracks_ofDepth P (Nat.le_refl (depthFor tokens.list.length))
  have htracks := Grammar.tracks_program hrules hcontext hlist
  unfold ofTokens
  unfold Takes at htakes
  rw [← hlist.length_eq]
  dsimp only
  generalize Grammar.program _ _ tokens.list = o, Grammar.program _ _ tokens'.list = o'
    at htakes htracks
  cases htracks with
  | ok hx _ => exact .inl ⟨_, _, rfl, rfl, hx⟩
  | rejected expected ht => exact .inr (.inl ⟨expected, _, _, ht, rfl, rfl⟩)
  | broken e => exact .inr (.inr ⟨e, htakes, rfl, rfl⟩)
  | tooDeep => exact htakes.elim

end Program

/-- Two texts stand for the same program up to positions, or are rejected for the same reason. -/
def ParseAlike (source source' : String) : Prop :=
  (∃ p p', parse source = .ok p ∧ parse source' = .ok p' ∧ p.unplaced = p'.unplaced) ∨
    ∃ e e', parse source = .error (.grammatical e) ∧ parse source' = .error (.grammatical e') ∧
      e.expected = e'.expected ∧ e.found = e'.found

/-- Layout does not change a program: of two texts with the same lexemes and interchangeable gaps
    between them, the second one is read to its end if the first one is, both have the same tokens
    up to their places, and both stand for the same program up to positions or are rejected for the
    same reason. -/
theorem parse_relaid {source source' : String} {ps ps' : List Piece} {g g' : List Char}
    (h : Splits source.toList ps g []) (h' : source'.toList = ps'.flatMap Piece.chars ++ g')
    (hps : List.Forall₂ Piece.Relaid ps ps') (hg : Interchangeable g g') :
    (∃ pos pos', (tokenize source).ending = .complete pos ∧
      (tokenize source').ending = .complete pos') ∧
    (tokenize source).list.map Token.shape = (tokenize source').list.map Token.shape ∧
    ParseAlike source source' := by
  have hsplits : Splits source'.toList ps' g' [] := h' ▸ h.relaid hps hg
  have htokens := tokenize_of_splits h
  have htokens' := tokenize_of_splits hsplits
  have hshapes : (tokenize source).list.map Token.shape =
      (tokenize source').list.map Token.shape := by
    rw [htokens, htokens']
    exact Piece.shapes_relaid hps
  have hends : Pairing.shapes.Ends (tokenize source).ending (tokenize source').ending := by
    rw [htokens, htokens']
    exact .complete rfl
  refine ⟨⟨_, _, by rw [htokens], by rw [htokens']⟩, hshapes, ?_⟩
  obtain h | ⟨expected, t, t', ht, h, h'⟩ | ⟨e, he, -⟩ :=
    Program.ofTokens_tracks (Pairing.forall₂_shapes hshapes) hends
  · exact .inl h
  · exact .inr ⟨_, _, h, h', rfl, Pairing.shapes.lexeme_eq ht⟩
  · rw [htokens] at he
    cases he

/-- A comment with a slash before a division, and one with a quote before a string. -/
theorem parse_relaid_comments :
    (∃ ps ps' g g', Splits "a / b\n'c'".toList ps g [] ∧
      "a /* / */ / b // '\n'c'".toList = ps'.flatMap Piece.chars ++ g' ∧
      List.Forall₂ Piece.Relaid ps ps' ∧ Interchangeable g g') ∧
    (tokenize "a / b\n'c'").list.map Token.shape =
      (tokenize "a /* / */ / b // '\n'c'").list.map Token.shape ∧
    ParseAlike "a / b\n'c'" "a /* / */ / b // '\n'c'" := by
  have hnil : Interchangeable [] [] := ⟨.nil, .nil, .inl ⟨rfl, rfl⟩⟩
  have hspace : Interchangeable [' '] [' '] :=
    ⟨.blank rfl .nil, .blank rfl .nil, .inr ⟨⟨_, _, rfl, rfl⟩, ⟨_, _, rfl, rfl⟩, .rfl⟩⟩
  have hblock : Interchangeable [' '] " /* / */ ".toList :=
    ⟨.blank rfl .nil, .blank rfl (.block (l := [' ', '/', ' ']) (by decide) (.blank rfl .nil)),
      .inr ⟨⟨_, _, rfl, rfl⟩, ⟨_, _, rfl, rfl⟩, by decide⟩⟩
  have hline : Interchangeable ['\n'] " // '\n".toList :=
    ⟨.blank rfl .nil, .blank rfl (.line (l := [' ', '\'']) (by decide) .nil),
      .inr ⟨⟨_, _, rfl, rfl⟩, ⟨_, _, rfl, rfl⟩, by decide⟩⟩
  obtain ⟨ps, ps', h, h', hps⟩ : ∃ ps ps', Splits "a / b\n'c'".toList ps [] [] ∧
      "a /* / */ / b // '\n'c'".toList = ps'.flatMap Piece.chars ++ [] ∧
      List.Forall₂ Piece.Relaid ps ps' :=
    ⟨[⟨[], ['a'], .identifier "a"⟩, ⟨[' '], ['/'], .mark .slash⟩, ⟨[' '], ['b'], .identifier "b"⟩,
        ⟨['\n'], ['\'', 'c', '\''], .string "c"⟩],
      [⟨[], ['a'], .identifier "a"⟩, ⟨" /* / */ ".toList, ['/'], .mark .slash⟩,
        ⟨[' '], ['b'], .identifier "b"⟩, ⟨" // '\n".toList, ['\'', 'c', '\''], .string "c"⟩],
      .read rfl rfl <| .read rfl rfl <| .read rfl rfl <| .read rfl rfl <| .read_end rfl, rfl,
      .cons ⟨hnil, rfl, rfl⟩ <| .cons ⟨hblock, rfl, rfl⟩ <| .cons ⟨hspace, rfl, rfl⟩ <|
        .cons ⟨hline, rfl, rfl⟩ .nil⟩
  exact ⟨⟨ps, ps', [], [], h, h', hps, hnil⟩, (parse_relaid h h' hps hnil).2⟩

end CoScript
