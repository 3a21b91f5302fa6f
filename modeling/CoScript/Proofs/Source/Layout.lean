import CoScript.Proofs.Print.Shapes
import CoScript.Proofs.Source.Splitting
import Mathlib.Data.List.Forall2

/-!
# One text laid out in two ways

Between the lexemes of a text stand blanks and comments. Where two gaps both start with a blank, the
lexeme before them ends in the same way before either: a longer one would have the blank in it, so
it would be a string, and a string ends at its own quote. So a text in which gaps are replaced by
such gaps falls into the same lexemes.

Results:
* `Interchangeable`: gaps that may stand for each other.
* `Splits.relaid`: a text with other gaps falls into the same lexemes.
* `Piece.shapes_relaid`: its tokens are the same up to their places.
-/

namespace CoScript

open Lexer

/-! ## Gaps that may stand for each other -/

/-- What may stand between lexemes: blanks, comments up to the end of their line, and closed
    comments. -/
inductive Filler : List Char → Prop
  | nil : Filler []
  | blank {c : Char} {g : List Char} (hc : isBlank c) (h : Filler g) : Filler (c :: g)
  | line {l g : List Char} (hl : '\n' ∉ l) (h : Filler g) : Filler ('/' :: '/' :: (l ++ '\n' :: g))
  | block {l g : List Char} (hl : ¬ ['*', '/'] <:+: l ++ ['*']) (h : Filler g) :
    Filler ('/' :: '*' :: (l ++ '*' :: '/' :: g))

/-- A text starts with a blank. -/
def StartsBlank (g : List Char) : Prop :=
  ∃ c r, g = c :: r ∧ isBlank c

/-- Gaps that may stand for each other: both are empty, or both start with a blank and both have
    line breaks in them or neither has. -/
structure Interchangeable (g g' : List Char) : Prop where
  filler : Filler g
  filler' : Filler g'
  alike : g = [] ∧ g' = [] ∨ StartsBlank g ∧ StartsBlank g' ∧ ('\n' ∈ g ↔ '\n' ∈ g')

/-- The same lexeme, written with the same characters, after another gap. -/
structure Piece.Relaid (p p' : Piece) : Prop where
  gap : Interchangeable p.gap p'.gap
  taken : p.taken = p'.taken
  lexeme : p.lexeme = p'.lexeme

theorem Filler.gap {g : List Char} (h : Filler g) (k : List Char) : Gap k g := by
  induction h with
  | nil => exact .nil
  | blank hc _ ih => exact .blank (isBlank_iff.mp hc) ih
  | line hl _ ih => exact .line hl (by simp) (.blank (by decide) ih)
  | block hl _ ih => exact .block hl ih

theorem Interchangeable.contains_eq {g g' : List Char} (h : Interchangeable g g') :
    g.contains '\n' = g'.contains '\n' := by
  obtain ⟨rfl, rfl⟩ | ⟨-, -, hbreak⟩ := h.alike
  · rfl
  · rw [Bool.eq_iff_iff, List.contains_iff_mem, List.contains_iff_mem]
    exact hbreak

/-! ## What two texts start with -/

/-- Two texts are the same up to their ends, or up to blanks in both. -/
def AlikeToBlank (k k' : List Char) : Prop :=
  ∃ r t t', k = r ++ t ∧ k' = r ++ t' ∧ (t = [] ∧ t' = [] ∨ StartsBlank t ∧ StartsBlank t')

namespace AlikeToBlank

variable {k k' : List Char}

theorem append (h : AlikeToBlank k k') (w : List Char) : AlikeToBlank (w ++ k) (w ++ k') := by
  obtain ⟨r, t, t', rfl, rfl, ht⟩ := h
  exact ⟨w ++ r, t, t', (List.append_assoc ..).symm, (List.append_assoc ..).symm, ht⟩

/-- What has no blank in it is a beginning of both texts or of neither. -/
theorem isPrefix_of {v : List Char} (h : AlikeToBlank k k') (hv : ∀ c ∈ v, isBlank c = false)
    (hpre : v <+: k') : v <+: k := by
  obtain ⟨r, t, t', rfl, rfl, ht⟩ := h
  obtain ⟨rfl, rfl⟩ | ⟨-, c, s, rfl, hc⟩ := ht
  · exact hpre
  obtain hr | hr := Nat.le_total v.length r.length
  · exact (List.prefix_of_prefix_length_le hpre (List.prefix_append r _) hr).trans
      (List.prefix_append r t)
  · -- a longer beginning would have the blank after `r` in it
    obtain ⟨u, rfl⟩ := List.prefix_of_prefix_length_le (List.prefix_append r _) hpre hr
    cases u with
    | nil => simp
    | cons d u =>
      have hpre := (List.prefix_append_right_inj r).mp hpre
      obtain rfl := (List.cons_prefix_cons.mp hpre).1
      exact absurd (hv d (by simp)) (by simp [hc])

end AlikeToBlank

/-- The lexemes of two texts with interchangeable gaps go on in the same way up to a blank. -/
theorem alikeToBlank_of_relaid {ps ps' : List Piece} {g g' : List Char}
    (hps : List.Forall₂ Piece.Relaid ps ps') (hg : Interchangeable g g') :
    AlikeToBlank (ps.flatMap Piece.chars ++ g) (ps'.flatMap Piece.chars ++ g') := by
  have start {h h' : List Char} (hh : Interchangeable h h') {k k' : List Char}
      (hk : AlikeToBlank k k') : AlikeToBlank (h ++ k) (h' ++ k') := by
    obtain ⟨rfl, rfl⟩ | ⟨⟨c, r, rfl, hc⟩, ⟨c', r', rfl, hc'⟩, -⟩ := hh.alike
    · exact hk
    · exact ⟨[], _, _, rfl, rfl, .inr ⟨⟨c, _, rfl, hc⟩, ⟨c', _, rfl, hc'⟩⟩⟩
  induction hps with
  | nil =>
    have hnil : AlikeToBlank [] [] := ⟨[], [], [], rfl, rfl, .inl ⟨rfl, rfl⟩⟩
    simpa using start hg hnil
  | @cons p p' ps ps' hp _ ih =>
    simp only [List.flatMap_cons, Piece.chars, List.append_assoc, ← hp.taken] at ih ⊢
    exact start hp.gap (ih.append p.taken)

/-! ## Where gaps and lexemes end -/

/-- No gap and no comment starts where there is neither a blank nor the start of a comment. -/
theorem bare_iff {k : List Char} :
    Bare k ∧ ¬ OpenComment k ↔
      ¬ StartsBlank k ∧ ¬ ['/', '/'] <+: k ∧ ¬ ['/', '*'] <+: k := by
  constructor
  · rintro ⟨hbare, hopen⟩
    refine ⟨?_, ?_, fun h => hopen ((openComment_iff hbare).mpr h)⟩
    · rintro ⟨c, r, rfl, hc⟩
      cases hbare [c] r rfl (.blank (isBlank_iff.mp hc) .nil)
    · rintro ⟨r, rfl⟩
      have hread := gap_eq_nil_iff.mpr hbare
      simp [gap, isBlank] at hread
  · rintro ⟨hblank, hline, hblock⟩
    refine ⟨gap_eq_nil_iff.mp ?_, ?_⟩
    · cases k with
      | nil => rfl
      | cons c r =>
        have hc : isBlank c = false := by
          rw [Bool.eq_false_iff]
          exact fun hc => hblank ⟨c, r, rfl, hc⟩
        cases r with
        | nil => simp [gap, hc]
        | cons d r =>
          have hline : ¬ (c = '/' ∧ d = '/') := by
            rintro ⟨rfl, rfl⟩
            exact hline ⟨r, rfl⟩
          have hblock : ¬ (c = '/' ∧ d = '*') := by
            rintro ⟨rfl, rfl⟩
            exact hblock ⟨r, rfl⟩
          simp [gap, hc, hline, hblock]
    · rintro ⟨r, rfl, -⟩
      exact hblock ⟨r, rfl⟩

theorem isBlank_of_isNamePart {c : Char} (h : isNamePart c) : isBlank c = false := by
  rw [Bool.eq_false_iff]
  intro hblank
  simp only [isBlank, Bool.or_eq_true, decide_eq_true_eq] at hblank
  obtain (((rfl | rfl) | rfl) | rfl) | rfl := hblank <;> revert h <;> decide

/-- A lexeme that does not start with a quote has no blank in it. -/
theorem Lexeme.Written.blank_free {x : Lexeme} {w : List Char} (h : x.Written w)
    (hx : ∀ q ∈ w.head?, ¬ (q = '"' ∨ q = '\'')) : ∀ c ∈ w, isBlank c = false := by
  have hdigit {l : List Char} (hl : l.all Char.isDigit) : ∀ c ∈ l, isBlank c = false :=
    fun c hc => isBlank_of_isNamePart (by simp [isNamePart, List.all_eq_true.mp hl c hc])
  cases h using Lexeme.Written.readAs with
  | word c r hc hr =>
    exact List.forall_mem_cons.mpr ⟨isBlank_of_isNamePart (by simp [isNamePart, hc]),
      fun c hc => isBlank_of_isNamePart (List.all_eq_true.mp hr c hc)⟩
  | number whole part _ hwhole hpart =>
    unfold numberSpelling
    split
    · exact hdigit hwhole
    · have hpoint : isBlank '.' = false := by simp [isBlank]
      exact List.forall_mem_append.mpr
        ⟨hdigit hwhole, List.forall_mem_cons.mpr ⟨hpoint, hdigit hpart⟩⟩
  | string q body value hq => exact absurd hq (hx _ rfl)
  | mark m =>
    have hall : m.spelling.all (!isBlank ·) = true := by cases m <;> rfl
    exact fun c hc => by simpa using List.all_eq_true.mp hall c hc

/-- A lexeme that starts with a quote is a string. -/
theorem Lexeme.Written.string_of_quote {x : Lexeme} {q : Char} {w : List Char}
    (h : x.Written (q :: w)) (hq : q = '"' ∨ q = '\'') :
    ∃ body value, w = body ++ [q] ∧ StringBody q body value := by
  have hname : isNamePart q = false := by obtain rfl | rfl := hq <;> decide
  generalize hw : q :: w = v at h
  cases h using Lexeme.Written.readAs with
  | word c r hc =>
    obtain rfl := (List.cons.inj hw).1
    simp [isNamePart, hc] at hname
  | number whole part hne hwhole =>
    obtain ⟨c, r, rfl⟩ := List.exists_cons_of_ne_nil hne
    rw [Lexeme.spelling_cons] at hw
    obtain rfl := (List.cons.inj hw).1
    rw [List.all_cons, Bool.and_eq_true] at hwhole
    simp [isNamePart, hwhole.1] at hname
  | string c body value _ hbody =>
    obtain ⟨rfl, rfl⟩ := List.cons.inj hw
    exact ⟨body, value, rfl, hbody⟩
  | mark m =>
    obtain ⟨c, r, hm, -, -, hquote, hquote', -⟩ := m.spelling_first
    obtain rfl := (List.cons.inj (hw.trans hm)).1
    exact absurd hq (not_or.mpr ⟨hquote, hquote'⟩)

/-- The lexeme at the start of a text is the longest one also before another text that goes on in
    the same way up to a blank. -/
theorem Longest.of_alike {x : Lexeme} {w k k' : List Char} (h : Longest x w k)
    (hk : AlikeToBlank k k') : Longest x w k' := by
  refine ⟨h.written, fun y v hy hv => ?_⟩
  obtain ⟨c, r, rfl⟩ := List.exists_cons_of_ne_nil h.written.ne_nil
  obtain ⟨d, s, rfl⟩ := List.exists_cons_of_ne_nil hy.ne_nil
  obtain rfl : d = c := (List.cons_prefix_cons.mp hv).1
  by_cases hq : d = '"' ∨ d = '\''
  · -- both are strings, and there is one first quote that ends them
    obtain ⟨body, value, rfl, hbody⟩ := h.written.string_of_quote hq
    obtain ⟨body', value', rfl, hbody'⟩ := hy.string_of_quote hq
    obtain ⟨u, hu⟩ := hv
    have hsame : body' ++ d :: u = body ++ d :: k' := by simpa using hu
    have hread : stringBody d (body ++ d :: k') = some (body', u) :=
      (stringBody_eq_iff hq).mpr ⟨hsame.symm, value', hbody'⟩
    rw [(stringBody_eq_iff hq).mpr ⟨rfl, value, hbody⟩] at hread
    obtain rfl := (Prod.mk.inj (Option.some.inj hread)).1
    exact Nat.le_refl _
  · exact h.longest y _ hy ((hk.append _).isPrefix_of (hy.blank_free (by simpa using hq)) hv)

/-! ## The text laid out anew -/

namespace Splits

variable {ps ps' : List Piece} {g g' k cs : List Char}

/-- A text that is read as a gap and a lexeme starts with them. -/
theorem read {p : Piece} {r : List Char} (hgap : Lexer.gap .blanks cs = (p.gap, k))
    (hlexeme : lexeme? k = some ⟨p.lexeme, p.taken, r⟩) (h : Splits r ps g []) :
    Splits cs (p :: ps) g [] := by
  obtain ⟨rfl, hgap, hbare⟩ := gap_eq_iff.mp hgap
  have hopen : ¬ ['/', '*'] <+: k := by
    rintro ⟨s, rfl⟩
    cases hlexeme.symm.trans (lexeme_open s)
  obtain ⟨rfl, hlongest⟩ := (lexeme_eq_some_iff hopen).mp hlexeme
  rw [← List.append_assoc]
  exact .piece hgap hbare (mt (openComment_iff hbare).mp hopen) hlongest h

/-- A text that is read as a gap ends after it. -/
theorem read_end (hgap : Lexer.gap .blanks cs = (g, [])) : Splits cs [] g [] := by
  obtain ⟨rfl, hgap, hbare⟩ := gap_eq_iff.mp hgap
  exact .last hgap hbare ((lexeme_eq_none_iff hbare).mp rfl)

/-- A text with other gaps falls into the same lexemes. -/
theorem relaid (h : Splits cs ps g []) (hps : List.Forall₂ Piece.Relaid ps ps')
    (hg : Interchangeable g g') :
    Splits (ps'.flatMap Piece.chars ++ g') ps' g' [] := by
  generalize hk : ([] : List Char) = k at h
  induction h generalizing ps' with
  | last _ hbare hstuck =>
    subst hk
    cases hps
    simpa using Splits.last (hg.filler'.gap []) hbare hstuck
  | @piece p cs g k ps _ hbare hopen hlongest hrest ih =>
    subst hk
    obtain _ | ⟨hp, hps⟩ := hps
    rename_i p' ps'
    have halike := alikeToBlank_of_relaid hps hg
    rw [← List.append_nil (_ ++ g), ← hrest.eq_append] at halike
    have hstart : Bare (p.taken ++ (ps'.flatMap Piece.chars ++ g')) ∧
        ¬ OpenComment (p.taken ++ (ps'.flatMap Piece.chars ++ g')) := by
      have hafter := halike.append p.taken
      obtain ⟨hblank, hline, hblock⟩ := bare_iff.mp ⟨hbare, hopen⟩
      refine bare_iff.mpr ⟨?_, fun h => hline (hafter.isPrefix_of (by simp [isBlank]) h), fun h =>
        hblock (hafter.isPrefix_of (by simp [isBlank]) h)⟩
      -- the lexeme itself starts with no blank
      obtain ⟨c, w, hw⟩ := List.exists_cons_of_ne_nil hlongest.written.ne_nil
      rw [hw] at hblank ⊢
      rintro ⟨d, r, hd, hblank'⟩
      exact hblank ⟨c, _, rfl, (List.cons.inj hd).1 ▸ hblank'⟩
    rw [hp.taken] at hstart hlongest
    rw [hp.lexeme] at hlongest
    have hpiece := Splits.piece (hp.gap.filler'.gap _) hstart.1 hstart.2
      (hlongest.of_alike halike) (ih hps hg rfl)
    rwa [List.flatMap_cons, List.append_assoc]

end Splits

/-- The tokens of a text that is read to its end. -/
theorem tokenize_of_splits {source : String} {ps : List Piece} {g : List Char}
    (h : Splits source.toList ps g []) :
    tokenize source = ⟨Piece.tokens [] ps, .complete (.ofPrefix (ps.flatMap Piece.chars ++ g))⟩ :=
  h.tokenize_eq

/-- Tokens without their places: a piece says which lexeme comes and whether a line break is in the
    gap before it. -/
theorem Piece.shapes_eq (before : List Char) (ps : List Piece) :
    (tokens before ps).map Token.shape = ps.map fun p => ⟨p.lexeme, p.gap.contains '\n'⟩ := by
  induction ps generalizing before with
  | nil => rfl
  | cons p ps ih =>
    rw [tokens_cons, List.map_cons, List.map_cons, ih]
    rfl

/-- Interchangeable gaps lead to the same tokens up to their places. -/
theorem Piece.shapes_relaid {ps ps' : List Piece} (h : List.Forall₂ Piece.Relaid ps ps') :
    (tokens [] ps).map Token.shape = (tokens [] ps').map Token.shape := by
  rw [shapes_eq, shapes_eq]
  induction h with
  | nil => rfl
  | cons hp _ ih => rw [List.map_cons, List.map_cons, ih, hp.lexeme, hp.gap.contains_eq]

end CoScript
