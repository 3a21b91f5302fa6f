import CoScript.Proofs.Source.Spelling
import Mathlib.Data.List.Induction

/-!
# Every character of a text once

A text falls into gaps and lexemes in turn. A gap goes on as long as a blank or a comment stands
there, and a lexeme is the longest one that starts at its place. So there is just one way to split a
text, up to the place where nothing of both starts, and the tokens of the text are the lexemes of
this way.

Results:
* `Gap`: what gaps may be written as.
* `Splits`: a text split into gaps and lexemes, and what is left of it.
* `Lexer.gap_eq_iff`, `Lexer.lexeme_eq_some_iff`: the gap and the lexeme at the start of a text.
* `tokenize_splits`: the tokens of a text are the lexemes of its only split.
-/

namespace CoScript

open Lexer

/-! ## Places -/

/-- The place after a text: its line breaks end lines, and the characters after the last of them
    take one column each. -/
def Position.ofPrefix (before : List Char) : Position :=
  ⟨before.count '\n' + 1, (before.reverse.takeWhile (· ≠ '\n')).length + 1⟩

theorem Position.after_start (before : List Char) : start.after before = ofPrefix before := by
  induction before using List.reverseRecOn with
  | nil => rfl
  | append_singleton l c ih =>
    have hnext : start.after (l ++ [c]) = (start.after l).next c := after_append start l [c]
    rw [hnext, ih]
    by_cases hc : c = '\n'
    · simp [next, ofPrefix, hc]
    · simp [next, ofPrefix, hc]

/-! ## Gaps -/

/-- What may stand between lexemes, before the text `k`: blanks, comments up to the end of a line,
    and comments up to the first closing mark. The blanks are the space, the tab, the carriage
    return, the line feed and the form feed. -/
inductive Gap (k : List Char) : List Char → Prop
  | nil : Gap k []
  | blank {c : Char} {g : List Char} (hc : c ∈ [' ', '\t', '\r', '\n', '\x0c']) (h : Gap k g) :
    Gap k (c :: g)
  | line {l g : List Char} (hl : '\n' ∉ l) (hend : ∀ c ∈ (g ++ k).head?, c = '\n') (h : Gap k g) :
    Gap k ('/' :: '/' :: (l ++ g))
  | block {l g : List Char} (hl : ¬ ['*', '/'] <:+: l ++ ['*']) (h : Gap k g) :
    Gap k ('/' :: '*' :: (l ++ '*' :: '/' :: g))

/-- Neither a blank nor a comment starts here. -/
def Bare (k : List Char) : Prop :=
  ∀ g k', k = g ++ k' → Gap k' g → g = []

theorem Lexer.isBlank_iff {c : Char} : isBlank c ↔ c ∈ [' ', '\t', '\r', '\n', '\x0c'] := by
  simp [isBlank, or_assoc]

theorem Gap.append {k g g' : List Char} (h : Gap (g' ++ k) g) (h' : Gap k g') :
    Gap k (g ++ g') := by
  induction h with
  | nil => exact h'
  | blank hc _ ih => exact .blank hc ih
  | line hl hend _ ih =>
    rw [List.cons_append, List.cons_append, List.append_assoc]
    exact .line hl (by rwa [List.append_assoc]) ih
  | block hl _ ih =>
    rw [List.cons_append, List.cons_append, List.append_assoc]
    exact .block hl ih

namespace Lexer

variable {g k l : List Char}

/-- A comment up to the end of its line is skipped with what may follow it. -/
theorem gap_line (hl : '\n' ∉ l) (hk : ∀ c ∈ k.head?, c = '\n') :
    gap .lineComment (l ++ k) = (l ++ (gap .blanks k).1, (gap .blanks k).2) := by
  induction l with
  | nil =>
    cases k with
    | nil => rfl
    | cons c r =>
      obtain rfl := hk c rfl
      rw [List.nil_append, List.nil_append, gap_blank rfl, gap]
      rfl
  | cons c l ih =>
    rw [List.mem_cons, not_or] at hl
    rw [List.cons_append, gap, if_neg (Ne.symm hl.1), ih hl.2]
    rfl

/-- A comment up to its first closing mark is skipped with what may follow it. -/
theorem gap_block (hl : ¬ ['*', '/'] <:+: l ++ ['*']) :
    gap .blockComment (l ++ '*' :: '/' :: k) =
      (l ++ '*' :: '/' :: (gap .blanks k).1, (gap .blanks k).2) := by
  induction l with
  | nil => rfl
  | cons c l ih =>
    rw [List.cons_append, List.infix_cons_iff, not_or] at hl
    have hrest := ih hl.2
    cases l with
    | nil => simp [gap]
    | cons d l =>
      have hclose : ¬ (c = '*' ∧ d = '/') := by
        rintro ⟨rfl, rfl⟩
        exact hl.1 ⟨l ++ ['*'], rfl⟩
      rw [List.cons_append] at hrest
      simp [gap, hclose, hrest]

/-- A comment is closed if a closing mark comes. -/
theorem closes_append (l k : List Char) : closes (l ++ '*' :: '/' :: k) = true := by
  induction l with
  | nil => rfl
  | cons c l ih =>
    rw [List.cons_append]
    unfold closes
    split <;> simp_all

/-- Among the closing marks of a comment there is a first one. -/
theorem closes_iff {cs : List Char} :
    closes cs = true ↔ ∃ l k, cs = l ++ '*' :: '/' :: k ∧ ¬ ['*', '/'] <:+: l ++ ['*'] := by
  constructor
  · fun_induction closes cs with
    | case1 => simp
    | case2 r => exact fun _ => ⟨[], r, rfl, by decide⟩
    | case3 c r hopen ih =>
      intro h
      obtain ⟨l, k, rfl, hl⟩ := ih h
      refine ⟨c :: l, k, rfl, ?_⟩
      rw [List.cons_append, List.infix_cons_iff, not_or]
      refine ⟨?_, hl⟩
      intro hstar
      obtain ⟨rfl, hslash⟩ := List.cons_prefix_cons.mp hstar
      cases l with
      | nil => simp at hslash
      | cons d l =>
        obtain ⟨rfl, -⟩ := List.cons_prefix_cons.mp hslash
        exact hopen _ rfl rfl
  · rintro ⟨l, k, rfl, -⟩
    exact closes_append l k

/-- What is read as a gap is one, and no gap starts after it. -/
theorem exists_gap (cs : List Char) :
    ∃ g k, cs = g ++ k ∧ gap .blanks cs = (g, k) ∧ Gap k g ∧ gap .blanks k = ([], k) := by
  generalize hn : cs.length = n
  induction n using Nat.strongRecOn generalizing cs with
  | ind n ih =>
    subst hn
    cases cs with
    | nil => exact ⟨[], [], rfl, rfl, .nil, rfl⟩
    | cons c r =>
      by_cases hc : isBlank c
      · obtain ⟨g, k, rfl, hgap, hg, hk⟩ := ih r.length (by simp) r rfl
        exact ⟨c :: g, k, rfl, by rw [gap_blank hc, hgap],
          .blank (isBlank_iff.mp hc) hg, hk⟩
      by_cases hline : ∃ r', c = '/' ∧ r = '/' :: r'
      · obtain ⟨r', rfl, rfl⟩ := hline
        have hlength := (List.dropWhile_suffix (· ≠ '\n') (l := r')).length_le
        obtain ⟨g, k, hsplit, hgap, hg, hk⟩ := ih (r'.dropWhile (· ≠ '\n')).length
          (by simp only [List.length_cons]; omega) _ rfl
        have hbreak : '\n' ∉ r'.takeWhile (· ≠ '\n') := fun h => by
          simpa using List.all_eq_true.mp (List.all_takeWhile (p := (· ≠ '\n'))) _ h
        have hend : ∀ c ∈ (r'.dropWhile (· ≠ '\n')).head?, c = '\n' := fun c hc => by
          have := List.head?_dropWhile_not (· ≠ '\n') r'
          rw [hc] at this
          simpa using this
        have hcs : r' = r'.takeWhile (· ≠ '\n') ++ (g ++ k) := by
          rw [← hsplit, List.takeWhile_append_dropWhile]
        refine ⟨'/' :: '/' :: (r'.takeWhile (· ≠ '\n') ++ g), k, ?_, ?_, ?_, hk⟩
        · rw [List.cons_append, List.cons_append, List.append_assoc, ← hcs]
        · have hread := gap_line hbreak hend
          rw [List.takeWhile_append_dropWhile, hgap] at hread
          simp [gap, isBlank, hread]
        · exact .line hbreak (by rwa [← hsplit]) hg
      by_cases hblock : ∃ r', c = '/' ∧ r = '*' :: r' ∧ closes r' = true
      · obtain ⟨r', rfl, rfl, hcloses⟩ := hblock
        obtain ⟨l, k', rfl, hl⟩ := closes_iff.mp hcloses
        obtain ⟨g, k, rfl, hgap, hg, hk⟩ := ih k'.length (by
          simp only [List.length_cons, List.length_append]
          omega) k' rfl
        refine ⟨'/' :: '*' :: (l ++ '*' :: '/' :: g), k, by simp, ?_, .block hl hg, hk⟩
        simp [gap, isBlank, hcloses, gap_block hl, hgap]
      · have hread : gap .blanks (c :: r) = ([], c :: r) := by
          cases r with
          | nil => simp [gap, hc]
          | cons d r =>
            have hline : ¬ (c = '/' ∧ d = '/') := fun h => hline ⟨r, h.1, by rw [h.2]⟩
            have hblock : ¬ ((c = '/' ∧ d = '*') ∧ closes r = true) := fun h =>
              hblock ⟨r, h.1.1, by rw [h.1.2], h.2⟩
            simp [gap, hc, hline, hblock]
        exact ⟨[], c :: r, rfl, hread, .nil, hread⟩

/-- A gap is read as far as it goes. -/
theorem gap_of_gap (h : Gap k g) (hk : gap .blanks k = ([], k)) :
    gap .blanks (g ++ k) = (g, k) := by
  induction h with
  | nil => exact hk
  | blank hc _ ih => rw [List.cons_append, gap_blank (isBlank_iff.mpr hc), ih]
  | line hl hend _ ih =>
    have hread := gap_line hl hend
    rw [ih] at hread
    simp [gap, isBlank, hread]
  | @block l g hl _ ih =>
    simp [gap, isBlank, closes_append, gap_block hl, ih]

theorem gap_eq_nil_iff : gap .blanks k = ([], k) ↔ Bare k := by
  constructor
  · rintro hk g k' rfl hg
    -- the gap `g` may go on after itself
    obtain ⟨g', k'', rfl, -, hg', hk''⟩ := exists_gap k'
    have hread := gap_of_gap (hg.append hg') hk''
    rw [List.append_assoc, hk] at hread
    exact (List.append_eq_nil_iff.mp (Prod.mk.inj hread).1.symm).1
  · intro hk
    obtain ⟨g, k', hsplit, hgap, hg, -⟩ := exists_gap k
    obtain rfl := hk g k' hsplit hg
    rw [hgap, hsplit, List.nil_append]

/-- What is read as a gap is the one that no blank and no comment goes on with. -/
theorem gap_eq_iff {cs : List Char} : gap .blanks cs = (g, k) ↔ cs = g ++ k ∧ Gap k g ∧ Bare k := by
  constructor
  · intro h
    obtain ⟨g', k', hcs, hgap, hg, hk⟩ := exists_gap cs
    obtain ⟨rfl, rfl⟩ := Prod.mk.inj (hgap.symm.trans h)
    exact ⟨hcs, hg, gap_eq_nil_iff.mp hk⟩
  · rintro ⟨rfl, hg, hk⟩
    exact gap_of_gap hg (gap_eq_nil_iff.mpr hk)

end Lexer

/-! ## Lexemes -/

/-- The lexeme written `w` before the text `k` is the longest one that starts at its place. -/
structure Longest (x : Lexeme) (w k : List Char) : Prop where
  written : x.Written w
  longest : ∀ (y : Lexeme) (v : List Char), y.Written v → v <+: w ++ k → v.length ≤ w.length

/-- A comment is opened here and never closed. -/
def OpenComment (k : List Char) : Prop :=
  ∃ r, k = '/' :: '*' :: r ∧ ¬ ['*', '/'] <:+: r

/-- No lexeme starts here, or only a comment that is never closed. -/
def Stuck (k : List Char) : Prop :=
  OpenComment k ∨ ∀ (x : Lexeme) (w : List Char), x.Written w → ¬ w <+: k

/-- Why nothing can be read at a place where no lexeme starts: a comment that is never closed, a
    string that is not closed on its line, or a character that starts nothing. -/
inductive Fails : List Char → LexError.Cause → Prop
  | comment {k : List Char} (h : OpenComment k) : Fails k .openComment
  | string {q : Char} {r : List Char} (hq : q = '"' ∨ q = '\'') : Fails (q :: r) .openString
  | character {c : Char} {r : List Char} (hcomment : ¬ OpenComment (c :: r))
    (hquote : ¬ (c = '"' ∨ c = '\'')) : Fails (c :: r) (.unexpected c)

theorem Lexeme.Written.ne_endOfInput {x : Lexeme} {w : List Char} (h : x.Written w) :
    x ≠ .endOfInput := by
  cases h <;> simp

/-! ### Marks -/

namespace Mark

variable {m n : Mark} {cs rest : List Char}

/-- The marks stand in the order of their lengths, the longest first. -/
theorem all_sorted : all.Pairwise fun m n => n.spelling.length ≤ m.spelling.length := by
  decide

theorem eq_of_scan (h : scan? cs = some (n, rest)) : cs = n.spelling ++ rest := by
  obtain ⟨l, m, r, -, hm, -⟩ := List.findSome?_eq_some_iff.mp h
  rw [Option.map_eq_some_iff] at hm
  obtain ⟨t, ht, hmn⟩ := hm
  obtain ⟨rfl, rfl⟩ := Prod.mk.inj hmn
  exact (List.isPrefixOf?_eq_some_iff_append_eq.mp ht).symm

/-- Where a mark is written, none that is shorter is read. -/
theorem exists_scan (h : m.spelling <+: cs) :
    ∃ n rest, scan? cs = some (n, rest) ∧ m.spelling.length ≤ n.spelling.length := by
  have hm : m ∈ all := by cases m <;> decide
  obtain ⟨k, hk⟩ := h
  have hmatch : m.spelling.isPrefixOf? cs = some k := List.isPrefixOf?_eq_some_iff_append_eq.mpr hk
  have hsome : (scan? cs).isSome :=
    List.findSome?_isSome_iff.mpr ⟨m, hm, by simp [hmatch]⟩
  obtain ⟨⟨n, rest⟩, hscan⟩ := Option.isSome_iff_exists.mp hsome
  refine ⟨n, rest, hscan, ?_⟩
  obtain ⟨l, n', r, hall, hn, hl⟩ := List.findSome?_eq_some_iff.mp hscan
  obtain ⟨t, -, hn⟩ := Option.map_eq_some_iff.mp hn
  obtain ⟨rfl, -⟩ := Prod.mk.inj hn
  rw [hall] at hm
  obtain hm | hm := List.mem_append.mp hm
  · -- a mark before the one that is read is not written there
    have hnone := hl m hm
    simp [hmatch] at hnone
  · have hsorted := all_sorted
    rw [hall] at hsorted
    obtain rfl | hm := List.mem_cons.mp hm
    · exact Nat.le_refl _
    · exact (List.pairwise_cons.mp (List.pairwise_append.mp hsorted).2.1).1 m hm

end Mark

namespace Lexer

variable {x y : Lexeme} {w v k cs : List Char}

/-! ### The lexeme at the start of a text -/

theorem lexeme_word {c : Char} {r : List Char} (hc : isNameStart c) :
    lexeme? (c :: r) = some ⟨wordLexeme (c :: r.takeWhile isNamePart),
      c :: r.takeWhile isNamePart, r.dropWhile isNamePart⟩ := by
  simp only [lexeme?, hc, if_true, List.span_eq_takeWhile_dropWhile]

theorem lexeme_number {c : Char} {r : List Char} (hc : c.isDigit) :
    lexeme? (c :: r) =
      let (part, rest) := fraction (r.dropWhile Char.isDigit)
      some ⟨.number (Decimal.ofDecimal (c :: r.takeWhile Char.isDigit) (part.drop 1)),
        c :: r.takeWhile Char.isDigit ++ part, rest⟩ := by
  simp only [lexeme?, Lexeme.isNameStart_of_isDigit hc, Bool.false_eq_true, if_false, hc, if_true,
    List.span_eq_takeWhile_dropWhile]

theorem lexeme_string {c : Char} {r : List Char} (hc : c = '"' ∨ c = '\'') :
    lexeme? (c :: r) = (stringBody c r).map fun (body, rest) =>
      ⟨.string (String.ofList (Text.unescape body)), c :: body ++ [c], rest⟩ := by
  have hfirst : isNameStart c = false ∧ c.isDigit = false := by
    obtain rfl | rfl := hc <;> exact ⟨by decide, by decide⟩
  simp only [lexeme?, hfirst, Bool.false_eq_true, if_false, Bool.or_eq_true, decide_eq_true_eq, hc,
    if_true]

theorem lexeme_open (r : List Char) : lexeme? ('/' :: '*' :: r) = none := by
  have hfirst : isNameStart '/' = false ∧ ('/' : Char).isDigit = false := ⟨by decide, by decide⟩
  simp [lexeme?, hfirst]

theorem lexeme_mark {c : Char} {r : List Char} (hname : isNameStart c = false)
    (hdigit : c.isDigit = false) (hquote : ¬ (c = '"' ∨ c = '\''))
    (hopen : ¬ ['/', '*'] <+: c :: r) :
    lexeme? (c :: r) = (Mark.scan? (c :: r)).map fun (m, rest) => ⟨.mark m, m.spelling, rest⟩ := by
  have hcomment : ¬ (c = '/' ∧ r.head? = some '*') := by
    rintro ⟨rfl, hstar⟩
    obtain ⟨r', rfl⟩ := List.head?_eq_some_iff.mp hstar
    exact hopen ⟨r', rfl⟩
  simp only [lexeme?, hname, hdigit, Bool.false_eq_true, if_false, Bool.or_eq_true,
    decide_eq_true_eq,
    hquote, Bool.and_eq_true, hcomment]

/-- What is read as a fraction is a point and digits, or nothing. -/
theorem exists_fraction (cs : List Char) :
    ∃ part rest, fraction cs = (if part.isEmpty then [] else '.' :: part, rest) ∧
      part.all Char.isDigit ∧ cs = (if part.isEmpty then [] else '.' :: part) ++ rest := by
  fun_cases fraction cs with
  | case1 d r hd digits rest hspan =>
    rw [List.span_eq_takeWhile_dropWhile] at hspan
    obtain ⟨rfl, rfl⟩ := Prod.mk.inj hspan
    exact ⟨d :: r.takeWhile Char.isDigit, r.dropWhile Char.isDigit, rfl, by simp [hd], by simp⟩
  | case2 d r hd => exact ⟨[], _, rfl, rfl, rfl⟩
  | case3 => exact ⟨[], _, rfl, rfl, rfl⟩

/-- What is read as a lexeme is written as one. -/
theorem written_of_lexeme {s : Scanned} (h : lexeme? cs = some s) :
    cs = s.taken ++ s.rest ∧ s.lexeme.Written s.taken := by
  cases cs with
  | nil => cases h
  | cons c r =>
    by_cases hname : isNameStart c
    · rw [lexeme_word hname] at h
      obtain rfl := Option.some.inj h
      exact ⟨by simp, .word hname List.all_takeWhile⟩
    by_cases hdigit : c.isDigit
    · obtain ⟨part, rest, hfraction, hpart, hr⟩ := exists_fraction (r.dropWhile Char.isDigit)
      have hspelling : numberSpelling (c :: r.takeWhile Char.isDigit) part =
          c :: r.takeWhile Char.isDigit ++ if part.isEmpty then [] else '.' :: part := by
        rw [Lexeme.spelling_cons, List.cons_append]
      have hdrop : (if part.isEmpty then [] else '.' :: part).drop 1 = part := by
        cases part <;> rfl
      rw [lexeme_number hdigit, hfraction] at h
      simp only [hdrop, ← hspelling] at h
      obtain rfl := Option.some.inj h
      rw [Decimal.ofDecimal_eq]
      refine ⟨?_, .number (List.cons_ne_nil _ _) (by simp [hdigit]) hpart⟩
      rw [hspelling, List.append_assoc, ← hr, List.cons_append, List.takeWhile_append_dropWhile]
    by_cases hquote : c = '"' ∨ c = '\''
    · rw [lexeme_string hquote] at h
      obtain ⟨⟨body, rest⟩, hread, rfl⟩ := Option.map_eq_some_iff.mp h
      obtain ⟨rfl, value, hbody⟩ := (stringBody_eq_iff hquote).mp hread
      refine ⟨by simp, ?_⟩
      simp only [hbody.unescape_eq]
      exact .string hquote hbody
    by_cases hopen : ['/', '*'] <+: c :: r
    · obtain ⟨r', hr⟩ := hopen
      rw [← hr] at h
      cases (lexeme_open r').symm.trans h
    · rw [lexeme_mark (by simpa using hname) (by simpa using hdigit) hquote hopen] at h
      obtain ⟨⟨m, rest⟩, hscan, rfl⟩ := Option.map_eq_some_iff.mp h
      exact ⟨Mark.eq_of_scan hscan, .mark m⟩

/-- Where a lexeme is written, none that is shorter is read. -/
theorem exists_lexeme (h : x.Written w) (hopen : ¬ ['/', '*'] <+: w ++ k) :
    ∃ s, lexeme? (w ++ k) = some s ∧ w.length ≤ s.taken.length := by
  cases h using Lexeme.Written.readAs with
  | word c r hc hr =>
    rw [List.cons_append]
    refine ⟨_, lexeme_word hc, ?_⟩
    rw [List.takeWhile_append_of_pos (List.all_eq_true.mp hr)]
    simp
  | @number whole part hne hwhole hpart =>
    obtain ⟨c, r, rfl⟩ := List.exists_cons_of_ne_nil hne
    simp only [List.all_cons, Bool.and_eq_true] at hwhole
    rw [Lexeme.spelling_cons, List.cons_append, lexeme_number hwhole.1]
    refine ⟨_, rfl, ?_⟩
    cases part with
    | nil =>
      simp only [List.isEmpty_nil, if_true, List.append_nil]
      rw [List.takeWhile_append_of_pos (List.all_eq_true.mp hwhole.2)]
      simp
    | cons d p =>
      simp only [List.all_cons, Bool.and_eq_true] at hpart
      have hspan := span_append (k := '.' :: d :: (p ++ k)) hwhole.2 (by simp)
      rw [List.span_eq_takeWhile_dropWhile, Prod.mk.injEq] at hspan
      have hcs : (r ++ if (d :: p).isEmpty then [] else '.' :: d :: p) ++ k =
          r ++ '.' :: d :: (p ++ k) := by simp
      rw [hcs, hspan.1, hspan.2]
      simp only [hpart.1, if_true, List.span_eq_takeWhile_dropWhile,
        List.takeWhile_append_of_pos (List.all_eq_true.mp hpart.2)]
      simp
  | string q body value hq hbody =>
    have hread : stringBody q (body ++ q :: k) = some (body, k) :=
      (stringBody_eq_iff hq).mpr ⟨rfl, value, hbody⟩
    refine ⟨⟨.string (String.ofList (Text.unescape body)), q :: body ++ [q], k⟩, ?_, Nat.le_refl _⟩
    rw [List.cons_append, List.append_assoc, lexeme_string hq, List.singleton_append, hread]
    rfl
  | mark m =>
    obtain ⟨n, rest, hscan, hlength⟩ := Mark.exists_scan (List.prefix_append m.spelling k)
    obtain ⟨c, r, hm, hname, hdigit, hquote, hquote', -⟩ := m.spelling_first
    refine ⟨⟨.mark n, n.spelling, rest⟩, ?_, hlength⟩
    rw [hm, List.cons_append] at hscan hopen ⊢
    rw [lexeme_mark hname hdigit (not_or.mpr ⟨hquote, hquote'⟩) hopen, hscan]
    rfl

/-- A spelling is read as its lexeme. -/
theorem lexeme_of_written (h : x.Written w) : lexeme? w = some ⟨x, w, []⟩ := by
  simpa using Lexeme.scan_written (k := []) h (by simp)

/-- What is read as a lexeme is the longest one that starts at its place. -/
theorem lexeme_eq_some_iff (hopen : ¬ ['/', '*'] <+: cs) :
    lexeme? cs = some ⟨x, w, k⟩ ↔ cs = w ++ k ∧ Longest x w k := by
  have longest {s : Scanned} (h : lexeme? cs = some s) {y : Lexeme} {v : List Char}
      (hy : y.Written v) (hv : v <+: cs) : v.length ≤ s.taken.length := by
    obtain ⟨k', rfl⟩ := hv
    obtain ⟨s', hs', hlength⟩ := exists_lexeme hy hopen
    obtain rfl := Option.some.inj (h.symm.trans hs')
    exact hlength
  constructor
  · intro h
    obtain ⟨hcs, hx⟩ := written_of_lexeme h
    exact ⟨hcs, hx, fun y v hy hv => longest h hy (by rwa [hcs])⟩
  · rintro ⟨rfl, hx⟩
    obtain ⟨s, hs, hlength⟩ := exists_lexeme hx.written hopen
    obtain ⟨hcs, hwritten⟩ := written_of_lexeme hs
    -- both lexemes are the longest, so they are written alike
    have hle := hx.longest _ _ hwritten ⟨_, hcs.symm⟩
    obtain ⟨hw, hk⟩ := List.append_inj hcs (Nat.le_antisymm hlength hle)
    subst hw hk
    have hsame := (lexeme_of_written hx.written).symm.trans (lexeme_of_written hwritten)
    rw [hs, (Scanned.mk.inj (Option.some.inj hsame)).1]

/-- Where a gap does not go on, a comment that is opened is never closed. -/
theorem openComment_iff (hbare : Bare k) : OpenComment k ↔ ['/', '*'] <+: k := by
  constructor
  · rintro ⟨r, rfl, -⟩
    exact ⟨r, rfl⟩
  · rintro ⟨r, rfl⟩
    refine ⟨r, rfl, ?_⟩
    rintro ⟨a, b, hr⟩
    have hcloses : closes r = true := by
      rw [← hr, List.append_assoc]
      exact closes_append a b
    obtain ⟨l, k, rfl, hl⟩ := closes_iff.mp hcloses
    cases hbare ('/' :: '*' :: (l ++ ['*', '/'])) k (by simp) (.block hl .nil)

/-- Where a gap does not go on, nothing is read as a lexeme if none starts there. -/
theorem lexeme_eq_none_iff (hbare : Bare k) : lexeme? k = none ↔ Stuck k := by
  rw [Stuck, openComment_iff hbare]
  constructor
  · intro h
    refine or_iff_not_imp_left.mpr fun hopen x w hx hw => ?_
    obtain ⟨k', rfl⟩ := hw
    obtain ⟨s, hs, -⟩ := exists_lexeme hx hopen
    cases hs.symm.trans h
  · rintro (⟨r, rfl⟩ | hnone)
    · exact lexeme_open r
    · refine Option.eq_none_iff_forall_ne_some.mpr fun s hs => ?_
      obtain ⟨hk, hx⟩ := written_of_lexeme hs
      exact hnone _ _ hx ⟨_, hk.symm⟩

/-- The first character tells why no lexeme starts here: a slash alone is a mark. -/
theorem fails_of_stuck {c : Char} {r : List Char} (h : Stuck (c :: r)) :
    Fails (c :: r) (failure c) := by
  unfold failure
  split
  case isTrue hslash =>
    obtain hopen | hnone := h
    · exact .comment hopen
    · exact absurd ⟨r, by rw [hslash]; rfl⟩ (hnone _ _ (.mark .slash))
  case isFalse hslash =>
    split
    case isTrue hquote => exact .string (by simpa using hquote)
    case isFalse hquote =>
      refine .character ?_ (by simpa using hquote)
      rintro ⟨r', hr, -⟩
      exact hslash (List.cons.inj hr).1

end Lexer

/-! ## Splitting a text -/

/-- A lexeme, the characters it is written with, and the gap before it. -/
structure Piece where
  gap : List Char
  taken : List Char
  lexeme : Lexeme

/-- The characters of a piece. -/
def Piece.chars (p : Piece) : List Char :=
  p.gap ++ p.taken

/-- Every character of a text falls into gaps and lexemes, up to a last gap and the text after it,
    where no lexeme starts. A gap goes on as long as it can, and so does a lexeme. -/
inductive Splits : List Char → List Piece → List Char → List Char → Prop
  | last {g k : List Char} (hgap : Gap k g) (hbare : Bare k) (hstuck : Stuck k) :
    Splits (g ++ k) [] g k
  | piece {p : Piece} {cs g k : List Char} {ps : List Piece} (hgap : Gap (p.taken ++ cs) p.gap)
    (hbare : Bare (p.taken ++ cs)) (hopen : ¬ OpenComment (p.taken ++ cs))
    (hlongest : Longest p.lexeme p.taken cs) (h : Splits cs ps g k) :
    Splits (p.chars ++ cs) (p :: ps) g k

/-- The tokens of the pieces that a text is split into, where the text `before` comes first. -/
def Piece.tokens (before : List Char) (ps : List Piece) : List Token :=
  ps.mapIdx fun i p => ⟨p.lexeme, .ofPrefix (before ++ (ps.take i).flatMap Piece.chars ++ p.gap),
    p.gap.contains '\n'⟩

/-- How the tokens end after the text `before`, where the text `k` is left. -/
def Ending.after (before : List Char) : List Char → Ending
  | [] => .complete (.ofPrefix before)
  | c :: _ => .broken ⟨failure c, .ofPrefix before⟩

/-- What a reader of the tokens is given: the token at the end of the input comes once, after the
    last lexeme, or there is an error instead of it. -/
def Tokens.given (ts : Tokens) : List Token × Option LexError :=
  match ts.ending with
  | .complete pos => (ts.list ++ [.endOfInput pos], none)
  | .broken e => (ts.list, some e)

theorem Piece.tokens_cons (before : List Char) (p : Piece) (ps : List Piece) :
    tokens before (p :: ps) =
      ⟨p.lexeme, .ofPrefix (before ++ p.gap), p.gap.contains '\n'⟩ ::
        tokens (before ++ p.chars) ps := by
  simp [tokens, List.mapIdx_cons]

namespace Splits

variable {cs g g' k k' : List Char} {ps ps' : List Piece}

/-- Every text falls into gaps and lexemes. -/
theorem exists_splits (cs : List Char) : ∃ ps g k, Splits cs ps g k := by
  generalize hn : cs.length = n
  induction n using Nat.strongRecOn generalizing cs with
  | ind n ih =>
    obtain ⟨g, k, rfl, -, hgap, hk⟩ := exists_gap cs
    have hbare := gap_eq_nil_iff.mp hk
    by_cases hstuck : Stuck k
    · exact ⟨[], g, k, .last hgap hbare hstuck⟩
    have hread : lexeme? k ≠ none := fun h => hstuck ((lexeme_eq_none_iff hbare).mp h)
    obtain ⟨⟨x, w, rest⟩, hread⟩ := Option.ne_none_iff_exists'.mp hread
    have hopen : ¬ OpenComment k := fun h => hstuck (.inl h)
    obtain ⟨rfl, hlongest⟩ := (lexeme_eq_some_iff (hopen ∘ (openComment_iff hbare).mpr)).mp hread
    have hlength := List.length_pos_of_ne_nil hlongest.written.ne_nil
    obtain ⟨ps, g', k', h⟩ := ih rest.length (by
      simp only [← hn, List.length_append]
      omega) rest rfl
    have hpiece := Splits.piece (p := ⟨g, w, x⟩) hgap hbare hopen hlongest h
    rw [Piece.chars, List.append_assoc] at hpiece
    exact ⟨_, g', k', hpiece⟩

/-- The gaps and lexemes of a text are all of it but what is left. -/
theorem eq_append (h : Splits cs ps g k) : cs = ps.flatMap Piece.chars ++ g ++ k := by
  induction h with
  | last => rfl
  | piece _ _ _ _ _ ih => simp [List.flatMap_cons, ih]

/-- No lexeme starts in what is left of a text. -/
theorem stuck (h : Splits cs ps g k) : Stuck k := by
  induction h with
  | last _ _ hstuck => exact hstuck
  | piece _ _ _ _ _ ih => exact ih

/-- A text falls into gaps and lexemes in one way only. -/
theorem unique (h : Splits cs ps g k) (h' : Splits cs ps' g' k') : ps = ps' ∧ g = g' ∧ k = k' := by
  -- the gap and the lexeme at the start are the ones that are read there
  induction h generalizing ps' with
  | @last g k hgap hbare hstuck =>
    have hread := gap_eq_iff.mpr ⟨rfl, hgap, hbare⟩
    generalize hcs : g ++ k = cs at h' hread
    cases h' with
    | last hgap' hbare' =>
      rw [gap_eq_iff.mpr ⟨rfl, hgap', hbare'⟩] at hread
      obtain ⟨rfl, rfl⟩ := Prod.mk.inj hread
      exact ⟨rfl, rfl, rfl⟩
    | @piece p cs _ _ ps hgap' hbare' hopen hlongest =>
      rw [Piece.chars, List.append_assoc, gap_eq_iff.mpr ⟨rfl, hgap', hbare'⟩] at hread
      obtain ⟨rfl, rfl⟩ := Prod.mk.inj hread
      have hnone := (lexeme_eq_none_iff hbare).mpr hstuck
      cases hnone.symm.trans ((lexeme_eq_some_iff (hopen ∘ (openComment_iff hbare).mpr)).mpr
        ⟨rfl, hlongest⟩)
  | @piece p cs g k ps hgap hbare hopen hlongest _ ih =>
    have hread := gap_eq_iff.mpr ⟨rfl, hgap, hbare⟩
    have hlexeme := (lexeme_eq_some_iff (hopen ∘ (openComment_iff hbare).mpr)).mpr ⟨rfl, hlongest⟩
    rw [← List.append_assoc] at hread
    generalize hcs : p.chars ++ cs = text at h'
    rw [← Piece.chars, hcs] at hread
    cases h' with
    | last hgap' hbare' hstuck =>
      rw [gap_eq_iff.mpr ⟨rfl, hgap', hbare'⟩] at hread
      obtain ⟨rfl, rfl⟩ := Prod.mk.inj hread
      cases ((lexeme_eq_none_iff hbare).mpr hstuck).symm.trans hlexeme
    | @piece p' cs' _ _ ps' hgap' hbare' hopen' hlongest' h' =>
      rw [Piece.chars, List.append_assoc, gap_eq_iff.mpr ⟨rfl, hgap', hbare'⟩] at hread
      obtain ⟨hgaps, hrest⟩ := Prod.mk.inj hread
      rw [← hrest, (lexeme_eq_some_iff (hopen' ∘ (openComment_iff hbare').mpr)).mpr
        ⟨rfl, hlongest'⟩] at hlexeme
      obtain ⟨hx, hw, rfl⟩ := Scanned.mk.inj (Option.some.inj hlexeme)
      obtain ⟨rfl, hends⟩ := ih h'
      obtain rfl : p' = p := by
        cases p
        cases p'
        simp_all
      exact ⟨rfl, hends⟩

/-- The tokens of a text are the lexemes that it falls into. -/
theorem tokensFrom_eq (h : Splits cs ps g k) (before : List Char) {fuel : ℕ}
    (hfuel : cs.length < fuel) :
    tokensFrom fuel (Position.start.after before) cs =
      ⟨Piece.tokens before ps, .after (before ++ ps.flatMap Piece.chars ++ g) k⟩ := by
  induction h generalizing before fuel with
  | @last g k hgap hbare hstuck =>
    obtain ⟨fuel, rfl⟩ : ∃ n, fuel = n + 1 := Nat.exists_eq_succ_of_ne_zero (by omega)
    have hread := gap_eq_iff.mpr ⟨rfl, hgap, hbare⟩
    have hnone := (lexeme_eq_none_iff hbare).mpr hstuck
    cases k with
    | nil =>
      rw [tokensFrom_done hread, ← Position.after_append, Position.after_start]
      simp [Piece.tokens, Ending.after]
    | cons c r =>
      simp only [tokensFrom, hread, hnone]
      rw [← Position.after_append, Position.after_start]
      simp [Piece.tokens, Ending.after]
  | @piece p cs g k ps hgap hbare hopen hlongest _ ih =>
    obtain ⟨fuel, rfl⟩ : ∃ n, fuel = n + 1 := Nat.exists_eq_succ_of_ne_zero (by omega)
    have hread : gap .blanks (p.chars ++ cs) = (p.gap, p.taken ++ cs) :=
      gap_eq_iff.mpr ⟨List.append_assoc .., hgap, hbare⟩
    have hlexeme := (lexeme_eq_some_iff (hopen ∘ (openComment_iff hbare).mpr)).mpr ⟨rfl, hlongest⟩
    have hlength := List.length_pos_of_ne_nil hlongest.written.ne_nil
    have hplace : ((Position.start.after before).after p.gap).after p.taken =
        Position.start.after (before ++ p.chars) := by
      simp only [Piece.chars, Position.after_append]
    have hrest := @ih (before ++ p.chars) fuel (by
      simp only [Piece.chars, List.length_append] at hfuel
      omega)
    rw [tokensFrom_lexeme hread hlexeme, Piece.tokens_cons, ← Position.after_start,
      Position.after_append]
    simp only [hplace, hrest, List.append_assoc, List.flatMap_cons]

/-- The tokens of a whole text, and their end. -/
theorem tokenize_eq {source : String} (h : Splits source.toList ps g k) :
    tokenize source = ⟨Piece.tokens [] ps, .after (ps.flatMap Piece.chars ++ g) k⟩ :=
  h.tokensFrom_eq [] (Nat.lt_add_one _)

/-- No token of a piece stands for the end of the input. -/
theorem ne_endOfInput (h : Splits cs ps g k) (before : List Char) :
    ∀ t ∈ Piece.tokens before ps, t.lexeme ≠ .endOfInput := by
  induction h generalizing before with
  | last => simp [Piece.tokens]
  | piece _ _ _ hlongest _ ih =>
    rw [Piece.tokens_cons]
    exact List.forall_mem_cons.mpr ⟨hlongest.written.ne_endOfInput, ih _⟩

end Splits

/-- The tokens of a text are the lexemes of the only way in which it falls into gaps and lexemes.
    After them comes the end of the input, at the place after the whole text, or an error at the
    first place where neither a gap nor a lexeme starts, with the reason why none does. -/
theorem tokenize_splits (source : String) :
    ∃ ps g k, Splits source.toList ps g k ∧
      (∀ ps' g' k', Splits source.toList ps' g' k' → ps' = ps ∧ g' = g ∧ k' = k) ∧
      source.toList = ps.flatMap Piece.chars ++ g ++ k ∧
      (∀ t ∈ Piece.tokens [] ps, t.lexeme ≠ .endOfInput) ∧
      (k = [] → (tokenize source).given =
        (Piece.tokens [] ps ++ [.endOfInput (.ofPrefix source.toList)], none)) ∧
      ∀ c r, k = c :: r → Fails k (failure c) ∧ (tokenize source).given =
        (Piece.tokens [] ps, some ⟨failure c, .ofPrefix (ps.flatMap Piece.chars ++ g)⟩) := by
  obtain ⟨ps, g, k, h⟩ := Splits.exists_splits source.toList
  have htokens : tokenize source =
      ⟨Piece.tokens [] ps, .after (ps.flatMap Piece.chars ++ g) k⟩ :=
    h.tokensFrom_eq [] (Nat.lt_succ_self _)
  refine ⟨ps, g, k, h, fun ps' g' k' h' => h'.unique h, h.eq_append, h.ne_endOfInput [], ?_, ?_⟩
  · rintro rfl
    have hcs := h.eq_append
    rw [List.append_nil] at hcs
    rw [htokens, hcs]
    rfl
  · rintro c r rfl
    rw [htokens]
    exact ⟨fails_of_stuck h.stuck, rfl⟩

end CoScript
