import CoScript.Proofs.Print.Shapes
import Mathlib.Data.List.Basic
import Mathlib.Data.List.TakeDrop
import Mathlib.Data.Nat.Digits.Defs

/-!
# Texts that spell lexemes

What a lexeme may be written as is said here apart from the reader: which characters make a name,
which word is a keyword, what the digits of a number are worth, and what the characters between two
quotes stand for.

A text spells lexemes when it consists of their spellings, with blanks between them where two would
join. Such a text is read as those lexemes: each spelling is the longest lexeme that starts at its
place, since the character after it cannot go on with it.

Results:
* `Lexeme.Written`: what a lexeme may be written as.
* `Lexeme.scan_written`: a spelling is read as its lexeme.
* `Spells`: a text spells lexemes, with the knowledge where line breaks stand.
* `Spells.tokens`: what a text spells are its tokens.
* `Spells.indent`: a text that is moved to the right spells the same.
-/

namespace CoScript

open Lexer

/-! ## Marks -/

namespace Mark

/-- Whether a character after a mark makes a longer mark of it, or starts a comment with it. -/
def joins (m : Mark) (c : Char) : Bool :=
  all.any (fun n => (m.spelling ++ [c]).isPrefixOf n.spelling) ||
    m = .slash && (c = '/' || c = '*')

/-- No mark that comes earlier in the list is the start of a later one. -/
theorem all_split (m : Mark) :
    ∃ l r, all = l ++ m :: r ∧ ∀ n ∈ l, ¬ n.spelling <+: m.spelling := by
  refine ⟨all.takeWhile (· ≠ m), (all.dropWhile (· ≠ m)).tail, ?_, ?_⟩
  · cases m <;> rfl
  · cases m <;> decide

/-- The longest mark at the start of a text is the one that is written there. -/
theorem scan_spelling (m : Mark) {k : List Char} (hk : ∀ c ∈ k.head?, m.joins c = false) :
    scan? (m.spelling ++ k) = some (m, k) := by
  obtain ⟨l, r, hall, hl⟩ := all_split m
  refine List.findSome?_eq_some_iff.mpr ⟨l, m, r, hall, by simp, fun n hn => ?_⟩
  rw [Option.map_eq_none_iff, Option.eq_none_iff_forall_ne_some]
  intro t ht
  have hprefix : n.spelling <+: m.spelling ++ k := ⟨t, List.isPrefixOf?_eq_some_iff_append_eq.mp ht⟩
  obtain hshort | ⟨d, hlong⟩ := List.prefix_or_prefix_of_prefix hprefix (List.prefix_append _ _)
  · exact hl n hn hshort
  cases d with
  | nil =>
    rw [List.append_nil] at hlong
    exact hl n hn (hlong ▸ List.prefix_rfl)
  | cons c d =>
    rw [← hlong, List.prefix_append_right_inj] at hprefix
    cases k with
    | nil => simp at hprefix
    | cons e k =>
      obtain ⟨rfl, -⟩ := List.cons_prefix_cons.mp hprefix
      have hjoins := hk c rfl
      rw [joins, Bool.or_eq_false_iff, List.any_eq_false] at hjoins
      refine hjoins.1 n (by simp [hall, hn]) ?_
      rw [List.isPrefixOf_iff_prefix, ← hlong]
      exact ⟨d, by simp⟩

/-- The first character of a mark starts no other lexeme, and none but a slash a comment. -/
theorem spelling_first (m : Mark) :
    ∃ c r, m.spelling = c :: r ∧ isNameStart c = false ∧ c.isDigit = false ∧ c ≠ '"' ∧ c ≠ '\'' ∧
      isBlank c = false ∧ (c = '/' → m = .slash ∨ r.head? = some '=') := by
  cases m <;> exact ⟨_, _, rfl, by decide, by decide, by decide, by decide, by decide, by decide⟩

end Mark

/-! ## Words -/

/-- The characters that names start with: letters of the English alphabet, the underscore and the
    dollar sign. -/
def StartsName (c : Char) : Prop :=
  'A' ≤ c ∧ c ≤ 'Z' ∨ 'a' ≤ c ∧ c ≤ 'z' ∨ c = '_' ∨ c = '$'

/-- The characters that names go on with: these and the decimal digits. -/
def ExtendsName (c : Char) : Prop :=
  StartsName c ∨ '0' ≤ c ∧ c ≤ '9'

theorem Lexer.isNameStart_iff {c : Char} : isNameStart c ↔ StartsName c := by
  have halpha : c.isAlpha =
      (decide ('A' ≤ c ∧ c ≤ 'Z') || decide ('a' ≤ c) && decide (c ≤ 'z')) := rfl
  simp only [isNameStart, StartsName, halpha, Bool.or_eq_true, Bool.and_eq_true,
    decide_eq_true_eq, or_assoc]

theorem Lexer.isNamePart_iff {c : Char} : isNamePart c ↔ ExtendsName c := by
  have hdigit : c.isDigit = (decide ('0' ≤ c) && decide (c ≤ '9')) := rfl
  simp only [isNamePart, ExtendsName, hdigit, Bool.or_eq_true, isNameStart_iff, Bool.and_eq_true,
    decide_eq_true_eq]

/-- A keyword is spelled as a name is. -/
theorem Keyword.text_word (k : Keyword) :
    ∃ c r, k.text.toList = c :: r ∧ isNameStart c ∧ r.all isNamePart := by
  cases k <;> exact ⟨_, _, rfl, by decide, by decide⟩

theorem Lexer.wordLexeme_keyword (k : Keyword) : wordLexeme k.text.toList = .keyword k := by
  simp [wordLexeme, Keyword.ofText_text]

/-- A word that spells no keyword is a name. -/
theorem Lexer.wordLexeme_identifier {w : List Char} (hfree : ∀ k : Keyword, k.text.toList ≠ w) :
    wordLexeme w = .identifier (String.ofList w) := by
  have hnone : Keyword.ofText? (String.ofList w) = none := by
    refine Option.eq_none_iff_forall_ne_some.mpr fun k hk => hfree k ?_
    rw [Keyword.text_of_ofText hk, String.toList_ofList]
  simp [wordLexeme, hnone]

/-! ## Numbers -/

/-- The digits and the fraction of a number. -/
def numberSpelling (whole part : List Char) : List Char :=
  if part.isEmpty then whole else whole ++ '.' :: part

/-- The number that decimal digits are written for, the last of them worth one. -/
def digitsValue (digits : List Char) : ℕ :=
  Nat.ofDigits 10 (digits.reverse.map fun c => c.toNat - '0'.toNat)

theorem Decimal.ofDecimal_eq (whole part : List Char) :
    ofDecimal whole part = Float.ofScientific (digitsValue (whole ++ part)) true part.length := by
  have hvalue : (whole ++ part).foldl (fun n c => 10 * n + (c.toNat - 48)) 0 =
      digitsValue (whole ++ part) := by
    rw [digitsValue, Nat.ofDigits_eq_foldr, List.foldr_map, List.foldr_reverse]
    exact congrArg (fun f => List.foldl f 0 (whole ++ part)) (by
      funext n c
      exact Nat.add_comm ..)
  rw [ofDecimal, hvalue]

/-! ## Strings -/

/-- What a backslash with a character after it stands for: a quote of either kind, a backslash, a
    line break, or else itself. -/
inductive Escapes : Char → List Char → Prop
  | doubleQuote : Escapes '"' ['"']
  | singleQuote : Escapes '\'' ['\'']
  | backslash : Escapes '\\' ['\\']
  | lineBreak : Escapes 'n' ['\n']
  | itself {c : Char} (hc : c ∉ ['"', '\'', '\\', 'n']) : Escapes c ['\\', c]

/-- What may stand between two quotes `q`, and the characters that it stands for: characters of one
    line, and pairs that start with a backslash. -/
inductive StringBody (q : Char) : List Char → List Char → Prop
  | nil : StringBody q [] []
  | plain {c : Char} {r s : List Char} (hquote : c ≠ q) (hback : c ≠ '\\') (hbreak : c ≠ '\n')
    (h : StringBody q r s) : StringBody q (c :: r) (c :: s)
  | escaped {c : Char} {v r s : List Char} (hbreak : c ≠ '\n') (hv : Escapes c v)
    (h : StringBody q r s) : StringBody q ('\\' :: c :: r) (v ++ s)

theorem Escapes.unescapePair_eq {c : Char} {v : List Char} (h : Escapes c v) :
    Text.unescapePair c = v := by
  cases h with
  | itself hc =>
    simp only [List.mem_cons, List.not_mem_nil, or_false, not_or] at hc
    fun_cases Text.unescapePair c <;> simp_all
  | _ => rfl

theorem Escapes.unescapePair (c : Char) : Escapes c (Text.unescapePair c) := by
  fun_cases Text.unescapePair c with
  | case1 => exact .doubleQuote
  | case2 => exact .singleQuote
  | case3 => exact .backslash
  | case4 => exact .lineBreak
  | case5 c hdouble hsingle hback hn =>
    exact .itself (by simp only [List.mem_cons, List.not_mem_nil, or_false, not_or]; exact
      ⟨hdouble, hsingle, hback, hn⟩)

/-- What the characters between two quotes stand for is read off them. -/
theorem StringBody.unescape_eq {q : Char} {body value : List Char} (h : StringBody q body value) :
    Text.unescape body = value := by
  induction h with
  | nil => rfl
  | plain _ hback _ _ ih => rw [Text.unescape_cons hback, ih]
  | escaped _ hv _ ih => rw [Text.unescape, if_pos rfl, hv.unescapePair_eq, ih]

/-- A character that neither ends a string nor is special in it. -/
theorem Lexer.stringBody_cons {q c : Char} {r : List Char} (hq : c ≠ q) (hbreak : c ≠ '\n')
    (hback : c ≠ '\\') :
    stringBody q (c :: r) = (stringBody q r).map fun (body, rest) => (c :: body, rest) := by
  cases r with
  | nil => simp [stringBody, hq]
  | cons d r => simp [stringBody, hq, hbreak, hback]

/-- A string goes on up to its first unescaped quote. -/
theorem Lexer.stringBody_eq_iff {q : Char} (hq : q = '"' ∨ q = '\'') {r body rest : List Char} :
    stringBody q r = some (body, rest) ↔
      r = body ++ q :: rest ∧ ∃ value, StringBody q body value := by
  have hback : '\\' ≠ q := by obtain rfl | rfl := hq <;> decide
  constructor
  · intro h
    fun_induction stringBody q r generalizing body with
    | case1 => cases h
    | case2 =>
      obtain ⟨rfl, rfl⟩ := Prod.mk.inj (Option.some.inj h)
      exact ⟨rfl, _, .nil⟩
    | case3 => cases h
    | case4 =>
      obtain ⟨rfl, rfl⟩ := Prod.mk.inj (Option.some.inj h)
      exact ⟨rfl, _, .nil⟩
    | case5 => cases h
    | case6 => cases h
    | case7 d r hd hquote hbreak ih =>
      obtain ⟨⟨body', rest'⟩, hread, heq⟩ := Option.map_eq_some_iff.mp h
      obtain ⟨rfl, rfl⟩ := Prod.mk.inj heq
      obtain ⟨rfl, value, hbody⟩ := ih hread
      exact ⟨rfl, _, .escaped hd (.unescapePair d) hbody⟩
    | case8 c d r hquote hbreak hc ih =>
      obtain ⟨⟨body', rest'⟩, hread, heq⟩ := Option.map_eq_some_iff.mp h
      obtain ⟨rfl, rfl⟩ := Prod.mk.inj heq
      obtain ⟨hr, value, hbody⟩ := ih hread
      exact ⟨by rw [hr]; rfl, _, .plain hquote hc hbreak hbody⟩
  · rintro ⟨rfl, value, hbody⟩
    induction hbody with
    | nil => cases rest <;> simp [stringBody]
    | plain hquote hesc hbreak _ ih =>
      rw [List.cons_append, stringBody_cons hquote hbreak hesc, ih]
      rfl
    | escaped hbreak _ _ ih => simp [stringBody, hback, hbreak, ih]

/-- What a string is escaped to stands for the string. -/
theorem StringBody.escape (cs : List Char) : StringBody '"' (Text.escape cs) cs := by
  induction cs with
  | nil => exact .nil
  | cons c r ih =>
    simp only [Text.escape, List.flatMap_cons] at ih ⊢
    fun_cases Text.escapeChar c with
    | case1 => exact .escaped (by decide) .backslash ih
    | case2 => exact .escaped (by decide) .doubleQuote ih
    | case3 => exact .escaped (by decide) .lineBreak ih
    | case4 c hback hquote hbreak => exact .plain hquote hback hbreak ih

/-- No line break stands between two quotes. -/
theorem StringBody.no_break {q : Char} {body value : List Char} (h : StringBody q body value) :
    '\n' ∉ body := by
  induction h with
  | nil => exact List.not_mem_nil
  | plain _ _ hbreak _ ih => simp [Ne.symm hbreak, ih]
  | escaped hbreak _ _ ih => simp [Ne.symm hbreak, ih]

/-! ## Spellings -/

/-- What a lexeme may be written as: a keyword as it is spelled, a name that spells no keyword, a
    number with the double nearest to its decimal, a string on one line in quotes of either kind, or
    a mark. -/
inductive Lexeme.Written : Lexeme → List Char → Prop
  | keyword (k : Keyword) : Written (.keyword k) k.text.toList
  | identifier {c : Char} {r : List Char} (hc : StartsName c) (hr : ∀ d ∈ r, ExtendsName d)
    (hfree : ∀ k : Keyword, k.text.toList ≠ c :: r) :
    Written (.identifier (String.ofList (c :: r))) (c :: r)
  | number {whole part : List Char} (hne : whole ≠ []) (hwhole : whole.all Char.isDigit)
    (hpart : part.all Char.isDigit) :
    Written (.number (Float.ofScientific (digitsValue (whole ++ part)) true part.length))
      (numberSpelling whole part)
  | string {q : Char} {body value : List Char} (hq : q = '"' ∨ q = '\'')
    (hbody : StringBody q body value) :
    Written (.string (String.ofList value)) (q :: (body ++ [q]))
  | mark (m : Mark) : Written (.mark m) m.spelling

namespace Lexeme.Written

theorem word {c : Char} {r : List Char} (hc : isNameStart c) (hr : r.all isNamePart) :
    (wordLexeme (c :: r)).Written (c :: r) := by
  by_cases hkeyword : ∃ k : Keyword, k.text.toList = c :: r
  · obtain ⟨k, hk⟩ := hkeyword
    rw [← hk, wordLexeme_keyword]
    exact .keyword k
  · have hfree (k : Keyword) : k.text.toList ≠ c :: r := fun hk => hkeyword ⟨k, hk⟩
    rw [wordLexeme_identifier hfree]
    exact .identifier (isNameStart_iff.mp hc)
      (fun d hd => isNamePart_iff.mp (List.all_eq_true.mp hr d hd)) hfree

theorem quoted (s : String) :
    (Lexeme.string s).Written ('"' :: (Text.escape s.toList ++ ['"'])) := by
  have h := string (.inl rfl) (.escape s.toList)
  rwa [String.ofList_toList] at h

/-- The cases of a lexeme in the terms of the reader. It reads a keyword as it reads a name. -/
@[elab_as_elim]
theorem readAs {motive : (x : Lexeme) → (w : List Char) → x.Written w → Prop}
    (word : ∀ c r (hc : isNameStart c) (hr : r.all isNamePart), motive _ (c :: r) (.word hc hr))
    (number : ∀ whole part, whole ≠ [] → whole.all Char.isDigit → part.all Char.isDigit →
      ∀ h : Written (.number (Decimal.ofDecimal whole part)) _,
        motive _ (numberSpelling whole part) h)
    (string : ∀ q body value, q = '"' ∨ q = '\'' → StringBody q body value →
      ∀ h : Written (.string (String.ofList (Text.unescape body))) _,
        motive _ (q :: (body ++ [q])) h)
    (mark : ∀ m, motive _ _ (.mark m)) {x : Lexeme} {w : List Char} (h : x.Written w) :
    motive x w h := by
  have hword {x : Lexeme} {w r : List Char} {c : Char} (h : x.Written w) (hw : w = c :: r)
      (hx : wordLexeme w = x) (hc : isNameStart c) (hr : r.all isNamePart) : motive x w h := by
    subst hw hx
    exact word c r hc hr
  cases h with
  | keyword k =>
    obtain ⟨c, r, hk, hc, hr⟩ := k.text_word
    exact hword _ hk (wordLexeme_keyword k) hc hr
  | identifier hc hr hfree =>
    exact hword _ rfl (wordLexeme_identifier hfree) (isNameStart_iff.mpr hc)
      (List.all_eq_true.mpr fun d hd => isNamePart_iff.mpr (hr d hd))
  | number hne hwhole hpart =>
    have h := number _ _ hne hwhole hpart
    simp only [Decimal.ofDecimal_eq] at h
    exact h (.number hne hwhole hpart)
  | string hq hbody =>
    have h := string _ _ _ hq hbody
    simp only [hbody.unescape_eq] at h
    exact h (.string hq hbody)
  | mark m => exact mark m

end Lexeme.Written

/-- Whether a character may not stand directly after a lexeme. -/
def Lexeme.joins : Lexeme → Char → Bool
  | .identifier _, c | .keyword _, c => isNamePart c
  | .number _, c => c.isDigit || c = '.'
  | .mark m, c => m.joins c
  | .string _, _ | .endOfInput, _ => false

@[simp] theorem Lexeme.joins_number (value : Float) (c : Char) :
    (Lexeme.number value).joins c = (c.isDigit || c = '.') := rfl

theorem Lexer.joins_wordLexeme (cs : List Char) (c : Char) :
    (wordLexeme cs).joins c = isNamePart c := by
  unfold wordLexeme
  dsimp only
  split <;> rfl

/-- A run of characters ends before a character that does not belong to it. -/
theorem span_append {p : Char → Bool} {l k : List Char} (hl : l.all p)
    (hk : ∀ c ∈ k.head?, p c = false) : (l ++ k).span p = (l, k) := by
  rw [List.all_eq_true] at hl
  rw [List.span_eq_takeWhile_dropWhile, List.takeWhile_append_of_pos hl,
    List.dropWhile_append_of_pos hl]
  cases k with
  | nil => simp
  | cons c r => simp [hk c rfl]

namespace Lexeme

variable {x : Lexeme} {w k : List Char}

theorem Written.ne_nil (h : x.Written w) : w ≠ [] := by
  cases h using Written.readAs with
  | number whole part hne =>
    unfold numberSpelling
    split
    · exact hne
    · simp
  | mark m => cases m <;> simp [Mark.spelling]
  | _ => simp

/-- A digit starts no name. -/
theorem isNameStart_of_isDigit {c : Char} (h : c.isDigit) : isNameStart c = false := by
  have hsign : c ≠ '_' ∧ c ≠ '$' := by
    constructor
    · rintro rfl
      revert h
      decide
    · rintro rfl
      revert h
      decide
  simp only [Char.isDigit, Bool.and_eq_true, decide_eq_true_eq, ge_iff_le, UInt32.le_iff_toNat_le]
    at h
  delta isNameStart Char.isAlpha Char.isUpper Char.isLower
  simp [hsign, UInt32.le_iff_toNat_le] at h ⊢
  omega

/-- The fraction of a number, before a character that does not belong to the number. -/
theorem fraction_append {part k : List Char} (hpart : part.all Char.isDigit)
    (hk : ∀ c ∈ k.head?, c.isDigit = false ∧ c ≠ '.') :
    fraction ((if part.isEmpty then [] else '.' :: part) ++ k) =
      (if part.isEmpty then [] else '.' :: part, k) := by
  cases part with
  | nil =>
    cases k with
    | nil => rfl
    | cons c r => simp [fraction, (hk c rfl).2]
  | cons d r =>
    simp only [List.all_cons, Bool.and_eq_true] at hpart
    have hspan := span_append hpart.2 fun c hc => (hk c hc).1
    simp only [List.isEmpty_cons, Bool.false_eq_true, if_false, List.cons_append, fraction, hpart.1,
      if_true, hspan]

theorem spelling_cons {c : Char} {r part : List Char} :
    numberSpelling (c :: r) part = c :: (r ++ if part.isEmpty then [] else '.' :: part) := by
  unfold numberSpelling
  split <;> simp

theorem scan_number {whole part : List Char} (hne : whole ≠ []) (hwhole : whole.all Char.isDigit)
    (hpart : part.all Char.isDigit) (hk : ∀ c ∈ k.head?, c.isDigit = false ∧ c ≠ '.') :
    lexeme? (numberSpelling whole part ++ k) =
      some ⟨.number (Decimal.ofDecimal whole part), numberSpelling whole part, k⟩ := by
  obtain ⟨c, r, rfl⟩ := List.exists_cons_of_ne_nil hne
  simp only [List.all_cons, Bool.and_eq_true] at hwhole
  have hnext : ∀ d ∈ ((if part.isEmpty then [] else '.' :: part) ++ k).head?,
    d.isDigit = false := by
    cases part with
    | nil => exact fun d hd => (hk d hd).1
    | cons => simp
  rw [spelling_cons, List.cons_append, List.append_assoc]
  simp only [lexeme?, isNameStart_of_isDigit hwhole.1, hwhole.1, span_append hwhole.2 hnext,
    fraction_append hpart hk, Bool.false_eq_true, if_false, if_true]
  cases part <;> simp

/-- A spelling is read as its lexeme, up to a character that cannot go on with it. -/
theorem scan_written (h : x.Written w) (hk : ∀ c ∈ k.head?, x.joins c = false) :
    lexeme? (w ++ k) = some ⟨x, w, k⟩ := by
  cases h using Written.readAs with
  | word c r hc hr =>
    simp only [joins_wordLexeme] at hk
    simp only [List.cons_append, lexeme?, hc, if_true, span_append hr hk]
  | number whole part hne hwhole hpart =>
    refine scan_number hne hwhole hpart fun c hc => ?_
    have hjoins := hk c hc
    rw [joins_number, Bool.or_eq_false_iff] at hjoins
    exact ⟨hjoins.1, of_decide_eq_false hjoins.2⟩
  | string q body value hq hbody =>
    have hread : stringBody q (body ++ q :: k) = some (body, k) :=
      (stringBody_eq_iff hq).mpr ⟨rfl, value, hbody⟩
    have hfirst : isNameStart q = false ∧ q.isDigit = false := by
      obtain rfl | rfl := hq <;> exact ⟨by decide, by decide⟩
    simp [lexeme?, hfirst, hq, hread]
  | mark m =>
    have hscan := m.scan_spelling hk
    obtain ⟨c, r, hspelling, hname, hdigit, hquote, hquote', -, hslash⟩ := m.spelling_first
    have hcomment : ¬ (c = '/' ∧ (r ++ k).head? = some '*') := by
      rintro ⟨hc, hstar⟩
      obtain rfl | hr := hslash hc
      · obtain rfl : r = [] := (List.cons.inj hspelling).2.symm
        have hjoins := hk '*' hstar
        revert hjoins
        decide
      · rw [List.head?_append, hr] at hstar
        simp at hstar
    rw [hspelling] at hscan ⊢
    have hstring : (c = '"' || c = '\'') = false := by simp [hquote, hquote']
    have hcomment : (c = '/' && (r ++ k).head? = some '*') = false := by
      rwa [Bool.eq_false_iff, ne_eq, Bool.and_eq_true, decide_eq_true_eq, decide_eq_true_eq]
    rw [List.cons_append] at hscan ⊢
    simp only [lexeme?, hname, hdigit, hstring, hcomment, Bool.false_eq_true, if_false, hscan,
      Option.map_some, hspelling]

/-- A spelling starts with no blank and no comment. -/
theorem Written.first (h : x.Written w) (hk : ∀ c ∈ k.head?, x.joins c = false) :
    ∃ c r, w ++ k = c :: r ∧ isBlank c = false ∧
      (c = '/' → r.head? ≠ some '/' ∧ r.head? ≠ some '*') := by
  have hblank {c : Char} (hc : isNamePart c) : isBlank c = false ∧ c ≠ '/' := by
    constructor
    · rw [Bool.eq_false_iff]
      intro hblank
      simp only [isBlank, Bool.or_eq_true, decide_eq_true_eq] at hblank
      obtain (((rfl | rfl) | rfl) | rfl) | rfl := hblank <;> revert hc <;> decide
    · rintro rfl
      revert hc
      decide
  cases h using Written.readAs with
  | word c r hc hr =>
    have hc := hblank (c := c) (by simp [isNamePart, hc])
    exact ⟨c, r ++ k, rfl, hc.1, fun h => absurd h hc.2⟩
  | number whole part hne hwhole hpart =>
    obtain ⟨c, r, rfl⟩ := List.exists_cons_of_ne_nil hne
    simp only [List.all_cons, Bool.and_eq_true] at hwhole
    have hc := hblank (c := c) (by simp [isNamePart, hwhole.1])
    exact ⟨c, (r ++ if part.isEmpty then [] else '.' :: part) ++ k,
      by rw [spelling_cons]; rfl, hc.1,
      fun h => absurd h hc.2⟩
  | string q body value hq =>
    obtain rfl | rfl := hq <;> exact ⟨_, _, rfl, rfl, fun h => absurd h (by decide)⟩
  | mark m =>
    obtain ⟨c, r, hspelling, -, -, -, -, hc, hslash⟩ := m.spelling_first
    refine ⟨c, r ++ k, by rw [hspelling]; rfl, hc, fun h => ?_⟩
    obtain rfl | hr := hslash h
    · obtain rfl : r = [] := (List.cons.inj hspelling).2.symm
      constructor
      · intro hnext
        have hjoins := hk '/' hnext
        revert hjoins
        decide
      · intro hnext
        have hjoins := hk '*' hnext
        revert hjoins
        decide
    · rw [List.head?_append, hr]
      simp

/-- No spelling has a line break in it. -/
theorem Written.no_break (h : x.Written w) : '\n' ∉ w := by
  have hdigit : ('\n' : Char).isDigit = false := by decide
  cases h using Written.readAs with
  | word c r hc hr =>
    rintro hbreak
    obtain hbreak | hbreak := List.mem_cons.mp hbreak
    · rw [← hbreak] at hc
      revert hc
      decide
    · have := List.all_eq_true.mp hr _ hbreak
      revert this
      decide
  | number whole part hne hwhole hpart =>
    have hnot {l : List Char} (hl : l.all Char.isDigit) : '\n' ∉ l := fun hbreak => by
      have := List.all_eq_true.mp hl _ hbreak
      rw [hdigit] at this
      cases this
    unfold numberSpelling
    split
    · exact hnot hwhole
    · simp [hnot hwhole, hnot hpart]
  | string q body value hq hbody =>
    obtain rfl | rfl := hq <;> simp [hbody.no_break]
  | mark m => cases m <;> decide

end Lexeme

/-! ## Texts -/

/-- A text before the characters `k` spells lexemes. The first flag says whether a line break stands
    in the gap before the text, the second one whether one stands in the gap at its end. -/
inductive Spells (k : List Char) : Bool → List Char → List Shape → Bool → Prop
  | nil {b : Bool} : Spells k b [] [] b
  | blank {b b' : Bool} {c : Char} {cs : List Char} {l : List Shape} (hc : isBlank c)
    (h : Spells k (b || c = '\n') cs l b') : Spells k b (c :: cs) l b'
  | lexeme {b b' : Bool} {x : Lexeme} {w cs : List Char} {l : List Shape} (hx : x.Written w)
    (hnext : ∀ c ∈ (cs ++ k).head?, x.joins c = false) (h : Spells k false cs l b') :
    Spells k b (w ++ cs) (⟨x, b⟩ :: l) b'

/-! ### Gaps -/

theorem Lexer.gap_blank {c : Char} {cs : List Char} (hc : isBlank c) :
    gap .blanks (c :: cs) = (c :: (gap .blanks cs).1, (gap .blanks cs).2) := by
  cases cs with
  | nil => simp [gap, hc]
  | cons d r => simp [gap, hc]

/-- Blanks are a gap before what is no gap. -/
theorem Lexer.gap_append {g cs : List Char} (hg : g.all isBlank) (hcs : gap .blanks cs = ([], cs)) :
    gap .blanks (g ++ cs) = (g, cs) := by
  induction g with
  | nil => exact hcs
  | cons c r ih =>
    simp only [List.all_cons, Bool.and_eq_true] at hg
    rw [List.cons_append, gap_blank hg.1, ih hg.2]

/-- No gap starts with a lexeme. -/
theorem Lexer.gap_written {x : Lexeme} {w k : List Char} (h : x.Written w)
    (hk : ∀ c ∈ k.head?, x.joins c = false) : gap .blanks (w ++ k) = ([], w ++ k) := by
  obtain ⟨c, r, hw, hc, hslash⟩ := h.first hk
  rw [hw]
  cases r with
  | nil => simp [gap, hc]
  | cons d r =>
    have hcomment : ¬ (c = '/' ∧ d = '/') ∧ ¬ ((c = '/' ∧ d = '*') ∧ closes r = true) := by
      constructor
      · rintro ⟨hc, rfl⟩
        exact (hslash hc).1 rfl
      · rintro ⟨⟨hc, rfl⟩, -⟩
        exact (hslash hc).2 rfl
    simp [gap, hc, hcomment]

/-! ### Tokens -/

theorem Lexer.tokensFrom_done {g cs : List Char} (hgap : gap .blanks cs = (g, [])) (fuel : ℕ)
    (pos : Position) : tokensFrom (fuel + 1) pos cs = ⟨[], .complete (pos.after g)⟩ := by
  simp only [tokensFrom, hgap]

theorem Lexer.tokensFrom_lexeme {g cs rest : List Char} {s : Scanned}
    (hgap : gap .blanks cs = (g, rest)) (hs : lexeme? rest = some s) (fuel : ℕ) (pos : Position) :
    tokensFrom (fuel + 1) pos cs =
      let tokens := tokensFrom fuel ((pos.after g).after s.taken) s.rest
      ⟨⟨s.lexeme, pos.after g, g.contains '\n'⟩ :: tokens.list, tokens.ending⟩ := by
  cases rest with
  | nil => cases hs
  | cons c r => simp only [tokensFrom, hgap, hs]

namespace Spells

variable {b b' b'' : Bool} {cs cs' k : List Char} {l l' : List Shape}

/-- What a text spells are its tokens, also after blanks. -/
theorem tokens_after (h : Spells [] b cs l b') (g : List Char) (pos : Position) (fuel : ℕ)
    (hg : g.all isBlank) (hbreak : g.contains '\n' = b) (hfuel : (g ++ cs).length < fuel) :
    ∃ tokens pos', tokensFrom fuel pos (g ++ cs) = ⟨tokens, .complete pos'⟩ ∧
      tokens.map Token.shape = l := by
  induction h generalizing g pos fuel with
  | nil =>
    obtain ⟨fuel, rfl⟩ := Nat.exists_eq_add_of_lt hfuel
    exact ⟨[], _, tokensFrom_done (gap_append hg rfl) _ pos, rfl⟩
  | @blank b b' c cs l hc h ih =>
    have := ih (g ++ [c]) pos fuel (by simp [hg, hc]) (by simp [← hbreak, eq_comm])
      (by simpa using hfuel)
    simpa using this
  | @lexeme b b' x w cs l hx hnext h ih =>
    rw [List.append_nil] at hnext
    obtain ⟨fuel, rfl⟩ : ∃ n, fuel = n + 1 := Nat.exists_eq_succ_of_ne_zero (by omega)
    have hlength : 0 < w.length := List.length_pos_of_ne_nil hx.ne_nil
    have hgap := gap_append hg (gap_written hx hnext)
    obtain ⟨tokens, pos', htokens, hl⟩ := ih [] ((pos.after g).after w) fuel rfl rfl (by
      simp only [List.length_append, List.nil_append] at hfuel ⊢
      omega)
    refine ⟨⟨x, pos.after g, g.contains '\n'⟩ :: tokens, pos', ?_, ?_⟩
    · rw [tokensFrom_lexeme hgap (Lexeme.scan_written hx hnext)]
      rw [List.nil_append] at htokens
      simp only [htokens]
    · rw [List.map_cons, hl, Token.shape, hbreak]

/-- What a text spells are its tokens. -/
theorem tokens {s : String} (h : Spells [] false s.toList l b') :
    ∃ pos, (tokenize s).ending = .complete pos ∧ (tokenize s).list.map Token.shape = l := by
  obtain ⟨tokens, pos, htokens, hl⟩ := h.tokens_after [] .start (s.toList.length + 1) rfl rfl
    (Nat.lt_succ_self _)
  rw [List.nil_append] at htokens
  refine ⟨pos, ?_, ?_⟩
  · rw [tokenize, htokens]
  · rw [tokenize, htokens]
    exact hl

/-! ### Parts of texts -/

/-- One text after the other. -/
theorem append (h : Spells (cs' ++ k) b cs l b') (h' : Spells k b' cs' l' b'') :
    Spells k b (cs ++ cs') (l ++ l') b'' := by
  induction h with
  | nil => exact h'
  | blank hc _ ih => exact .blank hc (ih h')
  | lexeme hx hnext _ ih =>
    rw [List.append_assoc]
    exact .lexeme hx (by rwa [List.append_assoc]) (ih h')

/-- A blank before a text. -/
theorem space (h : Spells k b cs l b') : Spells k b (' ' :: cs) l b' :=
  .blank rfl (by simpa using h)

/-- A line break before a text. -/
theorem newline (h : Spells k true cs l b') : Spells k b ('\n' :: cs) l b' :=
  .blank rfl (by simpa using h)

theorem head_indentFrom (cs k : List Char) :
    (Text.indentFrom false cs ++ k).head? = (cs ++ k).head? := by
  cases cs with
  | nil => rfl
  | cons c r =>
    rw [Text.indentFrom]
    split <;> simp

theorem indentFrom_append {w : List Char} (hw : '\n' ∉ w) (cs : List Char) :
    Text.indentFrom false (w ++ cs) = w ++ Text.indentFrom false cs := by
  induction w with
  | nil => rfl
  | cons c r ih =>
    rw [List.mem_cons, not_or] at hw
    rw [List.cons_append, Text.indentFrom, if_neg (Ne.symm hw.1),
      if_neg Bool.false_ne_true, ih hw.2,
      List.cons_append]

/-- Blanks go before the first character of a line. -/
theorem indentFrom_fresh {c : Char} (hc : c ≠ '\n') (cs : List Char) :
    Text.indentFrom true (c :: cs) =
      ' ' :: ' ' :: ' ' :: ' ' :: Text.indentFrom false (c :: cs) := by
  simp [Text.indentFrom, hc]

/-- A text that is moved to the right spells the same. -/
theorem indent (h : Spells k b cs l b') (fresh : Bool) :
    Spells k b (Text.indentFrom fresh cs) l b' := by
  induction h generalizing fresh with
  | nil => exact .nil
  | @blank b b' c cs l hc h ih =>
    rw [Text.indentFrom]
    split
    · exact .blank hc (ih true)
    · split
      · exact .space (.space (.space (.space (.blank hc (ih false)))))
      · exact .blank hc (ih false)
  | @lexeme b b' x w cs l hx hnext h ih =>
    have hplain : Spells k b (Text.indentFrom false (w ++ cs)) (⟨x, b⟩ :: l) b' := by
      rw [indentFrom_append hx.no_break]
      exact .lexeme hx (by rwa [head_indentFrom]) (ih false)
    cases fresh with
    | false => exact hplain
    | true =>
      obtain ⟨c, r, rfl⟩ := List.exists_cons_of_ne_nil hx.ne_nil
      have hc : c ≠ '\n' := fun hc => hx.no_break (by simp [hc])
      rw [List.cons_append] at hplain ⊢
      rw [indentFrom_fresh hc]
      exact .space (.space (.space (.space hplain)))

end Spells

end CoScript
