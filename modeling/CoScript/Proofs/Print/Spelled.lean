import CoScript.Proofs.Print.Opening
import CoScript.Proofs.Source.Spelling

/-!
# What the printer spells

The text of a tree spells the lexemes of the tree, before any text that does not join them: one that
starts neither like the rest of a name nor, unless a member may follow, with a point.

Results:
* `Item`: a part of a text that spells its lexemes before any text that does not join them.
* `Expr.Spelled`: the text of an expression is such a part; one lemma for each kind of expression.
* `Block.Spelled`, `spells_key`, `spells_initializer`: the same for blocks and the parts of objects
  and declarations.
-/

namespace CoScript

open Lexer Shape

/-! ## Lexemes -/

namespace Mark

/-- A mark that no character makes longer. -/
def isFinal (m : Mark) : Bool :=
  m ≠ .slash && all.all fun n => n = m || !m.spelling.isPrefixOf n.spelling

theorem joins_of_isFinal {m : Mark} (h : m.isFinal) (c : Char) : m.joins c = false := by
  unfold isFinal at h
  rw [Bool.and_eq_true, decide_eq_true_eq, List.all_eq_true] at h
  rw [joins, decide_eq_false h.1, Bool.false_and, Bool.or_false, List.any_eq_false]
  intro n hn hprefix
  rw [List.isPrefixOf_iff_prefix] at hprefix
  have hfinal := h.2 n hn
  rw [Bool.or_eq_true, decide_eq_true_eq, Bool.not_eq_true', ← Bool.not_eq_true,
    List.isPrefixOf_iff_prefix] at hfinal
  obtain rfl | hfinal := hfinal
  · have hlength := hprefix.length_le
    rw [List.length_append, List.length_singleton] at hlength
    omega
  · exact hfinal ((List.prefix_append _ _).trans hprefix)

theorem joins_space (m : Mark) : m.joins ' ' = false := by
  cases m <;> decide

end Mark

theorem Lexeme.Written.of_isWord {s : String} (hs : isWord s) :
    (wordLexeme s.toList).Written s.toList := by
  unfold isWord at hs
  cases hcs : s.toList with
  | nil => simp [hcs] at hs
  | cons c r =>
    simp only [hcs, List.head?_cons, Option.any_some, List.all_cons, Bool.and_eq_true] at hs
    exact .word hs.1 hs.2.2

namespace Spells

variable {b b' : Bool} {cs k : List Char} {l : List Shape} {s : String}

theorem word (hs : isWord s) (hnext : ∀ c ∈ (cs ++ k).head?, isNamePart c = false)
    (h : Spells k false cs l b') :
    Spells k b (s.toList ++ cs) (⟨wordLexeme s.toList, b⟩ :: l) b' :=
  .lexeme (.of_isWord hs) (fun d hd => by rw [joins_wordLexeme]; exact hnext d hd) h

theorem keyword (w : Keyword) (hnext : ∀ c ∈ (cs ++ k).head?, isNamePart c = false)
    (h : Spells k false cs l b') :
    Spells k b (w.text.toList ++ cs) (⟨.keyword w, b⟩ :: l) b' :=
  .lexeme (.keyword w) hnext h

theorem mark (m : Mark) (hm : m.isFinal) (h : Spells k false cs l b') :
    Spells k b (m.spelling ++ cs) (⟨.mark m, b⟩ :: l) b' :=
  .lexeme (.mark m) (fun c _ => Mark.joins_of_isFinal hm c) h

theorem mark_space (m : Mark) (h : Spells k false cs l b') :
    Spells k b (m.spelling ++ ' ' :: cs) (⟨.mark m, b⟩ :: l) b' := by
  refine .lexeme (.mark m) (fun c hc => ?_) (.space h)
  obtain rfl : ' ' = c := by simpa using hc
  exact m.joins_space

theorem quote (s : String) (h : Spells k false cs l b') :
    Spells k b ((Text.quote s).toList ++ cs) (⟨.string s, b⟩ :: l) b' := by
  rw [Text.quote, String.toList_ofList]
  exact .lexeme (.quoted s) (fun _ _ => rfl) h

/-- A text that ends with its only lexeme. -/
theorem lexeme_end {x : Lexeme} {w : List Char} (hx : x.Written w)
    (hnext : ∀ c ∈ k.head?, x.joins c = false) : Spells k b w [⟨x, b⟩] false := by
  have h : Spells k b (w ++ []) [⟨x, b⟩] false := .lexeme hx hnext .nil
  rwa [List.append_nil] at h

theorem word_end (hs : isWord s) (hnext : ∀ c ∈ k.head?, isNamePart c = false) :
    Spells k b s.toList [⟨wordLexeme s.toList, b⟩] false := by
  have h : Spells k b (s.toList ++ []) [⟨wordLexeme s.toList, b⟩] false := .word hs hnext .nil
  rwa [List.append_nil] at h

theorem keyword_end (w : Keyword) (hnext : ∀ c ∈ k.head?, isNamePart c = false) :
    Spells k b w.text.toList [⟨.keyword w, b⟩] false := by
  have h : Spells k b (w.text.toList ++ []) [⟨.keyword w, b⟩] false := .keyword w hnext .nil
  rwa [List.append_nil] at h

theorem quote_end (s : String) : Spells k b (Text.quote s).toList [⟨.string s, b⟩] false := by
  have h : Spells k b ((Text.quote s).toList ++ []) [⟨.string s, b⟩] false := .quote s .nil
  rwa [List.append_nil] at h

theorem ne_nil (h : Spells k b cs l b') (hl : l ≠ []) : cs ≠ [] := by
  cases h with
  | nil => exact absurd rfl hl
  | blank => simp
  | lexeme hx => simp [hx.ne_nil]

/-- A text whose first lexeme an expression may begin with does not start like an assignment. -/
theorem head_ne (h : Spells k b cs l b') (hl : ∀ x ∈ l.head?, x.lexeme.begins) :
    ∀ c ∈ cs.head?, c ≠ '=' := by
  cases h with
  | nil => simp
  | blank hc =>
    rintro c hmem rfl
    obtain rfl := Option.some.inj hmem
    cases hc
  | @lexeme _ _ x w cs l hx hnext h =>
    have hbegins : x.begins := hl _ rfl
    rintro c hmem rfl
    obtain ⟨r, hw⟩ : ∃ r, w = '=' :: r := by
      obtain ⟨d, r, hw⟩ := List.exists_cons_of_ne_nil hx.ne_nil
      rw [hw] at hmem
      obtain rfl := Option.some.inj hmem
      exact ⟨r, hw⟩
    cases hx using Lexeme.Written.readAs with
    | word c r hc =>
      obtain ⟨rfl, -⟩ := List.cons.inj hw
      revert hc
      decide
    | number whole part hne hwhole =>
      obtain ⟨d, r', rfl⟩ := List.exists_cons_of_ne_nil hne
      rw [Lexeme.spelling_cons] at hw
      obtain ⟨rfl, -⟩ := List.cons.inj hw
      simp at hwhole
    | string q body value hq =>
      obtain ⟨rfl, -⟩ := List.cons.inj hw
      revert hq
      decide
    | mark m => cases m <;> simp_all [Mark.spelling, Lexeme.begins]

end Spells

/-! ## Parts of texts -/

/-- What comes next goes on with no lexeme that an expression may end with. -/
def Loose (k : List Char) : Prop :=
  ∀ c ∈ k.head?, isNamePart c = false ∧ c ≠ '.'

theorem Loose.of_cons {c : Char} {k : List Char} (hc : isNamePart c = false ∧ c ≠ '.') :
    Loose (c :: k) := by
  intro d hd
  obtain rfl : c = d := by simpa using hd
  exact hc

/-- What comes next does not go on with a name. -/
theorem Loose.next {k : List Char} (h : Loose k) : ∀ c ∈ k.head?, isNamePart c = false :=
  fun c hc => (h c hc).1

theorem next_cons {c : Char} {k : List Char} (hc : isNamePart c = false) :
    ∀ d ∈ (c :: k).head?, isNamePart d = false := by
  intro d hd
  obtain rfl : c = d := by simpa using hd
  exact hc

/-- A text spells shapes wherever something loose comes after it. -/
def Item (b : Bool) (t : String) (l : List Shape) : Prop :=
  ∀ k, Loose k → Spells k b t.toList l false

variable {b : Bool} {k : List Char} {β : Type}

/-- A text in parentheses, if they are needed. -/
theorem spells_parens {needed : Bool} {t : String} {l : Bool → List Shape}
    (hneeded : needed = true → Spells (')' :: k) false t.toList (l false) false)
    (hplain : needed = false → Spells k b t.toList (l b) false) :
    Spells k b (Text.parens needed t).toList (parens needed l b) false := by
  cases needed with
  | false => exact hplain rfl
  | true =>
    simp only [Text.parens, parens, if_true, String.toList_append, String.reduceToList,
      List.cons_append, List.nil_append]
    refine .mark .openParen rfl (.append (hneeded rfl) ?_)
    exact .mark .closeParen rfl .nil

/-- Items with commas and blanks between them. -/
theorem spells_join {ts : List String} {ls : List (List Shape)}
    (h : List.Forall₂ (Item false) ts ls)
    (hk : Loose k) : Spells k false (Text.join ", " ts).toList (commas ls) false := by
  induction h with
  | nil => exact .nil
  | @cons t l ts ls ht hts ih =>
    cases hts with
    | nil => exact ht k hk
    | cons ht' hts =>
      simp only [Text.join, String.toList_append, String.reduceToList, List.append_assoc,
        List.cons_append, List.nil_append]
      refine .append (ht _ (.of_cons (by decide))) ?_
      exact .mark .comma rfl (.space ih)

/-- Arguments between parentheses. -/
theorem spells_args {ts : List String} {ls : List (List Shape)} {cs : List Char} {l : List Shape}
    {b' : Bool} (h : List.Forall₂ (Item false) ts ls) (hrest : Spells k false cs l b') :
    Spells k b ('(' :: ((Text.join ", " ts).toList ++ ')' :: cs))
      (⟨.mark .openParen, b⟩ :: (commas ls ++ mark .closeParen :: l)) b' := by
  refine .mark .openParen rfl (.append (spells_join h (.of_cons (by decide))) ?_)
  exact .mark .closeParen rfl hrest

theorem belowText_cons (t : String) (ts : List String) :
    (belowText (t :: ts)).toList =
      '\n' :: (Text.indentFrom true t.toList ++ (belowText ts).toList) := by
  simp only [belowText, List.map_cons, String.join_cons, String.toList_append, String.reduceToList,
    Text.indent, String.toList_ofList, List.cons_append, List.nil_append]

/-- Items below a line, one level to the right. -/
theorem spells_below {ts : List String} {ls : List (List Shape)}
    (h : List.Forall₂ (Item true) ts ls)
    (hk : Loose k) :
    Spells k b (belowText ts).toList ls.flatten (if ts.isEmpty then b else false) := by
  induction h generalizing b with
  | nil => exact .nil
  | @cons t l ts ls ht hts ih =>
    have hnext : Loose ((belowText ts).toList ++ k) := by
      cases ts with
      | nil => exact hk
      | cons =>
        rw [belowText_cons]
        exact .of_cons (by decide)
    have hrest : Spells k false (belowText ts).toList ls.flatten false := by
      simpa using ih (b := false)
    rw [belowText_cons, List.flatten_cons]
    exact .newline (.append ((ht _ hnext).indent true) hrest)

/-- Items between braces. -/
theorem spells_braced {ts : List String} {ls : List (List Shape)}
    (h : List.Forall₂ (Item true) ts ls) :
    Spells k b (bracedText ts).toList (braced ls b) false := by
  have hempty : ls.isEmpty = ts.isEmpty := by cases h <;> rfl
  unfold bracedText braced
  rw [hempty]
  cases hts : ts.isEmpty with
  | true =>
    rw [hts, List.isEmpty_iff] at hempty
    simp only [if_true, String.reduceToList, hempty, List.flatten_nil]
    exact .mark .openBrace rfl (.mark .closeBrace rfl .nil)
  | false =>
    simp only [Bool.false_eq_true, if_false, String.toList_append, String.reduceToList,
      List.cons_append, List.nil_append]
    refine .mark .openBrace rfl (.append (spells_below h (.of_cons (by decide))) ?_)
    simp only [hts, Bool.false_eq_true, if_false, Bool.not_false]
    exact .newline (.mark .closeBrace rfl .nil)

/-- `async` before another lexeme, if it is there. -/
theorem spells_async {isAsync : Bool} {x : Lexeme} {w cs : List Char} {l : List Shape} {b' : Bool}
    (hx : x.Written w) (hnext : ∀ c ∈ (cs ++ k).head?, x.joins c = false)
    (h : Spells k false cs l b') :
    Spells k b ((asyncText isAsync).toList ++ (w ++ cs)) (afterAsync isAsync x b ++ l) b' := by
  have hlexeme {b : Bool} : Spells k b (w ++ cs) (⟨x, b⟩ :: l) b' := .lexeme hx hnext h
  cases isAsync with
  | false => exact hlexeme
  | true =>
    have hspace : Loose (' ' :: (w ++ cs) ++ k) := .of_cons (by decide)
    simp only [asyncText, afterAsync, if_true, String.reduceToList, List.cons_append,
      List.nil_append]
    exact .keyword .asyncWord hspace.next (.space hlexeme)

/-- Generic parameters. -/
theorem spells_generics {names : TypeParams} (hformed : names.Formed)
    (hk : ∀ c ∈ k.head?, c ≠ '=') :
    Spells k false (genericsText names).toList (generics names) false := by
  have hless {c : Char} (hc : c ≠ '=') : Mark.less.joins c = false := by
    simp [Mark.joins, Mark.all, Mark.spelling, List.isPrefixOf, hc]
  have hgreater {c : Char} (hc : c ≠ '=') : Mark.greater.joins c = false := by
    simp [Mark.joins, Mark.all, Mark.spelling, List.isPrefixOf, hc]
  cases names with
  | none => exact .nil
  | some ns =>
    obtain ⟨hne, -, hnames⟩ := hformed ns rfl
    have hitems : List.Forall₂ (Item false) ns (ns.map fun n => [word n]) := by
      rw [List.forall₂_map_right_iff, List.forall₂_same]
      exact fun n hn k hk => .word_end (isWord_of_isName (hnames n hn)) hk.next
    have hlist : Spells k false ((Text.join ", " ns).toList ++ ['>'])
        (commas (ns.map fun n => [word n]) ++ [mark .greater]) false :=
      .append (spells_join hitems (.of_cons (by decide)))
        (.lexeme_end (.mark .greater) fun c hc => hgreater (hk c hc))
    have hfirst := hlist.head_ne (by
      obtain ⟨n, r, rfl⟩ := List.exists_cons_of_ne_nil hne
      have hbegins := Lexeme.begins_of_name
        (Lexer.wordLexeme_name (hnames n (List.mem_cons_self ..)))
      cases r <;> simpa [commas, separated, word] using hbegins)
    simp only [genericsText, generics, List.isEmpty_iff, hne, if_false, String.toList_append,
      String.reduceToList, List.cons_append, List.nil_append]
    refine .lexeme (.mark .less) (fun c hc => hless (hfirst c ?_)) hlist
    rwa [List.head?_append_of_ne_nil _ (by simp)] at hc

/-! ## Expressions -/

/-- What comes next goes on with no lexeme that the text of an expression may end with. -/
def Expr.Fits (e : Expr) (k : List Char) : Prop :=
  ∀ c ∈ k.head?, isNamePart c = false ∧ (c = '.' → e.needsObjectParens = false)

theorem Loose.fits {k : List Char} (h : Loose k) (e : Expr) : e.Fits k :=
  fun c hc => ⟨(h c hc).1, fun hdot => absurd hdot (h c hc).2⟩

/-- Only what may stand before a point has to fit a point. -/
theorem Expr.Fits.loose {e : Expr} {k : List Char} (h : e.Fits k) (hlevel : e.level < callLevel) :
    Loose k := by
  refine fun c hc => ⟨(h c hc).1, fun hdot => ?_⟩
  have hneeded := (h c hc).2 hdot
  unfold Expr.needsObjectParens at hneeded
  split at hneeded
  · cases hneeded
  · exact absurd hlevel (of_decide_eq_false hneeded)

/-- The text of an expression spells its shapes. -/
def Expr.Spelled (e : Expr) : Prop :=
  ∀ b k, e.Fits k → Spells k b e.text.toList (e.shapes b) false

namespace Expr

variable {pos : Position} {e left right : Expr}

theorem Spelled.item (h : e.Spelled) (b : Bool) : Item b e.text (e.shapes b) :=
  fun k hk => h b k (hk.fits e)

/-- An expression in parentheses, if they are needed. -/
theorem Spelled.parens (h : e.Spelled) (needed : Bool) (b : Bool) :
    Item b (Text.parens needed e.text) (parens needed e.shapes b) :=
  fun k hk => spells_parens (fun _ => h.item false _ (.of_cons (by decide))) fun _ => h.item b k hk

/-- An object before a point. -/
theorem Spelled.object (h : e.Spelled) (b : Bool) (k : List Char) :
    Spells ('.' :: k) b (Text.parens e.needsObjectParens e.text).toList
      (Shape.parens e.needsObjectParens e.shapes b) false :=
  spells_parens (fun _ => h.item false _ (.of_cons (by decide))) fun hneeded => h b _ fun c hc => by
    obtain rfl : '.' = c := by simpa using hc
    exact ⟨by decide, fun _ => hneeded⟩

theorem spelled_literal {value : Literal} (h : value.Legible) : (literal pos value).Spelled := by
  intro b k hk
  cases value with
  | number v =>
    obtain ⟨whole, part, hne, hwhole, hpart, htext, rfl⟩ := h
    rw [Expr.text, Literal.text, htext]
    have hwritten := Lexeme.Written.number hne hwhole hpart
    rw [← Decimal.ofDecimal_eq] at hwritten
    refine .lexeme_end hwritten fun c hc => ?_
    obtain ⟨hname, hdot⟩ := hk c hc
    rw [isNamePart, Bool.or_eq_false_iff] at hname
    rw [Literal.lexeme, Lexeme.joins_number, Bool.or_eq_false_iff]
    refine ⟨hname.2, decide_eq_false fun h => ?_⟩
    simpa [needsObjectParens] using hdot h
  | string s => exact .quote_end s
  | bool v =>
    cases v with
    | true => exact .keyword_end .trueWord fun c hc => (hk c hc).1
    | false => exact .keyword_end .falseWord fun c hc => (hk c hc).1
  | null => exact .keyword_end .nullWord fun c hc => (hk c hc).1

theorem spelled_name {ident : String} (h : isName ident) : (name pos ident).Spelled :=
  fun _ _ hk => .word_end (isWord_of_isName h) fun c hc => (hk c hc).1

theorem spelled_this : (this pos).Spelled :=
  fun _ _ hk => .keyword_end .thisWord fun c hc => (hk c hc).1

theorem spelled_array {es : List Expr}
    (h : List.Forall₂ (Item false) (argTexts es) (argShapes es)) :
    (array pos es).Spelled := by
  intro b k _
  simp only [Expr.text, Expr.shapes, String.toList_append, String.reduceToList, List.cons_append,
    List.nil_append]
  refine .mark .openBracket rfl (.append (spells_join h (.of_cons (by decide))) ?_)
  exact .mark .closeBracket rfl .nil

theorem spelled_object {ps : List Property}
    (h : List.Forall₂ (Item false) (propertyTexts ps) (propertyShapes ps)) :
    (object pos ps).Spelled := by
  intro b k _
  simp only [Expr.text, Text.braces, Expr.shapes, String.toList_append, String.reduceToList,
    List.cons_append, List.nil_append]
  refine .mark .openBrace rfl (.append (spells_join h (.of_cons (by decide))) ?_)
  exact .mark .closeBrace rfl .nil

/-- An operand, and another one after an operator with blanks around it. -/
theorem spells_infix {op : Mark} (hleft : left.Spelled) (hright : right.Spelled)
    (needed needed' : Bool)
    (b : Bool) :
    Item b (Text.parens needed left.text ++ " " ++ op.text ++ " " ++ Text.parens needed' right.text)
      (Shape.parens needed left.shapes b ++ mark op ::
        Shape.parens needed' right.shapes false) := by
  intro k hk
  simp only [String.toList_append, String.reduceToList, List.append_assoc, List.cons_append,
    List.nil_append, Mark.text, String.toList_ofList]
  refine .append (hleft.parens needed b _ (.of_cons (by decide))) (.space ?_)
  exact .mark_space op (hright.parens needed' false k hk)

theorem spelled_binary {op : BinaryOp} (hleft : left.Spelled) (hright : right.Spelled) :
    (binary pos op left right).Spelled := by
  intro b k hk
  have hlevel : op.level < callLevel := by cases op <;> decide
  rw [Expr.text, Expr.shapes]
  exact spells_infix hleft hright _ _ b k (hk.loose hlevel)

theorem spelled_assign {op : AssignOp} (hleft : left.Spelled) (hright : right.Spelled) :
    (assign pos op left right).Spelled := by
  intro b k hk
  have hlevel : assignmentLevel < callLevel := by decide
  rw [Expr.text, Expr.shapes]
  exact spells_infix hleft hright _ _ b k (hk.loose hlevel)

/-- A sign goes on with an operand only if the operand starts with the sign. -/
theorem joins_sign {op : UnaryOp} {m : Mark} (hm : op.lexeme = .mark m) {t : String} {c : Char}
    {r : List Char} (ht : Text.startsWith t op.text = false) (hc : t.toList = c :: r)
    (hne : c ≠ '=') :
    m.joins c = false := by
  unfold Text.startsWith at ht
  rw [hc] at ht
  cases op with
  | discard => cases hm
  | not | negate | plus =>
    obtain rfl := Lexeme.mark.inj hm
    simp [UnaryOp.text, List.isPrefixOf] at ht
    simp [Mark.joins, Mark.all, Mark.spelling, List.isPrefixOf, hne, Ne.symm ht]

/-- An operator before its operand, whose text starts with the character `c`. -/
theorem spells_unaryText {op : UnaryOp} {t : String} {l : List Shape} {c : Char} {r : List Char}
    (h : Spells k false t.toList l false) (hc : t.toList = c :: r) (hne : c ≠ '=') :
    Spells k b (unaryText op t).toList (⟨op.lexeme, b⟩ :: l) false := by
  have hmark {m : Mark} (hm : op.lexeme = .mark m) (htext : op.text.toList = m.spelling) :
      Spells k b (unaryText op t).toList (⟨op.lexeme, b⟩ :: l) false := by
    unfold unaryText
    rw [hm]
    split
    · simp only [String.toList_append, String.reduceToList, List.append_assoc, List.cons_append,
        List.nil_append, htext]
      exact .mark_space m h
    · rename_i hcond
      rw [Bool.or_eq_true, not_or, Bool.not_eq_true, Bool.not_eq_true] at hcond
      rw [String.toList_append, htext]
      refine .lexeme (.mark m) (fun d hd => ?_) h
      rw [hc] at hd
      obtain rfl := Option.some.inj hd
      exact joins_sign hm hcond.2 hc hne
  cases op with
  | discard =>
    have hspace : Loose (' ' :: t.toList ++ k) := .of_cons (by decide)
    simp only [unaryText, UnaryOp.text, decide_true, Bool.true_or, if_true, String.toList_append,
      String.reduceToList, List.cons_append, List.nil_append]
    exact .keyword .voidWord hspace.next (.space h)
  | not => exact hmark rfl rfl
  | negate => exact hmark rfl rfl
  | plus => exact hmark rfl rfl

theorem spelled_unary {op : UnaryOp} (h : e.Spelled) {s : Site} (hformed : e.Formed s) :
    (unary pos op e).Spelled := by
  intro b k hk
  have hlevel : unaryLevel < callLevel := by decide
  have hoperand := h.parens (decide (e.level < unaryLevel)) false k (hk.loose hlevel)
  obtain ⟨s, r, hshapes, hs, -⟩ :=
    (e.shapes_begin false hformed).parens (decide (e.level < unaryLevel))
  have hfirst := hoperand.head_ne fun x hx => by
    rw [hshapes] at hx
    obtain rfl := Option.some.inj hx
    exact hs
  rw [Expr.text, Expr.shapes]
  cases htext : (Text.parens (decide (e.level < unaryLevel)) e.text).toList with
  | nil => exact absurd htext (hoperand.ne_nil (by simp [hshapes]))
  | cons c r =>
    rw [htext] at hfirst
    exact spells_unaryText hoperand htext (hfirst c rfl)

theorem spelled_update {op : UpdateOp} {before : Bool} (h : e.Spelled) :
    (update pos op before e).Spelled := by
  intro b k hk
  have hlevel : (update pos op before e).level < callLevel := by
    rw [level]
    split <;> decide
  have hop : op.mark.isFinal := by cases op <;> decide
  have hfirst : ∀ k, Loose (op.mark.spelling ++ k) := fun k => by
    cases op <;> exact .of_cons (by decide)
  cases before with
  | true =>
    simp only [Expr.text, Expr.shapes, if_true, String.toList_append, UpdateOp.text, Mark.text,
      String.toList_ofList]
    exact .mark op.mark hop (h.parens _ false k (hk.loose hlevel))
  | false =>
    simp only [Expr.text, Expr.shapes, Bool.false_eq_true, if_false, String.toList_append,
      UpdateOp.text, Mark.text, String.toList_ofList]
    exact .append (h.parens _ b _ (hfirst k))
      (.lexeme_end (.mark op.mark) fun c _ => Mark.joins_of_isFinal hop c)

theorem spelled_conditional {condition thenValue elseValue : Expr} (hcondition : condition.Spelled)
    (hthen : thenValue.Spelled) (helse : elseValue.Spelled) :
    (conditional pos condition thenValue elseValue).Spelled := by
  intro b k hk
  have hlevel : conditionalLevel < callLevel := by decide
  simp only [Expr.text, Expr.shapes, String.toList_append, String.reduceToList, List.append_assoc,
    List.cons_append, List.nil_append]
  refine .append (hcondition.parens _ b _ (.of_cons (by decide)))
    (.space (.mark_space .question ?_))
  refine .append (hthen.parens _ false _ (.of_cons (by decide))) (.space (.mark_space .colon ?_))
  exact helse.parens _ false k (hk.loose hlevel)

theorem spelled_call {es : List Expr} (h : e.Spelled)
    (hargs : List.Forall₂ (Item false) (argTexts es) (argShapes es)) : (call pos e es).Spelled := by
  intro b k _
  simp only [Expr.text, Expr.shapes, String.toList_append, String.reduceToList, List.append_assoc,
    List.cons_append, List.nil_append]
  exact .append (h.parens _ b _ (.of_cons (by decide))) (spells_args hargs .nil)

theorem spelled_member {attr : String} (h : e.Spelled) (hattr : isWord attr) :
    (member pos e attr).Spelled := by
  intro b k hk
  simp only [Expr.text, Expr.shapes, String.toList_append, String.reduceToList, List.append_assoc,
    List.cons_append, List.nil_append]
  refine .append (h.object b _) (.mark .dot rfl ?_)
  exact .word_end hattr fun c hc => (hk c hc).1

theorem spelled_index {key : Expr} (h : e.Spelled) (hkey : key.Spelled) :
    (index pos e key).Spelled := by
  intro b k _
  simp only [Expr.text, Expr.shapes, String.toList_append, String.reduceToList, List.append_assoc,
    List.cons_append, List.nil_append]
  refine .append (spells_parens (fun _ => h.item false _ (.of_cons (by decide))) fun _ =>
    h.item b _ (.of_cons (by decide))) (.mark .openBracket rfl ?_)
  refine .append (hkey.item false _ (.of_cons (by decide))) (.mark .closeBracket rfl .nil)

theorem spelled_construct {es : List Expr} (h : e.Spelled)
    (hargs : List.Forall₂ (Item false) (argTexts es) (argShapes es)) :
    (construct pos e es).Spelled := by
  intro b k _
  simp only [Expr.text, Expr.shapes, String.toList_append, String.reduceToList, List.append_assoc,
    List.cons_append, List.nil_append]
  refine .keyword .newWord (next_cons (by decide)) (.space ?_)
  exact .append (h.parens _ false _ (.of_cons (by decide))) (spells_args hargs .nil)

theorem spelled_superCall {es : List Expr}
    (hargs : List.Forall₂ (Item false) (argTexts es) (argShapes es)) :
    (superCall pos es).Spelled := by
  intro b k _
  simp only [Expr.text, Expr.shapes, String.toList_append, String.reduceToList, List.cons_append,
    List.nil_append]
  exact .keyword .superWord (next_cons (by decide)) (spells_args hargs .nil)

theorem spelled_await (h : e.Spelled) : (await pos e).Spelled := by
  intro b k hk
  have hlevel : unaryLevel < callLevel := by decide
  simp only [Expr.text, Expr.shapes, String.toList_append, String.reduceToList, List.cons_append,
    List.nil_append]
  exact .keyword .awaitWord (next_cons (by decide)) (.space (h.parens _ false k (hk.loose hlevel)))

end Expr

/-! ## Functions -/

/-- The text of a block spells its shapes, whatever comes after it. -/
def Block.Spelled (body : Block) : Prop :=
  ∀ b k, Spells k b body.text.toList (body.shapes b) false

variable {cs : List Char} {l : List Shape} {b' : Bool} {e : Expr}

theorem Block.spelled_of_stmts {pos : Position} {ss : List Stmt}
    (h : List.Forall₂ (Item true) (stmtTexts ss) (stmtShapes ss)) :
    (⟨pos, ss⟩ : Block).Spelled := by
  intro b k
  rw [Block.text, Block.shapes]
  exact spells_braced h

/-- A property name, with or without quotes. -/
theorem spells_key {key : String} (h : LegibleKey key)
    (hnext : ∀ c ∈ (cs ++ k).head?, isNamePart c = false) (hrest : Spells k false cs l b') :
    Spells k b ((keyText key).toList ++ cs) (⟨(keyShape key).lexeme, b⟩ :: l) b' := by
  unfold keyText keyShape
  split
  · rename_i hplain
    exact .word (h hplain) hnext hrest
  · exact .quote key hrest

theorem Property.item_of_value {key : String} {shorthand : Bool} (h : e.Spelled)
    (hkey : LegibleKey key)
    (hshorthand : shorthand → isWord key) :
    Item false (⟨key, e, shorthand⟩ : Property).text (⟨key, e, shorthand⟩ : Property).shapes := by
  intro k hk
  rw [Property.text, Property.shapes]
  split
  · rename_i hs
    exact .word_end (hshorthand hs) hk.next
  · simp only [String.toList_append, String.reduceToList, List.append_assoc, List.cons_append,
      List.nil_append]
    have hrest := h.parens (decide (e.level < assignmentLevel)) false k hk
    have hafter : (keyShape key).afterBreak = false := by
      unfold keyShape
      split <;> rfl
    have hkeyShape : keyShape key = ⟨(keyShape key).lexeme, false⟩ := by rw [← hafter]
    rw [hkeyShape]
    exact spells_key hkey (next_cons (by decide)) (.mark_space .colon hrest)

/-- A value after an equals sign. -/
theorem spells_initializer (h : e.Spelled) (hk : Loose k) :
    Spells k false
      (' ' :: '=' :: ' ' :: (Text.parens (e.level < assignmentLevel) e.text).toList)
      (mark .assign :: parens (e.level < assignmentLevel) e.shapes false) false :=
  .space (.mark_space .assign (h.parens _ false k hk))

theorem Param.item_of_default {p : Param} (hname : isName p.name)
    (hvalue : ∀ e ∈ p.default, e.Spelled) :
    Item false p.text p.shapes := by
  intro k hk
  obtain ⟨name, value⟩ := p
  cases value with
  | none => exact .word_end (isWord_of_isName hname) hk.next
  | some e =>
    simp only [Param.text, Param.shapes, String.toList_append, String.reduceToList,
      List.append_assoc, List.cons_append, List.nil_append]
    exact .word (isWord_of_isName hname) (next_cons (by decide))
      (spells_initializer (hvalue e rfl) hk)

/-- The text of what an arrow function does. -/
def FunctionBody.Spelled (body : FunctionBody) : Prop :=
  Item false body.text body.shapes

/-- What comes after the generic parameters of a function. -/
theorem spells_functionRest {ts : List String} {ls : List (List Shape)} {body : Block}
    (hparams : List.Forall₂ (Item false) ts ls) (hbody : body.Spelled) :
    Spells k b ('(' :: ((Text.join ", " ts).toList ++ ')' :: ' ' :: body.text.toList))
      (⟨.mark .openParen, b⟩ :: (commas ls ++ mark .closeParen :: body.shapes false)) false :=
  spells_args hparams (.space (hbody false k))

/-- A function after its name. -/
theorem spells_functionTail {names : TypeParams} {ts : List String} {ls : List (List Shape)}
    {body : Block} (hnames : names.Formed) (hparams : List.Forall₂ (Item false) ts ls)
    (hbody : body.Spelled) :
    Spells k false ((genericsText names).toList ++
        '(' :: ((Text.join ", " ts).toList ++ ')' :: ' ' :: body.text.toList))
      (generics names ++ mark .openParen :: (commas ls ++ mark .closeParen :: body.shapes false))
      false :=
  .append (spells_generics hnames (by simp)) (spells_functionRest hparams hbody)

/-- Generic parameters do not go on with a name before them. -/
theorem genericsText_next (names : TypeParams) (h : ∀ c ∈ (cs ++ k).head?, isNamePart c = false) :
    ∀ c ∈ (((genericsText names).toList ++ cs) ++ k).head?, isNamePart c = false := by
  rw [List.append_assoc]
  unfold genericsText
  split
  · exact h
  · split
    · exact h
    · simp only [String.toList_append, String.reduceToList, List.cons_append]
      exact next_cons (by decide)

theorem Expr.spelled_arrow {pos : Position} {ps : List Param} {body : FunctionBody} {isAsync : Bool}
    (hparams : List.Forall₂ (Item false) (paramTexts ps) (paramShapes ps)) (hbody : body.Spelled) :
    (arrow pos ps body isAsync).Spelled := by
  intro b k hk
  have hlevel : assignmentLevel < callLevel := by decide
  simp only [Expr.text, Expr.shapes, String.toList_append, String.reduceToList, List.append_assoc,
    List.cons_append, List.nil_append]
  refine spells_async (.mark .openParen) (fun c _ => Mark.joins_of_isFinal (by decide) c) ?_
  refine .append (spells_join hparams (.of_cons (by decide))) (.mark .closeParen rfl (.space ?_))
  exact .mark_space .arrow (hbody k (hk.loose hlevel))

theorem Expr.spelled_function {pos : Position} {name : Option String}
    {ps : List Param} {body : Block}
    {isAsync : Bool} {names : TypeParams} (hname : ∀ n ∈ name, isName n) (hnames : names.Formed)
    (hparams : List.Forall₂ (Item false) (paramTexts ps) (paramShapes ps)) (hbody : body.Spelled) :
    (function pos name ps body isAsync names).Spelled := by
  intro b k _
  have htail := spells_functionTail (k := k) hnames hparams hbody
  simp only [Expr.text, Expr.shapes, String.toList_append, List.append_assoc, List.cons_append]
  have hkeyword := Lexeme.Written.keyword .functionWord
  cases name with
  | none => exact spells_async hkeyword (genericsText_next names (next_cons (by decide))) htail
  | some n =>
    have hword := isWord_of_isName (hname n rfl)
    have hempty : n.isEmpty = false := by
      rw [String.isEmpty_eq_false_iff]
      exact ne_empty_of_isWord hword
    simp only [functionName, functionNameShapes, hempty, Bool.false_eq_true, if_false,
      String.toList_append, String.reduceToList, List.cons_append, List.nil_append]
    refine spells_async hkeyword (next_cons (by decide)) (.space ?_)
    exact .word hword (genericsText_next names (next_cons (by decide))) htail

end CoScript
