import CoScript.Proofs.Print.Spelled

/-!
# How statements are laid out

Each statement starts a line. A statement that a header governs stands on a line of its own below
the header, further to the right, unless it is a block. The text of a statement spells its shapes,
whatever the text of its parts is, as long as that spells theirs.

Results:
* `Stmt.Spelled`: the text of a statement spells its shapes; one lemma for each kind of statement.
* `VarDecl.Spelled`, `FunctionDecl.Spelled`, `ClassDecl.Spelled`: the same for declarations.
* `spells_interface`, `spells_import`: the same for declarations without values.
-/

namespace CoScript

open Lexer Shape

variable {b b' : Bool} {cs k : List Char} {l : List Shape}

/-! ## Names -/

theorem item_name {name : String} (h : isName name) : Item false name [word name] :=
  fun _ hk => .word_end (isWord_of_isName h) hk.next

/-- Names with points between them. -/
theorem spells_dots {ws : List (List Char)} (h : ∀ w ∈ ws, isName (String.ofList w))
    (hk : Loose k) :
    Spells k false (['.'].intercalate ws)
      (separated .dot (ws.map fun w => [word (String.ofList w)])) false := by
  induction ws with
  | nil => exact .nil
  | cons w r ih =>
    rw [List.forall_mem_cons] at h
    obtain ⟨hw, hr⟩ := h
    cases r with
    | nil =>
      rw [List.intercalate_singleton]
      simpa [word, separated] using Spells.word_end (b := false) (isWord_of_isName hw) hk.next
    | cons w' r =>
      have hrest := Spells.mark (b := false) .dot rfl (ih hr)
      rw [List.intercalate_cons_cons, List.append_assoc]
      simpa [word, mark, separated, Mark.spelling] using Spells.word (b := false)
        (isWord_of_isName hw)
        (next_cons (c := '.') (by decide)) hrest

/-- A name whose parts have points between them. -/
theorem item_dotted {name : String} (h : isDotted name) : Item false name (dotted name) := by
  intro k hk
  rw [isDotted, List.all_eq_true] at h
  have hparts := spells_dots h hk
  rwa [List.intercalate_splitOn] at hparts

/-! ## Headers -/

theorem loose_of_blank (h : cs.head? = some ' ') : Loose cs := by
  cases cs with
  | nil => cases h
  | cons c r =>
    obtain rfl := Option.some.inj h
    exact .of_cons (by decide)

theorem head_append (h : cs.head? = some ' ') (k : List Char) : (cs ++ k).head? = some ' ' := by
  rw [List.head?_append, h]
  rfl

/-- A part of a header that may be missing. If it is there, it starts with a blank. -/
structure Clause (t : String) (l : List Shape) : Prop where
  blank : t = "" ∨ ∃ s, t = " " ++ s
  item : Item false t l

namespace Clause

variable {t : String} {l' : List Shape}

theorem none : Clause "" [] :=
  ⟨.inl rfl, fun _ _ => .nil⟩

/-- A blank stands before the rest of a header, whether a clause comes first or not. -/
theorem head (h : Clause t l) (hcs : cs.head? = some ' ') : (t.toList ++ cs).head? = some ' ' := by
  obtain rfl | ⟨s, rfl⟩ := h.blank
  · exact hcs
  · simp

theorem spells (h : Clause t l) (hcs : cs.head? = some ' ') (hrest : Spells k false cs l' b') :
    Spells k false (t.toList ++ cs) (l ++ l') b' :=
  .append (h.item _ (loose_of_blank (head_append hcs k))) hrest

end Clause

/-- Types after a keyword, if there are any. -/
theorem clause_typeRefs (w : Keyword) {names : List String} (h : ∀ n ∈ names, isDotted n) :
    Clause (if names.isEmpty then "" else " " ++ w.text ++ " " ++ Text.join ", " names)
      (typeRefsShapes w names) := by
  unfold typeRefsShapes
  cases hnames : names.isEmpty with
  | true => exact .none
  | false =>
    refine ⟨.inr ⟨_, by simp only [Bool.false_eq_true, if_false, String.append_assoc]; rfl⟩, ?_⟩
    intro k hk
    have hitems : List.Forall₂ (Item false) names (names.map dotted) := by
      rw [List.forall₂_map_right_iff, List.forall₂_same]
      exact fun n hn => item_dotted (h n hn)
    simp only [Bool.false_eq_true, if_false, String.toList_append, String.reduceToList,
      List.append_assoc, List.cons_append, List.nil_append]
    exact .space (.keyword w (next_cons (by decide)) (.space (spells_join hitems hk)))

/-- The class that a class extends. -/
theorem clause_superclass {base : String} (h : isName base) :
    Clause (" extends " ++ base) (superclassShapes base) := by
  refine ⟨.inr ⟨"extends " ++ base, by rw [← String.append_assoc]; rfl⟩, fun k hk => ?_⟩
  simp only [superclassShapes, String.toList_append, String.reduceToList, List.cons_append,
    List.nil_append]
  exact .space (.keyword .extendsWord (next_cons (by decide)) (.space (item_name h k hk)))

/-- The name of a declaration with generic parameters, before a blank. -/
theorem spells_declared {name : String} {names : TypeParams} (hname : isName name)
    (hnames : names.Formed) (hcs : cs.head? = some ' ') (hrest : Spells k false cs l b') :
    Spells k false (name.toList ++ ((genericsText names).toList ++ cs))
      (word name :: (generics names ++ l)) b' := by
  have hblank := head_append hcs k
  refine .word (isWord_of_isName hname) ?_ (.append (spells_generics hnames ?_) hrest)
  · exact genericsText_next names (loose_of_blank hblank).next
  · rw [hblank]
    rintro c hc rfl
    cases hc

/-! ## Declarations without values -/

theorem spells_interface {d : InterfaceDecl} (hformed : d.Formed) (hlegible : d.Legible) :
    Spells k b d.text.toList (d.shapes b) false := by
  obtain ⟨pos, name, bases, members, names⟩ := d
  obtain ⟨hname, hnames, hbases⟩ := hformed
  have hclause := clause_typeRefs .extendsWord hbases
  have hmembers : List.Forall₂ (Item true) (members.map (· ++ "()"))
    (members.map memberShapes) := by
    rw [List.forall₂_map_left_iff, List.forall₂_map_right_iff, List.forall₂_same]
    intro m hm k hk
    simp only [String.toList_append, String.reduceToList]
    refine .word (hlegible m hm) (next_cons (by decide)) ?_
    exact .mark .openParen rfl (.mark .closeParen rfl .nil)
  simp only [InterfaceDecl.text, InterfaceDecl.shapes, String.toList_append, String.reduceToList,
    List.append_assoc, List.cons_append, List.nil_append]
  refine .keyword .interfaceWord (next_cons (by decide)) (.space ?_)
  refine spells_declared hname hnames (hclause.head rfl) (hclause.spells rfl ?_)
  exact .space (spells_braced hmembers)

/-- A name of an import between braces. -/
theorem ImportBinding.item {d : ImportBinding} (hname : isWord d.name)
    (hlocal : ∀ x ∈ d.localAs, isName x) : Item false d.text d.shapes := by
  intro k hk
  unfold ImportBinding.text ImportBinding.shapes
  split
  · exact .word_end hname hk.next
  · rename_i hother
    obtain ⟨name, localAs⟩ := d
    cases localAs with
    | none => exact absurd rfl hother
    | some x =>
      simp only [ImportBinding.localName, Option.getD_some, String.toList_append,
        String.reduceToList, List.append_assoc, List.cons_append, List.nil_append]
      refine .word hname (next_cons (by decide)) (.space ?_)
      exact .keyword .asWord (next_cons (by decide)) (.space (item_name (hlocal x rfl) k hk))

/-- What an import binds. -/
theorem item_bindings {ds : List ImportBinding}
    (h : (∃ name, isName name ∧ ds = [⟨"*", some name⟩]) ∨
      ∀ d ∈ ds, isWord d.name ∧ ∀ x ∈ d.localAs, isName x)
    (hlegible : ∀ d, ds = [d] → d.name = "default" → d.localAs.isSome) :
    Item false (bindingsText ds) (bindingsShapes ds) := by
  intro k hk
  obtain ⟨name, hname, rfl⟩ | h := h
  · simp only [bindingsText, bindingsShapes, if_true, String.toList_append, String.reduceToList,
      List.cons_append, List.nil_append, ImportBinding.localName, Option.getD_some]
    refine .mark_space .star (.keyword .asWord (next_cons (by decide)) (.space ?_))
    exact item_name hname k hk
  · have hitems : List.Forall₂ (Item false) (ds.map (·.text)) (ds.map ImportBinding.shapes) := by
      rw [List.forall₂_map_left_iff, List.forall₂_map_right_iff, List.forall₂_same]
      exact fun d hd => ImportBinding.item (h d hd).1 (h d hd).2
    have hnamed : Spells k false
        ("\x7b " ++ Text.join ", " (ds.map (·.text)) ++ " \x7d").toList
        (mark .openBrace :: commas (ds.map ImportBinding.shapes) ++ [mark .closeBrace]) false := by
      simp only [String.toList_append, String.reduceToList, List.cons_append, List.nil_append]
      refine .mark_space .openBrace (.append (spells_join hitems (.of_cons (by decide))) ?_)
      exact .space (.mark .closeBrace rfl .nil)
    cases ds with
    | nil => exact hnamed
    | cons d r =>
      cases r with
      | cons => exact hnamed
      | nil =>
        obtain ⟨hword, hlocal⟩ := h d (List.mem_singleton_self d)
        have hstar : d.name ≠ "*" := fun hstar => by
          rw [hstar] at hword
          cases hword
        simp only [bindingsText, bindingsShapes, hstar, if_false]
        split
        · rename_i hdefault
          obtain ⟨x, hx⟩ := Option.isSome_iff_exists.mp (hlegible d rfl hdefault)
          rw [ImportBinding.localName, hx, Option.getD_some]
          exact item_name (hlocal x hx) k hk
        · exact hnamed

theorem spells_import {d : ImportDecl} (hformed : d.Formed) (hlegible : d.Legible) :
    Spells k b d.text.toList (d.shapes b) false := by
  unfold ImportDecl.text ImportDecl.shapes
  split
  · simp only [String.toList_append, String.reduceToList, List.cons_append, List.nil_append]
    exact .keyword .importWord (next_cons (by decide)) (.space (.quote_end _))
  · simp only [String.toList_append, String.reduceToList, List.append_assoc, List.cons_append,
      List.nil_append]
    refine .keyword .importWord (next_cons (by decide)) (.space ?_)
    refine .append (item_bindings hformed hlegible _ (.of_cons (by decide))) (.space ?_)
    exact .keyword .fromWord (next_cons (by decide)) (.space (.quote_end _))

/-! ## Declarations with values -/

/-- The text of a variable declaration spells its shapes. -/
def VarDecl.Spelled (d : VarDecl) : Prop :=
  ∀ b, Item b d.text (d.shapes b)

theorem VarDecl.spelled_of_value {d : VarDecl} (hname : isName d.name)
    (hvalue : ∀ e ∈ d.value, e.Spelled) :
    d.Spelled := by
  intro b k hk
  obtain ⟨pos, kind, name, value⟩ := d
  have hkind : kind.text = kind.keyword.text := by cases kind <;> rfl
  have hword := isWord_of_isName hname
  cases value with
  | none =>
    simp only [VarDecl.text, VarDecl.shapes, hkind, String.toList_append, String.reduceToList,
      List.append_assoc, List.cons_append, List.nil_append]
    exact .keyword kind.keyword (next_cons (by decide)) (.space (.word_end hword hk.next))
  | some e =>
    simp only [VarDecl.text, VarDecl.shapes, hkind, String.toList_append, String.reduceToList,
      List.append_assoc, List.cons_append, List.nil_append]
    refine .keyword kind.keyword (next_cons (by decide)) (.space ?_)
    exact .word hword (next_cons (by decide)) (spells_initializer (hvalue e rfl) hk)

/-- A field of a class. -/
theorem FieldDecl.item_of_value {d : FieldDecl} (hname : isWord d.name)
    (hvalue : ∀ e ∈ d.value, e.Spelled) :
    Item true d.text d.shapes := by
  intro k hk
  obtain ⟨pos, name, value⟩ := d
  cases value with
  | none =>
    have hkey : Spells k true ((keyText name).toList ++ []) _ false :=
      spells_key (fun _ => hname) hk.next .nil
    rwa [List.append_nil] at hkey
  | some e =>
    simp only [FieldDecl.text, FieldDecl.shapes, String.toList_append, String.reduceToList,
      List.append_assoc, List.cons_append, List.nil_append]
    exact spells_key (fun _ => hname) (next_cons (by decide)) (spells_initializer (hvalue e rfl) hk)

/-- The parts of a function with a name spell their shapes. -/
structure FunctionDecl.Spelled (d : FunctionDecl) : Prop where
  name : isWord d.name
  typeParams : d.typeParams.Formed
  params : List.Forall₂ (Item false) (paramTexts d.params) (paramShapes d.params)
  body : d.body.Spelled

namespace FunctionDecl.Spelled

variable {d : FunctionDecl}

theorem declaration (h : d.Spelled) :
    Spells k b (d.textAfter "function ").toList
      (afterAsync d.isAsync (.keyword .functionWord) b ++ word d.name :: d.restShapes) false := by
  obtain ⟨pos, name, params, body, isAsync, names⟩ := d
  have htail := spells_functionTail (k := k) h.typeParams h.params h.body
  simp only [FunctionDecl.textAfter, FunctionDecl.restShapes, String.toList_append,
    String.reduceToList, List.append_assoc, List.cons_append, List.nil_append]
  refine spells_async (.keyword .functionWord) (next_cons (by decide)) (.space ?_)
  exact .word h.name (genericsText_next names (next_cons (by decide))) htail

theorem method (h : d.Spelled) :
    Spells k b (d.textAfter "").toList
      (afterAsync d.isAsync (wordLexeme d.name.toList) b ++ d.restShapes) false := by
  obtain ⟨pos, name, params, body, isAsync, names⟩ := d
  have htail := spells_functionTail (k := k) h.typeParams h.params h.body
  simp only [FunctionDecl.textAfter, FunctionDecl.restShapes, String.toList_append,
    String.reduceToList, List.append_assoc, List.cons_append, List.nil_append]
  refine spells_async (.of_isWord h.name) (fun c hc => ?_) htail
  rw [joins_wordLexeme]
  exact genericsText_next names (next_cons (by decide)) c hc

end FunctionDecl.Spelled

/-- The text of a class spells its shapes, whatever comes after it. -/
def ClassDecl.Spelled (d : ClassDecl) : Prop :=
  ∀ b k, Spells k b d.text.toList (d.shapes b) false

theorem ClassDecl.spelled_of_members {d : ClassDecl} (hname : isName d.name)
    (hbase : ∀ n ∈ d.superclass, isName n) (hinterfaces : ∀ n ∈ d.interfaces, isDotted n)
    (hnames : d.typeParams.Formed)
    (hfields : List.Forall₂ (Item true) (fieldTexts d.fields) (fieldShapes d.fields))
    (hmethods : List.Forall₂ (Item true) (methodTexts d.methods) (methodShapes d.methods)) :
    d.Spelled := by
  intro b k
  obtain ⟨pos, name, base, interfaces, fields, methods, names⟩ := d
  have himplements := clause_typeRefs .implementsWord hinterfaces
  obtain ⟨extension, hextension, htext⟩ : ∃ t, Clause t (superclassShapes base) ∧
      (⟨pos, name, base, interfaces, fields, methods, names⟩ : ClassDecl).text =
        "class " ++ name ++ genericsText names ++ t ++
          (if interfaces.isEmpty then "" else " implements " ++ Text.join ", " interfaces) ++ " " ++
          bracedText (fieldTexts fields ++ methodTexts methods) := by
    cases base with
    | none => exact ⟨_, .none, rfl⟩
    | some base => exact ⟨_, clause_superclass (hbase base rfl), rfl⟩
  simp only [htext, ClassDecl.shapes, String.toList_append, String.reduceToList,
    List.append_assoc, List.cons_append, List.nil_append]
  refine .keyword .classWord (next_cons (by decide)) (.space ?_)
  refine spells_declared hname hnames (hextension.head (himplements.head rfl)) ?_
  refine hextension.spells (himplements.head rfl) (himplements.spells rfl (.space ?_))
  exact spells_braced (List.rel_append hfields hmethods)

/-! ## Statements -/

/-- The text of a statement spells its shapes. -/
def Stmt.Spelled (t : Stmt) : Prop :=
  ∀ b, Item b t.text (t.shapes b)

/-- A statement after a header: a block on its line, any other below it. -/
theorem Stmt.Spelled.governed {t : Stmt} {header : String} (h : t.Spelled)
    (hheader : Item b header l) :
    Item b (governed header t.isBlock t.text) (l ++ t.shapes (!t.isBlock)) := by
  intro k hk
  unfold CoScript.governed
  cases t.isBlock with
  | true =>
    simp only [if_true, String.toList_append, String.reduceToList, List.append_assoc,
      List.cons_append, List.nil_append]
    exact .append (hheader _ (.of_cons (by decide))) (.space (h false k hk))
  | false =>
    simp only [Bool.false_eq_true, if_false, String.toList_append, String.reduceToList,
      List.append_assoc, List.cons_append, List.nil_append, Text.indent, String.toList_ofList]
    exact .append (hheader _ (.of_cons (by decide))) (.newline ((h true k hk).indent true))

/-- A statement after a keyword and what stands in parentheses. -/
theorem Stmt.Spelled.headed {t : Stmt} (h : t.Spelled) (w : Keyword) {s header : String}
    (hs : Item false s l)
    (hheader : header.toList = w.text.toList ++ ' ' :: '(' :: (s.toList ++ [')'])) :
    Item b (CoScript.governed header t.isBlock t.text)
      (⟨.keyword w, b⟩ :: mark .openParen :: (l ++ mark .closeParen :: t.shapes (!t.isBlock))) := by
  have hitem : Item b header (⟨.keyword w, b⟩ :: mark .openParen :: (l ++ [mark .closeParen])) := by
    intro k _
    rw [hheader]
    refine .keyword w (next_cons (by decide)) (.space (.mark .openParen rfl ?_))
    exact .append (hs _ (.of_cons (by decide))) (.mark .closeParen rfl .nil)
  simpa only [List.append_assoc, List.cons_append, List.nil_append] using h.governed hitem

/-- A part of the head of a loop, if it is there. -/
theorem item_option {value : Option Expr} (h : ∀ e ∈ value, e.Spelled) :
    Item false (optionText value) (optionShapes value) := by
  intro k hk
  cases value with
  | none => exact .nil
  | some e =>
    simp only [optionText, optionShapes, String.toList_append, String.reduceToList,
      List.cons_append,
      List.nil_append]
    exact .space ((h e rfl).item false k hk)

/-- A block after a word, if it is there. -/
theorem item_clause {w : String} {body : Option Block} (hw : Item false w l)
    (h : ∀ x ∈ body, x.Spelled) : Item false (clauseText w body) (clauseShapes l body) := by
  intro k hk
  cases body with
  | none => exact .nil
  | some x =>
    simp only [clauseText, clauseShapes, String.toList_append, String.reduceToList,
      List.append_assoc, List.cons_append, List.nil_append]
    exact .append (hw _ (.of_cons (by decide))) (.space (h x rfl false k))

/-- The word before a handler, with the name that the handler binds. -/
theorem item_catch {name : Option String} (h : ∀ x ∈ name, isName x) :
    Item false (catchText name) (Shape.keyword .catchWord :: catchShapes name) := by
  intro k hk
  cases name with
  | none =>
    simp only [catchText, catchShapes, String.reduceToList]
    exact .space (.keyword_end .catchWord hk.next)
  | some x =>
    simp only [catchText, catchShapes, String.toList_append, String.reduceToList, List.cons_append,
      List.nil_append]
    refine .space (.keyword .catchWord (next_cons (by decide)) (.space (.mark .openParen rfl ?_)))
    exact .append (item_name (h x rfl) _ (.of_cons (by decide))) (.mark .closeParen rfl .nil)

/-- The word before a finalizer. -/
theorem item_finally : Item false " finally" [Shape.keyword .finallyWord] :=
  fun _ hk => .space (.keyword_end .finallyWord hk.next)

/-- The other branch, on the line of a brace or on its own. -/
theorem spells_else {t : Option Stmt} (h : ∀ s ∈ t, s.Spelled) (isBlock : Bool) (hk : Loose k) :
    Spells k false (elseText (if isBlock then " " else "\n") t).toList (elseShapes (!isBlock) t)
      false := by
  cases t with
  | none => exact .nil
  | some s =>
    have hbranch : Item (!isBlock)
        (if s.isBranch then "else " ++ s.text else governed "else" s.isBlock s.text)
        (⟨.keyword .elseWord, !isBlock⟩ :: s.shapes (!s.isBranch && !s.isBlock)) := by
      cases s.isBranch with
      | true =>
        intro k hk
        simp only [if_true, String.toList_append, String.reduceToList, List.cons_append,
          List.nil_append]
        exact .keyword .elseWord (next_cons (by decide)) (.space (h s rfl false k hk))
      | false => exact (h s rfl).governed fun k hk => .keyword_end .elseWord hk.next
    simp only [elseText, elseShapes, String.toList_append]
    cases isBlock with
    | true => exact .space (hbranch k hk)
    | false => exact .newline (hbranch k hk)

/-- The other branch does not go on with the statement before it. -/
theorem loose_else (t : Option Stmt) (isBlock : Bool) (hk : Loose k) :
    Loose ((elseText (if isBlock then " " else "\n") t).toList ++ k) := by
  cases t with
  | none => exact hk
  | some s =>
    simp only [elseText, String.toList_append]
    cases isBlock <;> exact .of_cons (by decide)

theorem caseShapes_eq (cs : List SwitchCase) :
    caseShapes cs = (cs.map SwitchCase.shapes).flatten := by
  induction cs with
  | nil => rfl
  | cons c r ih => rw [caseShapes, ih, List.map_cons, List.flatten_cons]

/-- A clause of a switch. -/
theorem SwitchCase.item_of_body {c : SwitchCase} (htest : ∀ e ∈ c.test, e.Spelled)
    (hbody : List.Forall₂ (Item true) (stmtTexts c.body) (stmtShapes c.body)) :
    Item true c.text c.shapes := by
  intro k hk
  obtain ⟨pos, test, body⟩ := c
  have hbelow := spells_below (b := false) hbody hk
  rw [ite_self] at hbelow
  cases test with
  | none =>
    simp only [SwitchCase.text, SwitchCase.shapes, String.toList_append, String.reduceToList,
      List.cons_append, List.nil_append]
    exact .keyword .defaultWord (next_cons (by decide)) (.mark .colon rfl hbelow)
  | some e =>
    simp only [SwitchCase.text, SwitchCase.shapes, String.toList_append, String.reduceToList,
      List.append_assoc, List.cons_append, List.nil_append]
    refine .keyword .caseWord (next_cons (by decide)) (.space ?_)
    exact .append ((htest e rfl).item false _ (.of_cons (by decide))) (.mark .colon rfl hbelow)

namespace Stmt

variable {pos : Position} {e : Expr} {body : Stmt}

theorem spelled_branch {thenBranch : Stmt} {elseBranch : Option Stmt} (h : e.Spelled)
    (hthen : thenBranch.Spelled) (helse : ∀ s ∈ elseBranch, s.Spelled) :
    (branch pos e thenBranch elseBranch).Spelled := by
  intro b k hk
  show Spells k b (governed ("if (" ++ e.text ++ ")") thenBranch.isBlock thenBranch.text ++
    elseText (if thenBranch.isBlock then " " else "\n") elseBranch).toList _ false
  have hif : ("if (" ++ e.text ++ ")").toList =
      Keyword.ifWord.text.toList ++ ' ' :: '(' :: (e.text.toList ++ [')']) := by
    simp only [String.toList_append, String.reduceToList]
    rfl
  have hboth := (hthen.headed (b := b) .ifWord (h.item false) hif _
    (loose_else elseBranch thenBranch.isBlock hk)).append (spells_else helse thenBranch.isBlock hk)
  rw [String.toList_append]
  simpa only [Stmt.shapes, List.append_assoc, List.cons_append] using hboth

theorem spelled_forLoop {init : Option ForInit} {condition update : Option Expr}
    (hinit : Item false (initText init) (initShapes init)) (hcondition : ∀ e ∈ condition, e.Spelled)
    (hupdate : ∀ e ∈ update, e.Spelled) (hbody : body.Spelled) :
    (forLoop pos init condition update body).Spelled := by
  intro b
  have hparts : Item false
      (initText init ++ ";" ++ optionText condition ++ ";" ++ optionText update)
      (initShapes init ++ mark .semicolon :: (optionShapes condition ++
        mark .semicolon :: optionShapes update)) := by
    intro k hk
    simp only [String.toList_append, String.reduceToList, List.append_assoc, List.cons_append,
      List.nil_append]
    refine .append (hinit _ (.of_cons (by decide))) (.mark .semicolon rfl ?_)
    refine .append (item_option hcondition _ (.of_cons (by decide))) (.mark .semicolon rfl ?_)
    exact item_option hupdate k hk
  have hstmt : Item b (forLoop pos init condition update body).text _ :=
    hbody.headed .forWord hparts (by
      simp only [String.toList_append, String.reduceToList, List.append_assoc, List.cons_append,
        List.nil_append]
      rfl)
  simpa only [Stmt.shapes, List.append_assoc, List.cons_append] using hstmt

theorem spelled_forOf {kind : DeclKind} {name : String} (hname : isName name) (h : e.Spelled)
    (hbody : body.Spelled) : (forOf pos kind name e body).Spelled := by
  intro b
  have hkind : kind.text = kind.keyword.text := by cases kind <;> rfl
  have hparts : Item false (kind.text ++ " " ++ name ++ " of " ++ e.text)
      (Shape.keyword kind.keyword :: word name :: Shape.keyword .ofWord :: e.shapes false) := by
    intro k hk
    simp only [hkind, String.toList_append, String.reduceToList, List.append_assoc,
      List.cons_append, List.nil_append]
    refine .keyword kind.keyword (next_cons (by decide)) (.space ?_)
    refine .word (isWord_of_isName hname) (next_cons (by decide)) (.space ?_)
    exact .keyword .ofWord (next_cons (by decide)) (.space (h.item false k hk))
  have hstmt : Item b (forOf pos kind name e body).text _ :=
    hbody.headed .forWord hparts (by
      simp only [String.toList_append, String.reduceToList, List.append_assoc, List.cons_append,
        List.nil_append]
      rfl)
  simpa only [Stmt.shapes, List.append_assoc, List.cons_append] using hstmt

theorem spelled_whileLoop (h : e.Spelled) (hbody : body.Spelled) :
    (whileLoop pos e body).Spelled := by
  intro b
  have hstmt : Item b (whileLoop pos e body).text _ :=
    hbody.headed .whileWord (h.item false) (by
      simp only [String.toList_append, String.reduceToList]
      rfl)
  simpa only [Stmt.shapes, List.append_assoc, List.cons_append] using hstmt

theorem spelled_switchStmt {cases : List SwitchCase} (h : e.Spelled)
    (hcases : List.Forall₂ (Item true) (caseTexts cases) (cases.map SwitchCase.shapes)) :
    (switchStmt pos e cases).Spelled := by
  intro b k _
  show Spells k b ("switch (" ++ e.text ++ ") \x7b" ++ belowText (caseTexts cases) ++
    "\n\x7d").toList
    _ false
  simp only [Stmt.shapes, caseShapes_eq, String.toList_append, String.reduceToList,
    List.append_assoc, List.cons_append, List.nil_append]
  refine .keyword .switchWord (next_cons (by decide)) (.space (.mark .openParen rfl ?_))
  refine .append (h.item false _ (.of_cons (by decide))) (.mark .closeParen rfl (.space ?_))
  refine .mark .openBrace rfl (.append (spells_below hcases (.of_cons (by decide))) ?_)
  exact .newline (.mark .closeBrace rfl .nil)

theorem spelled_returnStmt {value : Option Expr} (h : ∀ e ∈ value, e.Spelled) :
    (returnStmt pos value).Spelled := by
  intro b k hk
  show Spells k b ("return" ++ optionText value).toList
    (⟨.keyword .returnWord, b⟩ :: optionShapes value) false
  have hnext : Loose ((optionText value).toList ++ k) := by
    cases value with
    | none => exact hk
    | some e =>
      simp only [optionText, String.toList_append]
      exact .of_cons (by decide)
  rw [String.toList_append]
  exact .keyword .returnWord hnext.next (item_option h k hk)

theorem spelled_throwStmt (h : e.Spelled) : (throwStmt pos e).Spelled := by
  intro b k hk
  show Spells k b ("throw " ++ e.text).toList (⟨.keyword .throwWord, b⟩ :: e.shapes false) false
  rw [String.toList_append]
  exact .keyword .throwWord (next_cons (by decide)) (.space (h.item false k hk))

theorem spelled_tryStmt {body : Block} {name : Option String} {handler finalizer : Option Block}
    (hbody : body.Spelled) (hname : ∀ x ∈ name, isName x) (hhandler : ∀ x ∈ handler, x.Spelled)
    (hfinalizer : ∀ x ∈ finalizer, x.Spelled) :
    (tryStmt pos body name handler finalizer).Spelled := by
  intro b k hk
  show Spells k b ("try " ++ body.text ++ clauseText (catchText name) handler ++
    clauseText " finally" finalizer).toList _ false
  have hfinally := item_clause item_finally hfinalizer
  have hnext : Loose ((clauseText " finally" finalizer).toList ++ k) := by
    cases finalizer with
    | none => exact hk
    | some x =>
      simp only [clauseText, String.toList_append]
      exact .of_cons (by decide)
  simp only [Stmt.shapes, String.toList_append, String.reduceToList, List.append_assoc,
    List.cons_append, List.nil_append]
  refine .keyword .tryWord (next_cons (by decide)) (.space (.append (hbody false _) ?_))
  exact .append (item_clause (item_catch hname) hhandler _ hnext) (hfinally k hk)

theorem spelled_expr (h : e.Spelled) : (expr pos e).Spelled :=
  fun b => h.parens _ b

theorem spelled_typeAlias {name : String} {names : TypeParams} (hname : isName name)
    (hnames : names.Formed) : (typeAlias pos name names).Spelled := by
  intro b k hk
  show Spells k b ("type " ++ name ++ genericsText names ++ " = any").toList _ false
  simp only [Stmt.shapes, String.toList_append, String.reduceToList, List.append_assoc,
    List.cons_append, List.nil_append]
  refine .keyword .typeWord (next_cons (by decide)) (.space (spells_declared hname hnames rfl ?_))
  exact .space (.mark_space .assign (.word_end (s := "any") (by decide) hk.next))

end Stmt

end CoScript
