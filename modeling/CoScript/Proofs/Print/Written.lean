import CoScript.Proofs.Parse.Promised
import CoScript.Proofs.Print.Back.Program
import CoScript.Proofs.Print.Layout

/-!
# Programs that are written and read

The text of a program spells the shapes of the program: by induction on the tree, each construct by
the lemma on it. Tokens that are the shapes of a program stand for it, so what is written for a
program is read as the program, whether it was ever read from a text or not.

Results:
* `Expr.spelled`, `Stmt.spelled`: what is written for a tree that the parser could give spells it.
* `Program.read_text`: the text of a program is read as the program, up to positions.
* `Program.read_text_of_parse`: so what a text stands for can be written and read again.
-/

namespace CoScript

open Shape CoScript.Expr CoScript.Stmt

/-! ## Trees -/

-- In each case `h` is what the parser promises, `h'` that nothing is read as something else.
mutual

theorem Expr.spelled {s : Site} :
    (e : Expr) → (k : List Shape) → e.Formed s → e.Legible k → e.Spelled
  | .literal .., _, _, h => spelled_literal h
  | .name .., _, h, _ => spelled_name h
  | .this _, _, _, _ => spelled_this
  | .array _ elements, _, h, h' => spelled_array (spelled_exprs elements _ h h')
  | .object _ properties, _, h, h' => spelled_object (spelled_properties properties _ h h')
  | .binary _ _ left right, _, ⟨hleft, hright⟩, ⟨hleft', _, hright'⟩ =>
    spelled_binary (left.spelled _ hleft hleft') (right.spelled _ hright hright')
  | .unary _ _ operand, _, h, h' => spelled_unary (operand.spelled _ h h') h
  | .update _ _ _ target, _, ⟨_, h⟩, h' => spelled_update (target.spelled _ h h')
  | .assign _ _ target value, _, ⟨_, htarget, hvalue⟩, ⟨htarget', hvalue', _⟩ =>
    spelled_assign (target.spelled _ htarget htarget') (value.spelled _ hvalue hvalue')
  | .conditional _ condition thenValue elseValue, _, ⟨hcondition, hthen, helse⟩,
      ⟨hcondition', hthen', _, helse', _⟩ =>
    spelled_conditional (condition.spelled _ hcondition hcondition')
      (thenValue.spelled _ hthen hthen') (elseValue.spelled _ helse helse')
  | .call _ callee args, _, ⟨hcallee, hargs⟩, ⟨hcallee', hargs'⟩ =>
    spelled_call (callee.spelled _ hcallee hcallee') (spelled_exprs args _ hargs hargs')
  | .member _ owner _, _, ⟨howner, hattr⟩, howner' =>
    spelled_member (owner.spelled _ howner howner') hattr
  | .index _ owner key, _, ⟨howner, hkey⟩, ⟨howner', hkey'⟩ =>
    spelled_index (owner.spelled _ howner howner') (key.spelled _ hkey hkey')
  | .construct _ cls args, _, ⟨hcls, hargs⟩, ⟨hcls', hargs'⟩ =>
    spelled_construct (cls.spelled _ hcls hcls') (spelled_exprs args _ hargs hargs')
  | .superCall _ args, _, ⟨_, h⟩, h' => spelled_superCall (spelled_exprs args _ h h')
  | .await _ value, _, ⟨_, h⟩, h' => spelled_await (value.spelled _ h h')
  | .arrow _ params body _, _, ⟨hparams, hbody⟩, ⟨hparams', hbody'⟩ =>
    spelled_arrow (spelled_params params _ hparams hparams') (body.spelled _ hbody hbody')
  | .function _ _ params body _ _, _, ⟨hnames, hparams, hbody⟩, ⟨hname, hparams', hbody'⟩ =>
    spelled_function hname hnames (spelled_params params _ hparams hparams')
      (body.spelled _ hbody hbody')

theorem spelled_exprs {s : Site} : (es : List Expr) → (k : List Shape) → ExprsFormed es s →
    ExprsLegible es k → List.Forall₂ (Item false) (argTexts es) (argShapes es)
  | [], _, _, _ => .nil
  | e :: r, _, ⟨he, hr⟩, ⟨he', hr'⟩ =>
    .cons ((e.spelled _ he he').parens _ false) (spelled_exprs r _ hr hr')

theorem spelled_option {s : Site} :
    (value : Option Expr) → (k : List Shape) → OptionFormed value s →
    OptionLegible value k → ∀ e ∈ value, e.Spelled
  | none, _, _, _, _, he => nomatch he
  | some e, _, h, h', _, he => Option.some.inj he ▸ e.spelled _ h h'

theorem Property.item {s : Site} : (p : Property) → (k : List Shape) → p.Formed s → p.Legible k →
    Item false p.text p.shapes
  | ⟨key, value, shorthand⟩, _, ⟨hvalue, hvariable⟩, ⟨hkey, hvalue'⟩ => by
    refine Property.item_of_value (value.spelled _ hvalue hvalue') hkey fun hshorthand => ?_
    obtain ⟨pos, rfl⟩ := hvariable hshorthand
    exact isWord_of_isName hvalue

theorem spelled_properties {s : Site} : (ps : List Property) → (k : List Shape) →
    PropertiesFormed ps s → PropertiesLegible ps k →
    List.Forall₂ (Item false) (propertyTexts ps) (propertyShapes ps)
  | [], _, _, _ => .nil
  | p :: r, _, ⟨hp, hr⟩, ⟨hp', hr'⟩ => .cons (p.item _ hp hp') (spelled_properties r _ hr hr')

theorem Param.item {s : Site} : (p : Param) → (k : List Shape) → p.Formed s → p.Legible k →
    Item false p.text p.shapes
  | ⟨_, default⟩, _, ⟨hname, hdefault⟩, hdefault' =>
    Param.item_of_default hname (spelled_option default _ hdefault hdefault')

theorem spelled_params {s : Site} : (ps : List Param) → (k : List Shape) → ParamsFormed ps s →
    ParamsLegible ps k → List.Forall₂ (Item false) (paramTexts ps) (paramShapes ps)
  | [], _, _, _ => .nil
  | p :: r, _, ⟨hp, hr⟩, ⟨hp', hr'⟩ => .cons (p.item _ hp hp') (spelled_params r _ hr hr')

theorem FunctionBody.spelled {s : Site} : (body : FunctionBody) → (k : List Shape) → body.Formed s →
    body.Legible k → body.Spelled
  | .block body, _, h, h' => fun k _ => body.spelled _ h h' false k
  | .expr value, _, h, ⟨h', _⟩ => (value.spelled _ h h').parens _ false

theorem Block.spelled {s : Site} :
    (body : Block) → (k : List Shape) → body.Formed s → body.Legible k →
    body.Spelled
  | ⟨_, statements⟩, _, h, h' => Block.spelled_of_stmts (spelled_stmts statements _ h h')

theorem spelled_blockOption {s : Site} : (body : Option Block) → (k : List Shape) →
    BlockOptionFormed body s → BlockOptionLegible body k → ∀ x ∈ body, x.Spelled
  | none, _, _, _, _, hx => nomatch hx
  | some x, _, h, h', _, hx => Option.some.inj hx ▸ x.spelled _ h h'

theorem VarDecl.spelled {s : Site} : (d : VarDecl) → (k : List Shape) → d.Formed s → d.Legible k →
    d.Spelled
  | ⟨_, _, _, value⟩, _, ⟨hname, _, hvalue⟩, hvalue' =>
    VarDecl.spelled_of_value hname (spelled_option value _ hvalue hvalue')

theorem FunctionDecl.spelled {s : Site} : (d : FunctionDecl) → (k : List Shape) → d.Formed s →
    d.Legible k → d.Spelled
  | ⟨_, _, params, body, _, _⟩, _, ⟨hname, hnames, hparams, hbody⟩, ⟨hparams', hbody'⟩ =>
    ⟨hname, hnames, spelled_params params _ hparams hparams', body.spelled _ hbody hbody'⟩

theorem spelled_methods {s : Site} : (ds : List FunctionDecl) → (k : List Shape) →
    FunctionDeclsFormed ds s → MethodsLegible ds k →
    List.Forall₂ (Item true) (methodTexts ds) (methodShapes ds)
  | [], _, _, _ => .nil
  | d :: r, _, ⟨hd, hr⟩, ⟨hd', hr'⟩ =>
    .cons (fun _ _ => (d.spelled _ hd hd').method) (spelled_methods r _ hr hr')

theorem FieldDecl.item {s : Site} : (d : FieldDecl) → (k : List Shape) → d.Formed s → d.Legible k →
    Item true d.text d.shapes
  | ⟨_, _, value⟩, _, ⟨hname, hvalue⟩, hvalue' =>
    FieldDecl.item_of_value hname (spelled_option value _ hvalue hvalue')

theorem spelled_fields {s : Site} : (ds : List FieldDecl) → (k : List Shape) → FieldsFormed ds s →
    FieldsLegible ds k → List.Forall₂ (Item true) (fieldTexts ds) (fieldShapes ds)
  | [], _, _, _ => .nil
  | d :: r, _, ⟨hd, hr⟩, ⟨hd', hr'⟩ => .cons (d.item _ hd hd') (spelled_fields r _ hr hr')

theorem ClassDecl.spelled {s : Site} : (d : ClassDecl) → (k : List Shape) → d.Formed s →
    d.Legible k → d.Spelled
  | ⟨_, _, _, _, fields, methods, _⟩, _, ⟨hname, hbase, hinterfaces, hnames, hfields, hmethods⟩,
      ⟨hfields', hmethods'⟩ =>
    ClassDecl.spelled_of_members hname hbase hinterfaces hnames
      (spelled_fields fields _ hfields hfields') (spelled_methods methods _ hmethods hmethods')

theorem item_init {s : Site} : (init : Option ForInit) → (k : List Shape) → InitFormed init s →
    InitLegible init k → Item false (initText init) (initShapes init)
  | none, _, _, _ => fun _ _ => .nil
  | some (.declare d), _, h, h' => d.spelled _ h h' false
  | some (.expr _ value), _, h, h' => (value.spelled _ h h').item false

theorem SwitchCase.item {s : Site} : (c : SwitchCase) → (k : List Shape) → c.Formed s →
    c.Legible k → Item true c.text c.shapes
  | ⟨_, none, body⟩, _, ⟨_, hbody⟩, hbody' =>
    SwitchCase.item_of_body (fun _ he => nomatch he) (spelled_stmts body _ hbody hbody')
  | ⟨_, some test, body⟩, _, ⟨htest, hbody⟩, ⟨htest', _, hbody'⟩ =>
    SwitchCase.item_of_body (fun _ he => Option.some.inj he ▸ test.spelled _ htest htest')
      (spelled_stmts body _ hbody hbody')

theorem spelled_cases {s : Site} : (cs : List SwitchCase) → (k : List Shape) → CasesFormed cs s →
    CasesLegible cs k → List.Forall₂ (Item true) (caseTexts cs) (cs.map SwitchCase.shapes)
  | [], _, _, _ => .nil
  | c :: r, _, ⟨hc, hr⟩, ⟨hc', hr'⟩ => .cons (c.item _ hc hc') (spelled_cases r _ hr hr')

theorem Stmt.spelled {s : Site} :
    (t : Stmt) → (k : List Shape) → t.Formed s → t.Legible k → t.Spelled
  | .block body, _, h, h' => fun b k _ => body.spelled _ h h' b k
  | .varDecl d, _, h, h' => d.spelled _ h h'
  | .functionDecl d, _, ⟨_, h⟩, h' => fun _ _ _ => (d.spelled _ h h').declaration
  | .classDecl d, _, h, h' => fun b k _ => d.spelled _ h h' b k
  | .interfaceDecl _, _, h, h' => fun _ _ _ => spells_interface h h'
  | .typeAlias .., _, ⟨hname, hnames⟩, _ => spelled_typeAlias hname hnames
  | .importDecl _, _, ⟨_, h⟩, h' => fun _ _ _ => spells_import h h'
  | .branch _ condition thenBranch elseBranch, _, ⟨hcondition, hthen, helse, _⟩,
      ⟨hcondition', hthen', helse'⟩ =>
    spelled_branch (condition.spelled _ hcondition hcondition') (thenBranch.spelled _ hthen hthen')
      (spelled_stmtOption elseBranch _ helse helse')
  | .forLoop _ init condition next body, _, ⟨hinit, hcondition, hnext, hbody⟩,
      ⟨hinit', hcondition', hnext', hbody'⟩ =>
    spelled_forLoop (item_init init _ hinit hinit')
      (spelled_option condition _ hcondition hcondition')
      (spelled_option next _ hnext hnext') (body.spelled _ hbody hbody')
  | .forOf _ _ _ iterable body, _, ⟨hname, hiterable, hbody⟩, ⟨hiterable', hbody'⟩ =>
    spelled_forOf hname (iterable.spelled _ hiterable hiterable') (body.spelled _ hbody hbody')
  | .whileLoop _ condition body, _, ⟨hcondition, hbody⟩, ⟨hcondition', hbody'⟩ =>
    spelled_whileLoop (condition.spelled _ hcondition hcondition') (body.spelled _ hbody hbody')
  | .switchStmt _ discriminant cases, _, ⟨hdiscriminant, hcases, _⟩, ⟨hdiscriminant', hcases'⟩ =>
    spelled_switchStmt (discriminant.spelled _ hdiscriminant hdiscriminant')
      (spelled_cases cases _ hcases hcases')
  | .breakStmt _, _, _, _ => fun _ _ hk => .keyword_end .breakWord hk.next
  | .continueStmt _, _, _, _ => fun _ _ hk => .keyword_end .continueWord hk.next
  | .returnStmt _ value, _, ⟨_, h⟩, h' => spelled_returnStmt (spelled_option value _ h h')
  | .throwStmt _ value, _, h, h' => spelled_throwStmt (value.spelled _ h h')
  | .tryStmt _ body _ handler finalizer, _, ⟨hbody, hhandler, hfinalizer, _, hname⟩,
      ⟨hbody', hhandler', hfinalizer'⟩ =>
    spelled_tryStmt (body.spelled _ hbody hbody') (fun x hx => (hname x hx).1)
      (spelled_blockOption handler _ hhandler hhandler')
      (spelled_blockOption finalizer _ hfinalizer hfinalizer')
  | .expr _ value, _, h, ⟨h', _⟩ => spelled_expr (value.spelled _ h h')

theorem spelled_stmtOption {s : Site} :
    (t : Option Stmt) → (k : List Shape) → StmtOptionFormed t s →
    StmtOptionLegible t k → ∀ x ∈ t, x.Spelled
  | none, _, _, _, _, hx => nomatch hx
  | some t, _, h, h', _, hx => Option.some.inj hx ▸ t.spelled _ h h'

theorem spelled_stmts {s : Site} : (ts : List Stmt) → (k : List Shape) → StmtsFormed ts s →
    StmtsLegible ts k → List.Forall₂ (Item true) (stmtTexts ts) (stmtShapes ts)
  | [], _, _, _ => .nil
  | t :: r, _, ⟨ht, hr⟩, ⟨ht', hr'⟩ => .cons (t.spelled _ ht ht' true) (spelled_stmts r _ hr hr')

end

/-! ## Programs -/

/-- Statements that each end their last line. -/
theorem spells_lines {ts : List String} {ls : List (List Shape)}
    (h : List.Forall₂ (Item true) ts ls) :
    Spells [] true (String.join (ts.map (· ++ "\n"))).toList ls.flatten true := by
  induction h with
  | nil => exact .nil
  | cons ht _ ih =>
    simp only [List.map_cons, String.join_cons, List.flatten_cons, String.toList_append,
      String.reduceToList, List.append_assoc, List.cons_append, List.nil_append]
    exact .append (ht _ (.of_cons (by decide))) (.newline ih)

namespace Program

variable {p : Program}

/-- The text of a program spells its shapes. No line break stands before the first statement. -/
theorem spells (hformed : StmtsFormed p.statements .topLevel) (hlegible : p.Legible) :
    ∃ b, Spells [] false p.text.toList p.shapes b := by
  obtain ⟨ts⟩ := p
  cases ts with
  | nil => exact ⟨false, .nil⟩
  | cons t r =>
    have hfirst := t.spelled _ hformed.1 hlegible.1 false
    have hlines := spells_lines (spelled_stmts r _ hformed.2 hlegible.2)
    refine ⟨true, ?_⟩
    simp only [Program.text, Program.shapes, stmtTexts, List.map_cons, String.join_cons,
      String.toList_append, String.reduceToList, List.append_assoc, List.cons_append,
      List.nil_append]
    exact .append (hfirst _ (.of_cons (by decide))) (.newline hlines)

/-- The text of a program is read as the program, up to positions, if the parser could give the
    program and nothing in its text is read as something else. -/
theorem read_text (hformed : StmtsFormed p.statements .topLevel) (hlegible : p.Legible) :
    ∃ q, parse p.text = .ok q ∧ q.bare = p.bare := by
  obtain ⟨b, hspells⟩ := p.spells hformed hlegible
  obtain ⟨endPos, hending, hshapes⟩ := hspells.tokens
  exact Program.ofTokens_shapes hending hformed hlegible hshapes

/-- What is written for the program that a text stands for is read as that program, if nothing in it
    is read as something else. -/
theorem read_text_of_parse {source : String} (h : parse source = .ok p) (hlegible : p.Legible) :
    ∃ q, parse p.text = .ok q ∧ q.bare = p.bare :=
  p.read_text (parse_formed h) hlegible

end Program

end CoScript
