import CoScript.Eval.Stmt
import CoScript.Proofs.Parse.Promised

/-!
# Where imports stand

The parser admits an import outside of blocks and functions. That is not the same as among the
statements of the program: a branch or a loop may have an import as its body, without braces. A
program binds the imports among its statements, so it binds all of its imports if and only if no
branch or loop leads to one.

Results:
* `Stmt.imports`, `Stmt.bareImports`: the imports in a tree, and those outside of blocks.
* `parse_imports`: a program that a text stands for has no others.
* `parse_importsOf`: such a program binds all of them, unless a branch or a loop leads to one.
-/

namespace CoScript

/-! ## Imports in trees -/

mutual

/-- The imports in an expression, at any depth. -/
def Expr.imports : Expr → List ImportDecl
  | .literal .. | .name .. | .this _ => []
  | .array _ elements => exprsImports elements
  | .object _ properties => propertiesImports properties
  | .binary _ _ left right => left.imports ++ right.imports
  | .unary _ _ operand => operand.imports
  | .update _ _ _ target => target.imports
  | .assign _ _ target value => target.imports ++ value.imports
  | .conditional _ condition thenValue elseValue =>
    condition.imports ++ thenValue.imports ++ elseValue.imports
  | .call _ callee args => callee.imports ++ exprsImports args
  | .member _ object _ => object.imports
  | .index _ object key => object.imports ++ key.imports
  | .construct _ cls args => cls.imports ++ exprsImports args
  | .superCall _ args => exprsImports args
  | .await _ value => value.imports
  | .arrow _ params body _ => paramsImports params ++ body.imports
  | .function _ _ params body _ _ => paramsImports params ++ body.imports

@[inherit_doc Expr.imports]
def exprsImports : List Expr → List ImportDecl
  | [] => []
  | e :: r => e.imports ++ exprsImports r

@[inherit_doc Expr.imports]
def optionImports : Option Expr → List ImportDecl
  | none => []
  | some e => e.imports

@[inherit_doc Expr.imports]
def Property.imports : Property → List ImportDecl
  | ⟨_, value, _⟩ => value.imports

@[inherit_doc Expr.imports]
def propertiesImports : List Property → List ImportDecl
  | [] => []
  | p :: r => p.imports ++ propertiesImports r

@[inherit_doc Expr.imports]
def Param.imports : Param → List ImportDecl
  | ⟨_, default⟩ => optionImports default

@[inherit_doc Expr.imports]
def paramsImports : List Param → List ImportDecl
  | [] => []
  | p :: r => p.imports ++ paramsImports r

@[inherit_doc Expr.imports]
def FunctionBody.imports : FunctionBody → List ImportDecl
  | .block body => body.imports
  | .expr value => value.imports

@[inherit_doc Expr.imports]
def Block.imports : Block → List ImportDecl
  | ⟨_, statements⟩ => stmtsImports statements

@[inherit_doc Expr.imports]
def blockOptionImports : Option Block → List ImportDecl
  | none => []
  | some b => b.imports

@[inherit_doc Expr.imports]
def VarDecl.imports : VarDecl → List ImportDecl
  | ⟨_, _, _, value⟩ => optionImports value

@[inherit_doc Expr.imports]
def FunctionDecl.imports : FunctionDecl → List ImportDecl
  | ⟨_, _, params, body, _, _⟩ => paramsImports params ++ body.imports

@[inherit_doc Expr.imports]
def functionDeclsImports : List FunctionDecl → List ImportDecl
  | [] => []
  | d :: r => d.imports ++ functionDeclsImports r

@[inherit_doc Expr.imports]
def FieldDecl.imports : FieldDecl → List ImportDecl
  | ⟨_, _, value⟩ => optionImports value

@[inherit_doc Expr.imports]
def fieldsImports : List FieldDecl → List ImportDecl
  | [] => []
  | f :: r => f.imports ++ fieldsImports r

@[inherit_doc Expr.imports]
def ClassDecl.imports : ClassDecl → List ImportDecl
  | ⟨_, _, _, _, fields, methods, _⟩ => fieldsImports fields ++ functionDeclsImports methods

@[inherit_doc Expr.imports]
def initImports : Option ForInit → List ImportDecl
  | none => []
  | some (.declare d) => d.imports
  | some (.expr _ value) => value.imports

@[inherit_doc Expr.imports]
def SwitchCase.imports : SwitchCase → List ImportDecl
  | ⟨_, test, body⟩ => optionImports test ++ stmtsImports body

@[inherit_doc Expr.imports]
def casesImports : List SwitchCase → List ImportDecl
  | [] => []
  | c :: r => c.imports ++ casesImports r

/-- The imports in a statement, at any depth. -/
def Stmt.imports : Stmt → List ImportDecl
  | .block body => body.imports
  | .varDecl d => d.imports
  | .functionDecl d => d.imports
  | .classDecl d => d.imports
  | .interfaceDecl _ | .typeAlias .. | .breakStmt _ | .continueStmt _ => []
  | .importDecl d => [d]
  | .branch _ condition thenBranch elseBranch =>
    condition.imports ++ thenBranch.imports ++ stmtOptionImports elseBranch
  | .forLoop _ init condition update body =>
    initImports init ++ optionImports condition ++ optionImports update ++ body.imports
  | .forOf _ _ _ iterable body => iterable.imports ++ body.imports
  | .whileLoop _ condition body => condition.imports ++ body.imports
  | .switchStmt _ discriminant cases => discriminant.imports ++ casesImports cases
  | .returnStmt _ value => optionImports value
  | .throwStmt _ value => value.imports
  | .tryStmt _ body _ handler finalizer =>
    body.imports ++ blockOptionImports handler ++ blockOptionImports finalizer
  | .expr _ value => value.imports

@[inherit_doc Stmt.imports]
def stmtOptionImports : Option Stmt → List ImportDecl
  | none => []
  | some t => t.imports

@[inherit_doc Stmt.imports]
def stmtsImports : List Stmt → List ImportDecl
  | [] => []
  | t :: r => t.imports ++ stmtsImports r

end

@[inherit_doc Stmt.imports]
def Program.imports (p : Program) : List ImportDecl :=
  stmtsImports p.statements

/-- The imports that a statement is, or that its branches and loops have as their bodies. -/
def Stmt.bareImports : Stmt → List ImportDecl
  | .importDecl d => [d]
  | .branch _ _ thenBranch none => thenBranch.bareImports
  | .branch _ _ thenBranch (some elseBranch) => thenBranch.bareImports ++ elseBranch.bareImports
  | .forLoop _ _ _ _ body | .forOf _ _ _ _ body | .whileLoop _ _ body => body.bareImports
  | _ => []

/-! ## Formed trees -/

/-- No import stands in a block or a function. -/
theorem Stmt.bareImports_eq_nil : (t : Stmt) → {s : Site} → t.Formed s →
    (s.inBlock || s.inFunction) → t.bareImports = []
  | .importDecl _, s, ⟨h, _⟩, hs => by
    simp only [Bool.and_eq_true, Bool.not_eq_true'] at h
    simp [h] at hs
  | .branch _ _ thenBranch none, _, ⟨_, hthen, _, _⟩, hs => thenBranch.bareImports_eq_nil hthen hs
  | .branch _ _ thenBranch (some elseBranch), _, ⟨_, hthen, helse, _⟩, hs =>
    List.append_eq_nil_iff.mpr
      ⟨thenBranch.bareImports_eq_nil hthen hs, elseBranch.bareImports_eq_nil helse hs⟩
  | .forLoop _ _ _ _ body, _, ⟨_, _, _, h⟩, hs => body.bareImports_eq_nil h hs
  | .forOf _ _ _ _ body, _, ⟨_, _, h⟩, hs => body.bareImports_eq_nil h hs
  | .whileLoop _ _ body, _, ⟨_, h⟩, hs => body.bareImports_eq_nil h hs
  | .block .., _, _, _ | .varDecl _, _, _, _ | .functionDecl _, _, _, _ | .classDecl _, _, _, _
  | .interfaceDecl _, _, _, _ | .typeAlias .., _, _, _ | .switchStmt .., _, _, _
  | .breakStmt _, _, _, _ | .continueStmt _, _, _, _ | .returnStmt .., _, _, _
  | .throwStmt .., _, _, _ | .tryStmt .., _, _, _ | .expr .., _, _, _ => rfl

theorem flatMap_bareImports_eq_nil {s : Site} {ts : List Stmt} (h : StmtsFormed ts s)
    (hs : s.inBlock || s.inFunction) : ts.flatMap Stmt.bareImports = [] :=
  List.flatMap_eq_nil_iff.mpr fun t ht => t.bareImports_eq_nil (stmtsFormed_iff.mp h t ht) hs

-- Expressions and declarations reach statements through blocks only, where no import stands. So
-- what a statement adds to the imports of its parts are those that it has as bodies.
mutual

theorem Expr.imports_eq_nil {s : Site} : (e : Expr) → e.Formed s → e.imports = []
  | .literal .., _ | .name .., _ | .this _, _ => rfl
  | .array _ elements, h => exprsImports_eq_nil elements h
  | .object _ properties, h => propertiesImports_eq_nil properties h
  | .binary _ _ left right, ⟨hleft, hright⟩ =>
    List.append_eq_nil_iff.mpr ⟨left.imports_eq_nil hleft, right.imports_eq_nil hright⟩
  | .unary _ _ operand, h => operand.imports_eq_nil h
  | .update _ _ _ target, ⟨_, h⟩ => target.imports_eq_nil h
  | .assign _ _ target value, ⟨_, htarget, hvalue⟩ =>
    List.append_eq_nil_iff.mpr ⟨target.imports_eq_nil htarget, value.imports_eq_nil hvalue⟩
  | .conditional _ condition thenValue elseValue, ⟨hcondition, hthen, helse⟩ =>
    List.append_eq_nil_iff.mpr
      ⟨List.append_eq_nil_iff.mpr
        ⟨condition.imports_eq_nil hcondition, thenValue.imports_eq_nil hthen⟩,
        elseValue.imports_eq_nil helse⟩
  | .call _ callee args, ⟨hcallee, hargs⟩ =>
    List.append_eq_nil_iff.mpr ⟨callee.imports_eq_nil hcallee, exprsImports_eq_nil args hargs⟩
  | .member _ owner _, ⟨howner, _⟩ => owner.imports_eq_nil howner
  | .index _ owner key, ⟨howner, hkey⟩ =>
    List.append_eq_nil_iff.mpr ⟨owner.imports_eq_nil howner, key.imports_eq_nil hkey⟩
  | .construct _ cls args, ⟨hcls, hargs⟩ =>
    List.append_eq_nil_iff.mpr ⟨cls.imports_eq_nil hcls, exprsImports_eq_nil args hargs⟩
  | .superCall _ args, ⟨_, hargs⟩ => exprsImports_eq_nil args hargs
  | .await _ value, ⟨_, h⟩ => value.imports_eq_nil h
  | .arrow _ params body _, ⟨hparams, hbody⟩ =>
    List.append_eq_nil_iff.mpr ⟨paramsImports_eq_nil params hparams, body.imports_eq_nil hbody⟩
  | .function _ _ params body _ _, ⟨_, hparams, hbody⟩ =>
    List.append_eq_nil_iff.mpr ⟨paramsImports_eq_nil params hparams, body.imports_eq_nil hbody⟩

theorem exprsImports_eq_nil {s : Site} : (es : List Expr) → ExprsFormed es s → exprsImports es = []
  | [], _ => rfl
  | e :: r, ⟨he, hr⟩ =>
    List.append_eq_nil_iff.mpr ⟨e.imports_eq_nil he, exprsImports_eq_nil r hr⟩

theorem optionImports_eq_nil {s : Site} : (e : Option Expr) → OptionFormed e s →
    optionImports e = []
  | none, _ => rfl
  | some e, h => e.imports_eq_nil h

theorem Property.imports_eq_nil {s : Site} : (p : Property) → p.Formed s → p.imports = []
  | ⟨_, value, _⟩, ⟨h, _⟩ => value.imports_eq_nil h

theorem propertiesImports_eq_nil {s : Site} : (ps : List Property) → PropertiesFormed ps s →
    propertiesImports ps = []
  | [], _ => rfl
  | p :: r, ⟨hp, hr⟩ =>
    List.append_eq_nil_iff.mpr ⟨p.imports_eq_nil hp, propertiesImports_eq_nil r hr⟩

theorem Param.imports_eq_nil {s : Site} : (p : Param) → p.Formed s → p.imports = []
  | ⟨_, default⟩, ⟨_, h⟩ => optionImports_eq_nil default h

theorem paramsImports_eq_nil {s : Site} : (ps : List Param) → ParamsFormed ps s →
    paramsImports ps = []
  | [], _ => rfl
  | p :: r, ⟨hp, hr⟩ =>
    List.append_eq_nil_iff.mpr ⟨p.imports_eq_nil hp, paramsImports_eq_nil r hr⟩

theorem FunctionBody.imports_eq_nil {s : Site} : (body : FunctionBody) → body.Formed s →
    body.imports = []
  | .block body, h => body.imports_eq_nil h
  | .expr value, h => value.imports_eq_nil h

theorem Block.imports_eq_nil {s : Site} : (b : Block) → b.Formed s → b.imports = []
  | ⟨_, statements⟩, h => (stmtsImports_eq statements h).trans (flatMap_bareImports_eq_nil h rfl)

theorem blockOptionImports_eq_nil {s : Site} : (b : Option Block) → BlockOptionFormed b s →
    blockOptionImports b = []
  | none, _ => rfl
  | some b, h => b.imports_eq_nil h

theorem VarDecl.imports_eq_nil {s : Site} : (d : VarDecl) → d.Formed s → d.imports = []
  | ⟨_, _, _, value⟩, ⟨_, _, h⟩ => optionImports_eq_nil value h

theorem FunctionDecl.imports_eq_nil {s : Site} : (d : FunctionDecl) → d.Formed s → d.imports = []
  | ⟨_, _, params, body, _, _⟩, ⟨_, _, hparams, hbody⟩ =>
    List.append_eq_nil_iff.mpr ⟨paramsImports_eq_nil params hparams, body.imports_eq_nil hbody⟩

theorem functionDeclsImports_eq_nil {s : Site} : (ds : List FunctionDecl) →
    FunctionDeclsFormed ds s → functionDeclsImports ds = []
  | [], _ => rfl
  | d :: r, ⟨hd, hr⟩ =>
    List.append_eq_nil_iff.mpr ⟨d.imports_eq_nil hd, functionDeclsImports_eq_nil r hr⟩

theorem FieldDecl.imports_eq_nil {s : Site} : (f : FieldDecl) → f.Formed s → f.imports = []
  | ⟨_, _, value⟩, ⟨_, h⟩ => optionImports_eq_nil value h

theorem fieldsImports_eq_nil {s : Site} : (fs : List FieldDecl) → FieldsFormed fs s →
    fieldsImports fs = []
  | [], _ => rfl
  | f :: r, ⟨hf, hr⟩ =>
    List.append_eq_nil_iff.mpr ⟨f.imports_eq_nil hf, fieldsImports_eq_nil r hr⟩

theorem ClassDecl.imports_eq_nil {s : Site} : (d : ClassDecl) → d.Formed s → d.imports = []
  | ⟨_, _, _, _, fields, methods, _⟩, ⟨_, _, _, _, hfields, hmethods⟩ =>
    List.append_eq_nil_iff.mpr
      ⟨fieldsImports_eq_nil fields hfields, functionDeclsImports_eq_nil methods hmethods⟩

theorem initImports_eq_nil {s : Site} : (init : Option ForInit) → InitFormed init s →
    initImports init = []
  | none, _ => rfl
  | some (.declare d), h => d.imports_eq_nil h
  | some (.expr _ value), h => value.imports_eq_nil h

theorem SwitchCase.imports_eq_nil {s : Site} : (c : SwitchCase) → c.Formed s → s.inBlock →
    c.imports = []
  | ⟨_, test, body⟩, ⟨htest, hbody⟩, hs => by
    have hbare := flatMap_bareImports_eq_nil hbody (by simp [hs])
    simp [SwitchCase.imports, optionImports_eq_nil test htest, stmtsImports_eq body hbody, hbare]

theorem casesImports_eq_nil {s : Site} : (cs : List SwitchCase) → CasesFormed cs s → s.inBlock →
    casesImports cs = []
  | [], _, _ => rfl
  | c :: r, ⟨hc, hr⟩, hs =>
    List.append_eq_nil_iff.mpr ⟨c.imports_eq_nil hc hs, casesImports_eq_nil r hr hs⟩

theorem Stmt.imports_eq {s : Site} : (t : Stmt) → t.Formed s → t.imports = t.bareImports
  | .block body, h => body.imports_eq_nil h
  | .varDecl d, h => d.imports_eq_nil h
  | .functionDecl d, ⟨_, h⟩ => d.imports_eq_nil h
  | .classDecl d, h => d.imports_eq_nil h
  | .interfaceDecl _, _ | .typeAlias .., _ | .breakStmt _, _ | .continueStmt _, _
  | .importDecl _, _ => rfl
  | .branch _ condition thenBranch none, ⟨hcondition, hthen, _, _⟩ => by
    simp [Stmt.imports, stmtOptionImports, Stmt.bareImports, condition.imports_eq_nil hcondition,
      thenBranch.imports_eq hthen]
  | .branch _ condition thenBranch (some elseBranch), ⟨hcondition, hthen, helse, _⟩ => by
    simp [Stmt.imports, stmtOptionImports, Stmt.bareImports, condition.imports_eq_nil hcondition,
      thenBranch.imports_eq hthen, elseBranch.imports_eq helse]
  | .forLoop _ init condition update body, ⟨hinit, hcondition, hupdate, hbody⟩ => by
    simp [Stmt.imports, Stmt.bareImports, initImports_eq_nil init hinit,
      optionImports_eq_nil condition hcondition, optionImports_eq_nil update hupdate,
      body.imports_eq hbody]
  | .forOf _ _ _ iterable body, ⟨_, hiterable, hbody⟩ => by
    simp [Stmt.imports, Stmt.bareImports, iterable.imports_eq_nil hiterable, body.imports_eq hbody]
  | .whileLoop _ condition body, ⟨hcondition, hbody⟩ => by
    simp [Stmt.imports, Stmt.bareImports, condition.imports_eq_nil hcondition,
      body.imports_eq hbody]
  | .switchStmt _ discriminant cases, ⟨hdiscriminant, hcases, _⟩ => by
    simp [Stmt.imports, Stmt.bareImports, discriminant.imports_eq_nil hdiscriminant,
      casesImports_eq_nil cases hcases rfl]
  | .returnStmt _ value, ⟨_, h⟩ => optionImports_eq_nil value h
  | .throwStmt _ value, h => value.imports_eq_nil h
  | .tryStmt _ body _ handler finalizer, ⟨hbody, hhandler, hfinalizer, _⟩ => by
    simp [Stmt.imports, Stmt.bareImports, body.imports_eq_nil hbody,
      blockOptionImports_eq_nil handler hhandler, blockOptionImports_eq_nil finalizer hfinalizer]
  | .expr _ value, h => value.imports_eq_nil h

theorem stmtsImports_eq {s : Site} : (ts : List Stmt) → StmtsFormed ts s →
    stmtsImports ts = ts.flatMap Stmt.bareImports
  | [], _ => rfl
  | t :: r, ⟨ht, hr⟩ => by simp [stmtsImports, t.imports_eq ht, stmtsImports_eq r hr]

end

/-! ## Programs -/

/-- A program that a text stands for has imports among its statements and as the bodies of branches
    and loops, and no others. -/
theorem parse_imports {source : String} {p : Program} (h : parse source = .ok p) :
    p.imports = p.statements.flatMap Stmt.bareImports :=
  stmtsImports_eq p.statements (parse_formed h)

/-- The imports that a program binds are some of those that its statements have. -/
theorem importsOf_sublist (ts : List Stmt) :
    (importsOf ts).Sublist (ts.flatMap Stmt.bareImports) := by
  induction ts with
  | nil => exact .slnil
  | cons t r ih =>
    cases t with
    | importDecl d => exact ih.cons_cons d
    | _ => exact ih.trans (List.sublist_append_right ..)

/-- Statements bind all the imports that they have if and only if each that has one is one. -/
theorem importsOf_eq_iff {ts : List Stmt} : importsOf ts = ts.flatMap Stmt.bareImports ↔
    ∀ t ∈ ts, t.bareImports ≠ [] → ∃ d, t = .importDecl d := by
  induction ts with
  | nil => simp [importsOf]
  | cons t r ih =>
    by_cases himport : ∃ d, t = .importDecl d
    · obtain ⟨d, rfl⟩ := himport
      simp [importsOf, Stmt.bareImports, ih]
    · have hrest : importsOf (t :: r) = importsOf r := by
        rw [importsOf]
        exact fun d hd => himport ⟨d, hd⟩
      rw [hrest, List.flatMap_cons]
      by_cases hbare : t.bareImports = []
      · simp [hbare, ih]
      · -- What `t` has is missing among the imports that are bound, so these are too few.
        have hshort := (importsOf_sublist r).length_le
        have hpos := List.length_pos_iff.mpr hbare
        have hne : importsOf r ≠ t.bareImports ++ r.flatMap Stmt.bareImports := by
          intro heq
          have hlength := congrArg List.length heq
          rw [List.length_append] at hlength
          omega
        exact iff_of_false hne fun hall => himport (hall t List.mem_cons_self hbare)

/-- A program that a text stands for binds all of its imports, unless one of them is the body of a
    branch or a loop. -/
theorem parse_importsOf {source : String} {p : Program} (h : parse source = .ok p) :
    importsOf p.statements = p.imports ↔
      ∀ t ∈ p.statements, t.bareImports ≠ [] → ∃ d, t = .importDecl d := by
  rw [parse_imports h]
  exact importsOf_eq_iff

-- The import in `if (a) import "m";` is one of those that no program binds.
example (pos : Position) (d : ImportDecl) :
    importsOf [.branch pos (.name pos "a") (.importDecl d) none] = [] ∧
      Program.imports ⟨[.branch pos (.name pos "a") (.importDecl d) none]⟩ = [d] :=
  ⟨rfl, rfl⟩

end CoScript
