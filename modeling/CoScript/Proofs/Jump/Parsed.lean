import CoScript.Proofs.Jump.Confined
import CoScript.Proofs.Parse.Promised

/-!
# What the parser admits

What surrounds a place says which jumps something around it catches, and the parser promises for
each jump that one of these catches it. The surroundings of a function are forgotten in its body by
both. So each tree that a parser gives is confined.

Results:
* `Expr.confined`, `Stmt.confined`: a tree that the parser could give is confined.
* `parse_confined`: a program that a text stands for is confined.
-/

namespace CoScript

/-! ## Surroundings -/

/-- The jumps that something around a place catches. -/
def Site.jumps (s : Site) : Jumps :=
  ⟨s.inLoop || s.inSwitch, s.inLoop, s.inFunction⟩

theorem Site.jumps_enterSwitch (s : Site) : s.enterSwitch.jumps = s.jumps.inSwitch := by
  simp [jumps, enterSwitch, Jumps.inSwitch]

/-! ## Trees -/

-- The jumps of a place in a function, a loop or a block are by definition those that the construct
-- leaves; only for a switch, which adds one, there is something to prove.
mutual

theorem Expr.confined {s : Site} : (e : Expr) → e.Formed s → e.Confined
  | .literal .., _ | .name .., _ | .this _, _ => trivial
  | .array _ elements, h => exprs_confined elements h
  | .object _ properties, h => properties_confined properties h
  | .binary _ _ left right, ⟨hleft, hright⟩ => ⟨left.confined hleft, right.confined hright⟩
  | .unary _ _ operand, h => operand.confined h
  | .update _ _ _ target, ⟨_, h⟩ => target.confined h
  | .assign _ _ target value, ⟨_, htarget, hvalue⟩ =>
    ⟨target.confined htarget, value.confined hvalue⟩
  | .conditional _ condition thenValue elseValue, ⟨hcondition, hthen, helse⟩ =>
    ⟨condition.confined hcondition, thenValue.confined hthen, elseValue.confined helse⟩
  | .call _ callee args, ⟨hcallee, hargs⟩ => ⟨callee.confined hcallee, exprs_confined args hargs⟩
  | .member _ owner _, ⟨howner, _⟩ => owner.confined howner
  | .index _ owner key, ⟨howner, hkey⟩ => ⟨owner.confined howner, key.confined hkey⟩
  | .construct _ cls args, ⟨hcls, hargs⟩ => ⟨cls.confined hcls, exprs_confined args hargs⟩
  | .superCall _ args, ⟨_, hargs⟩ => exprs_confined args hargs
  | .await _ value, ⟨_, h⟩ => value.confined h
  | .arrow _ params body _, ⟨hparams, hbody⟩ =>
    ⟨params_confined params hparams, body.confined hbody⟩
  | .function _ _ params body _ _, ⟨_, hparams, hbody⟩ =>
    ⟨params_confined params hparams, body.confined hbody⟩

theorem exprs_confined {s : Site} : (es : List Expr) → ExprsFormed es s → ExprsConfined es
  | [], _ => trivial
  | e :: r, ⟨he, hr⟩ => ⟨e.confined he, exprs_confined r hr⟩

theorem option_confined {s : Site} : (e : Option Expr) → OptionFormed e s → OptionConfined e
  | none, _ => trivial
  | some e, h => e.confined h

theorem Property.confined {s : Site} : (p : Property) → p.Formed s → p.Confined
  | ⟨_, value, _⟩, ⟨h, _⟩ => value.confined h

theorem properties_confined {s : Site} : (ps : List Property) → PropertiesFormed ps s →
    PropertiesConfined ps
  | [], _ => trivial
  | p :: r, ⟨hp, hr⟩ => ⟨p.confined hp, properties_confined r hr⟩

theorem Param.confined {s : Site} : (p : Param) → p.Formed s → p.Confined
  | ⟨_, default⟩, ⟨_, h⟩ => option_confined default h

theorem params_confined {s : Site} : (ps : List Param) → ParamsFormed ps s → ParamsConfined ps
  | [], _ => trivial
  | p :: r, ⟨hp, hr⟩ => ⟨p.confined hp, params_confined r hr⟩

theorem FunctionBody.confined {s : Site} {isAsync : Bool} : (body : FunctionBody) →
    body.Formed (s.enterFunction isAsync) → body.Confined
  | .block body, h => body.confined h
  | .expr value, h => value.confined h

theorem Block.confined {s : Site} : (b : Block) → b.Formed s → b.Confined s.jumps
  | ⟨_, statements⟩, h => stmts_confined (s := s.enterBlock) statements h

theorem blockOption_confined {s : Site} : (b : Option Block) → BlockOptionFormed b s →
    BlockOptionConfined b s.jumps
  | none, _ => trivial
  | some b, h => b.confined h

theorem VarDecl.confined {s : Site} : (d : VarDecl) → d.Formed s → d.Confined
  | ⟨_, _, _, value⟩, ⟨_, _, h⟩ => option_confined value h

theorem FunctionDecl.confined {s : Site} : (d : FunctionDecl) → d.Formed s → d.Confined
  | ⟨_, _, params, body, _, _⟩, ⟨_, _, hparams, hbody⟩ =>
    ⟨params_confined params hparams, body.confined hbody⟩

theorem functionDecls_confined {s : Site} : (ds : List FunctionDecl) → FunctionDeclsFormed ds s →
    FunctionDeclsConfined ds
  | [], _ => trivial
  | d :: r, ⟨hd, hr⟩ => ⟨d.confined hd, functionDecls_confined r hr⟩

theorem FieldDecl.confined {s : Site} : (f : FieldDecl) → f.Formed s → f.Confined
  | ⟨_, _, value⟩, ⟨_, h⟩ => option_confined value h

theorem fields_confined {s : Site} : (fs : List FieldDecl) → FieldsFormed fs s → FieldsConfined fs
  | [], _ => trivial
  | f :: r, ⟨hf, hr⟩ => ⟨f.confined hf, fields_confined r hr⟩

theorem ClassDecl.confined {s : Site} : (d : ClassDecl) → d.Formed s → d.Confined
  | ⟨_, _, _, _, fields, methods, _⟩, ⟨_, _, _, _, hfields, hmethods⟩ =>
    ⟨fields_confined fields hfields, functionDecls_confined methods hmethods⟩

theorem init_confined {s : Site} : (init : Option ForInit) → InitFormed init s → InitConfined init
  | none, _ => trivial
  | some (.declare d), h => d.confined h
  | some (.expr _ value), h => value.confined h

theorem SwitchCase.confined {s : Site} : (c : SwitchCase) → c.Formed s → c.Confined s.jumps
  | ⟨_, test, body⟩, ⟨htest, hbody⟩ => ⟨option_confined test htest, stmts_confined body hbody⟩

theorem cases_confined {s : Site} : (cs : List SwitchCase) → CasesFormed cs s →
    CasesConfined cs s.jumps
  | [], _ => trivial
  | c :: r, ⟨hc, hr⟩ => ⟨c.confined hc, cases_confined r hr⟩

theorem Stmt.confined {s : Site} : (t : Stmt) → t.Formed s → t.Confined s.jumps
  | .block body, h => body.confined h
  | .varDecl d, h => d.confined h
  | .functionDecl d, ⟨_, h⟩ => d.confined h
  | .classDecl d, h => d.confined h
  | .interfaceDecl _, _ | .typeAlias .., _ | .importDecl _, _ => trivial
  | .branch _ condition thenBranch elseBranch, ⟨hcondition, hthen, helse, _⟩ =>
    ⟨condition.confined hcondition, thenBranch.confined hthen, stmtOption_confined elseBranch helse⟩
  | .forLoop _ init condition update body, ⟨hinit, hcondition, hupdate, hbody⟩ =>
    ⟨init_confined init hinit, option_confined condition hcondition, option_confined update hupdate,
      body.confined hbody⟩
  | .forOf _ _ _ iterable body, ⟨_, hiterable, hbody⟩ =>
    ⟨iterable.confined hiterable, body.confined hbody⟩
  | .whileLoop _ condition body, ⟨hcondition, hbody⟩ =>
    ⟨condition.confined hcondition, body.confined hbody⟩
  | .switchStmt _ discriminant cases, ⟨hdiscriminant, hcases, _⟩ =>
    ⟨discriminant.confined hdiscriminant, s.jumps_enterSwitch ▸ cases_confined cases hcases⟩
  | .breakStmt _, h => h
  | .continueStmt _, h => h
  | .returnStmt _ value, ⟨hfunction, h⟩ => ⟨hfunction, option_confined value h⟩
  | .throwStmt _ value, h => value.confined h
  | .tryStmt _ body _ handler finalizer, ⟨hbody, hhandler, hfinalizer, _⟩ =>
    ⟨body.confined hbody, blockOption_confined handler hhandler,
      blockOption_confined finalizer hfinalizer⟩
  | .expr _ value, h => value.confined h

theorem stmtOption_confined {s : Site} : (t : Option Stmt) → StmtOptionFormed t s →
    StmtOptionConfined t s.jumps
  | none, _ => trivial
  | some t, h => t.confined h

theorem stmts_confined {s : Site} : (ts : List Stmt) → StmtsFormed ts s → StmtsConfined ts s.jumps
  | [], _ => trivial
  | t :: r, ⟨ht, hr⟩ => ⟨t.confined ht, stmts_confined r hr⟩

end

/-! ## Programs -/

/-- Each jump in a program that a text stands for has something around it that catches it. -/
theorem parse_confined {source : String} {p : Program} (h : parse source = .ok p) :
    StmtsConfined p.statements .none :=
  stmts_confined p.statements (parse_formed h)

end CoScript
