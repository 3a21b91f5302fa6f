import CoScript.Tree.Basic

/-!
# Where jumps may stand

A `break` needs a loop or a switch around it, a `continue` a loop and a `return` a function. The
body of a function starts anew: what surrounds the function catches none of its jumps.

Results:
* `Jumps`: the jumps that something around a place catches.
* `Stmt.Confined`, `Expr.Confined`: each jump in a tree has something around it that catches it.
-/

namespace CoScript

/-- The jumps that something around a place catches. -/
@[ext] structure Jumps where
  canBreak : Bool
  canContinue : Bool
  canReturn : Bool
  deriving Repr, DecidableEq

namespace Jumps

/-- Outside of everything, no jump is caught. -/
def none : Jumps := ⟨false, false, false⟩

/-- At the start of a function, only a `return` is caught. -/
def ofFunction : Jumps := ⟨false, false, true⟩

/-- Inside a loop. -/
def inLoop (j : Jumps) : Jumps := { j with canBreak := true, canContinue := true }

/-- Inside a switch. -/
def inSwitch (j : Jumps) : Jumps := { j with canBreak := true }

end Jumps

/-! ## Confined trees -/

mutual

/-- Each jump in the functions of an expression is caught inside its function. -/
def Expr.Confined : Expr → Prop
  | .literal .. | .name .. | .this _ => True
  | .array _ elements => ExprsConfined elements
  | .object _ properties => PropertiesConfined properties
  | .binary _ _ left right => left.Confined ∧ right.Confined
  | .unary _ _ operand => operand.Confined
  | .update _ _ _ target => target.Confined
  | .assign _ _ target value => target.Confined ∧ value.Confined
  | .conditional _ condition thenValue elseValue =>
    condition.Confined ∧ thenValue.Confined ∧ elseValue.Confined
  | .call _ callee args => callee.Confined ∧ ExprsConfined args
  | .member _ object _ => object.Confined
  | .index _ object key => object.Confined ∧ key.Confined
  | .construct _ cls args => cls.Confined ∧ ExprsConfined args
  | .superCall _ args => ExprsConfined args
  | .await _ value => value.Confined
  | .arrow _ params body _ => ParamsConfined params ∧ body.Confined
  | .function _ _ params body _ _ => ParamsConfined params ∧ body.Confined .ofFunction

@[inherit_doc Expr.Confined]
def ExprsConfined : List Expr → Prop
  | [] => True
  | e :: r => e.Confined ∧ ExprsConfined r

@[inherit_doc Expr.Confined]
def OptionConfined : Option Expr → Prop
  | none => True
  | some e => e.Confined

@[inherit_doc Expr.Confined]
def Property.Confined : Property → Prop
  | ⟨_, value, _⟩ => value.Confined

@[inherit_doc Expr.Confined]
def PropertiesConfined : List Property → Prop
  | [] => True
  | p :: r => p.Confined ∧ PropertiesConfined r

@[inherit_doc Expr.Confined]
def Param.Confined : Param → Prop
  | ⟨_, default⟩ => OptionConfined default

@[inherit_doc Expr.Confined]
def ParamsConfined : List Param → Prop
  | [] => True
  | p :: r => p.Confined ∧ ParamsConfined r

@[inherit_doc Expr.Confined]
def FunctionBody.Confined : FunctionBody → Prop
  | .block body => body.Confined .ofFunction
  | .expr value => value.Confined

/-- Each jump in a block is caught: in the block, or around it as `j` says. -/
def Block.Confined : Block → Jumps → Prop
  | ⟨_, statements⟩, j => StmtsConfined statements j

@[inherit_doc Block.Confined]
def BlockOptionConfined : Option Block → Jumps → Prop
  | none, _ => True
  | some b, j => b.Confined j

@[inherit_doc Expr.Confined]
def VarDecl.Confined : VarDecl → Prop
  | ⟨_, _, _, value⟩ => OptionConfined value

@[inherit_doc Expr.Confined]
def FunctionDecl.Confined : FunctionDecl → Prop
  | ⟨_, _, params, body, _, _⟩ => ParamsConfined params ∧ body.Confined .ofFunction

@[inherit_doc Expr.Confined]
def FunctionDeclsConfined : List FunctionDecl → Prop
  | [] => True
  | d :: r => d.Confined ∧ FunctionDeclsConfined r

@[inherit_doc Expr.Confined]
def FieldDecl.Confined : FieldDecl → Prop
  | ⟨_, _, value⟩ => OptionConfined value

@[inherit_doc Expr.Confined]
def FieldsConfined : List FieldDecl → Prop
  | [] => True
  | f :: r => f.Confined ∧ FieldsConfined r

@[inherit_doc Expr.Confined]
def ClassDecl.Confined : ClassDecl → Prop
  | ⟨_, _, _, _, fields, methods, _⟩ => FieldsConfined fields ∧ FunctionDeclsConfined methods

@[inherit_doc Expr.Confined]
def ForInit.Confined : ForInit → Prop
  | .declare decl => decl.Confined
  | .expr _ value => value.Confined

@[inherit_doc Expr.Confined]
def InitConfined : Option ForInit → Prop
  | none => True
  | some init => init.Confined

@[inherit_doc Block.Confined]
def SwitchCase.Confined : SwitchCase → Jumps → Prop
  | ⟨_, test, body⟩, j => OptionConfined test ∧ StmtsConfined body j

@[inherit_doc Block.Confined]
def CasesConfined : List SwitchCase → Jumps → Prop
  | [], _ => True
  | c :: r, j => c.Confined j ∧ CasesConfined r j

/-- Each jump in a statement is caught: in the statement, or around it as `j` says. -/
def Stmt.Confined : Stmt → Jumps → Prop
  | .block body, j => body.Confined j
  | .varDecl decl, _ => decl.Confined
  | .functionDecl decl, _ => decl.Confined
  | .classDecl decl, _ => decl.Confined
  | .interfaceDecl _, _ | .typeAlias .., _ | .importDecl _, _ => True
  | .branch _ condition thenBranch elseBranch, j =>
    condition.Confined ∧ thenBranch.Confined j ∧ StmtOptionConfined elseBranch j
  | .forLoop _ init condition update body, j =>
    InitConfined init ∧ OptionConfined condition ∧ OptionConfined update ∧ body.Confined j.inLoop
  | .forOf _ _ _ iterable body, j => iterable.Confined ∧ body.Confined j.inLoop
  | .whileLoop _ condition body, j => condition.Confined ∧ body.Confined j.inLoop
  | .switchStmt _ discriminant cases, j => discriminant.Confined ∧ CasesConfined cases j.inSwitch
  | .breakStmt _, j => j.canBreak
  | .continueStmt _, j => j.canContinue
  | .returnStmt _ value, j => j.canReturn ∧ OptionConfined value
  | .throwStmt _ value, _ => value.Confined
  | .tryStmt _ body _ handler finalizer, j =>
    body.Confined j ∧ BlockOptionConfined handler j ∧ BlockOptionConfined finalizer j
  | .expr _ value, _ => value.Confined

@[inherit_doc Stmt.Confined]
def StmtOptionConfined : Option Stmt → Jumps → Prop
  | none, _ => True
  | some s, j => s.Confined j

@[inherit_doc Stmt.Confined]
def StmtsConfined : List Stmt → Jumps → Prop
  | [], _ => True
  | s :: r, j => s.Confined j ∧ StmtsConfined r j

end

/-! ## Confined parts -/

theorem Block.confined_iff {b : Block} {j : Jumps} :
    b.Confined j ↔ StmtsConfined b.statements j := by
  cases b; rfl

theorem Property.confined_iff {p : Property} : p.Confined ↔ p.value.Confined := by
  cases p; rfl

theorem Param.confined_iff {p : Param} : p.Confined ↔ OptionConfined p.default := by
  cases p; rfl

theorem VarDecl.confined_iff {d : VarDecl} : d.Confined ↔ OptionConfined d.value := by
  cases d; rfl

theorem FunctionDecl.confined_iff {d : FunctionDecl} :
    d.Confined ↔ ParamsConfined d.params ∧ d.body.Confined .ofFunction := by
  cases d; rfl

theorem FieldDecl.confined_iff {f : FieldDecl} : f.Confined ↔ OptionConfined f.value := by
  cases f; rfl

theorem ClassDecl.confined_iff {d : ClassDecl} :
    d.Confined ↔ FieldsConfined d.fields ∧ FunctionDeclsConfined d.methods := by
  cases d; rfl

theorem SwitchCase.confined_iff {c : SwitchCase} {j : Jumps} :
    c.Confined j ↔ OptionConfined c.test ∧ StmtsConfined c.body j := by
  cases c; rfl

/-! ## Confined lists -/

theorem fieldsConfined_iff {fs : List FieldDecl} :
    FieldsConfined fs ↔ ∀ f ∈ fs, f.Confined := by
  induction fs with
  | nil => simp [FieldsConfined]
  | cons f r ih => simp [FieldsConfined, ih]

theorem casesConfined_iff {cs : List SwitchCase} {j : Jumps} :
    CasesConfined cs j ↔ ∀ c ∈ cs, c.Confined j := by
  induction cs with
  | nil => simp [CasesConfined]
  | cons c r ih => simp [CasesConfined, ih]

theorem optionConfined_iff {e : Option Expr} : OptionConfined e ↔ ∀ x ∈ e, x.Confined := by
  cases e <;> simp [OptionConfined]

end CoScript
