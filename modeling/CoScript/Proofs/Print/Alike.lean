import CoScript.Tree.Basic

/-!
# Programs up to positions

Two programs say the same when they differ only in positions, and in whether an import that keeps
the name of what it imports writes that name twice. Without these differences there is one program
for all that say the same.

Results:
* `Program.bare`: a program without its positions.
-/

namespace CoScript

/-- The name that an import binds is kept only if it is not the name of what is imported. -/
def ImportBinding.bare (b : ImportBinding) : ImportBinding :=
  ⟨b.name, if b.localName = b.name then none else some b.localName⟩

/-- An import without its position. -/
def ImportDecl.bare (d : ImportDecl) : ImportDecl :=
  ⟨.start, d.specifier, d.bindings.map ImportBinding.bare⟩

/-- An interface without its position. -/
def InterfaceDecl.bare (d : InterfaceDecl) : InterfaceDecl :=
  { d with pos := .start }

mutual

/-- An expression without positions. -/
def Expr.bare : Expr → Expr
  | .literal _ value => .literal .start value
  | .name _ ident => .name .start ident
  | .this _ => .this .start
  | .array _ elements => .array .start (bareExprs elements)
  | .object _ properties => .object .start (bareProperties properties)
  | .binary _ op left right => .binary .start op left.bare right.bare
  | .unary _ op operand => .unary .start op operand.bare
  | .update _ op before target => .update .start op before target.bare
  | .assign _ op target value => .assign .start op target.bare value.bare
  | .conditional _ condition thenValue elseValue =>
    .conditional .start condition.bare thenValue.bare elseValue.bare
  | .call _ callee args => .call .start callee.bare (bareExprs args)
  | .member _ object attr => .member .start object.bare attr
  | .index _ object key => .index .start object.bare key.bare
  | .construct _ cls args => .construct .start cls.bare (bareExprs args)
  | .superCall _ args => .superCall .start (bareExprs args)
  | .await _ value => .await .start value.bare
  | .arrow _ params body isAsync => .arrow .start (bareParams params) body.bare isAsync
  | .function _ name params body isAsync generics =>
    .function .start name (bareParams params) body.bare isAsync generics

@[inherit_doc Expr.bare]
def bareExprs : List Expr → List Expr
  | [] => []
  | e :: r => e.bare :: bareExprs r

@[inherit_doc Expr.bare]
def bareOption : Option Expr → Option Expr
  | none => none
  | some e => some e.bare

@[inherit_doc Expr.bare]
def Property.bare : Property → Property
  | ⟨key, value, shorthand⟩ => ⟨key, value.bare, shorthand⟩

@[inherit_doc Expr.bare]
def bareProperties : List Property → List Property
  | [] => []
  | p :: r => p.bare :: bareProperties r

@[inherit_doc Expr.bare]
def Param.bare : Param → Param
  | ⟨name, default⟩ => ⟨name, bareOption default⟩

@[inherit_doc Expr.bare]
def bareParams : List Param → List Param
  | [] => []
  | p :: r => p.bare :: bareParams r

@[inherit_doc Expr.bare]
def FunctionBody.bare : FunctionBody → FunctionBody
  | .block body => .block body.bare
  | .expr value => .expr value.bare

/-- A block without positions. -/
def Block.bare : Block → Block
  | ⟨_, statements⟩ => ⟨.start, bareStmts statements⟩

@[inherit_doc Block.bare]
def bareBlockOption : Option Block → Option Block
  | none => none
  | some b => some b.bare

@[inherit_doc Expr.bare]
def VarDecl.bare : VarDecl → VarDecl
  | ⟨_, kind, name, value⟩ => ⟨.start, kind, name, bareOption value⟩

@[inherit_doc Expr.bare]
def FunctionDecl.bare : FunctionDecl → FunctionDecl
  | ⟨_, name, params, body, isAsync, generics⟩ =>
    ⟨.start, name, bareParams params, body.bare, isAsync, generics⟩

@[inherit_doc Expr.bare]
def bareFunctions : List FunctionDecl → List FunctionDecl
  | [] => []
  | d :: r => d.bare :: bareFunctions r

@[inherit_doc Expr.bare]
def FieldDecl.bare : FieldDecl → FieldDecl
  | ⟨_, name, value⟩ => ⟨.start, name, bareOption value⟩

@[inherit_doc Expr.bare]
def bareFields : List FieldDecl → List FieldDecl
  | [] => []
  | f :: r => f.bare :: bareFields r

@[inherit_doc Expr.bare]
def ClassDecl.bare : ClassDecl → ClassDecl
  | ⟨_, name, base, interfaces, fields, methods, generics⟩ =>
    ⟨.start, name, base, interfaces, bareFields fields, bareFunctions methods, generics⟩

@[inherit_doc Expr.bare]
def ForInit.bare : ForInit → ForInit
  | .declare decl => .declare decl.bare
  | .expr _ value => .expr .start value.bare

@[inherit_doc Expr.bare]
def bareInit : Option ForInit → Option ForInit
  | none => none
  | some i => some i.bare

@[inherit_doc Expr.bare]
def SwitchCase.bare : SwitchCase → SwitchCase
  | ⟨_, test, body⟩ => ⟨.start, bareOption test, bareStmts body⟩

@[inherit_doc Expr.bare]
def bareCases : List SwitchCase → List SwitchCase
  | [] => []
  | c :: r => c.bare :: bareCases r

/-- A statement without positions. -/
def Stmt.bare : Stmt → Stmt
  | .block body => .block body.bare
  | .varDecl decl => .varDecl decl.bare
  | .functionDecl decl => .functionDecl decl.bare
  | .classDecl decl => .classDecl decl.bare
  | .interfaceDecl decl => .interfaceDecl decl.bare
  | .typeAlias _ name generics => .typeAlias .start name generics
  | .importDecl decl => .importDecl decl.bare
  | .branch _ condition thenBranch elseBranch =>
    .branch .start condition.bare thenBranch.bare (bareStmtOption elseBranch)
  | .forLoop _ init condition update body =>
    .forLoop .start (bareInit init) (bareOption condition) (bareOption update) body.bare
  | .forOf _ kind name iterable body => .forOf .start kind name iterable.bare body.bare
  | .whileLoop _ condition body => .whileLoop .start condition.bare body.bare
  | .switchStmt _ discriminant cases => .switchStmt .start discriminant.bare (bareCases cases)
  | .breakStmt _ => .breakStmt .start
  | .continueStmt _ => .continueStmt .start
  | .returnStmt _ value => .returnStmt .start (bareOption value)
  | .throwStmt _ value => .throwStmt .start value.bare
  | .tryStmt _ body name handler finalizer =>
    .tryStmt .start body.bare name (bareBlockOption handler) (bareBlockOption finalizer)
  | .expr _ value => .expr .start value.bare

@[inherit_doc Stmt.bare]
def bareStmtOption : Option Stmt → Option Stmt
  | none => none
  | some s => some s.bare

@[inherit_doc Stmt.bare]
def bareStmts : List Stmt → List Stmt
  | [] => []
  | s :: r => s.bare :: bareStmts r

end

/-- A program without positions. -/
def Program.bare (p : Program) : Program :=
  ⟨bareStmts p.statements⟩

/-! ## Lists -/

theorem bareExprs_eq (es : List Expr) : bareExprs es = es.map Expr.bare := by
  induction es with
  | nil => rfl
  | cons e r ih => rw [bareExprs, ih, List.map_cons]

theorem bareProperties_eq (ps : List Property) : bareProperties ps = ps.map Property.bare := by
  induction ps with
  | nil => rfl
  | cons p r ih => rw [bareProperties, ih, List.map_cons]

theorem bareParams_eq (ps : List Param) : bareParams ps = ps.map Param.bare := by
  induction ps with
  | nil => rfl
  | cons p r ih => rw [bareParams, ih, List.map_cons]

theorem bareFunctions_eq (ds : List FunctionDecl) :
    bareFunctions ds = ds.map FunctionDecl.bare := by
  induction ds with
  | nil => rfl
  | cons d r ih => rw [bareFunctions, ih, List.map_cons]

theorem bareFields_eq (fs : List FieldDecl) : bareFields fs = fs.map FieldDecl.bare := by
  induction fs with
  | nil => rfl
  | cons f r ih => rw [bareFields, ih, List.map_cons]

theorem bareCases_eq (cs : List SwitchCase) : bareCases cs = cs.map SwitchCase.bare := by
  induction cs with
  | nil => rfl
  | cons c r ih => rw [bareCases, ih, List.map_cons]

theorem bareStmts_eq (ss : List Stmt) : bareStmts ss = ss.map Stmt.bare := by
  induction ss with
  | nil => rfl
  | cons s r ih => rw [bareStmts, ih, List.map_cons]

/-- What can be assigned to does not depend on positions. -/
theorem Expr.isTarget_bare (e : Expr) : e.bare.isTarget = e.isTarget := by
  cases e <;> rfl

-- Many proofs ask for these equations at the same time, so they are derived here.
attribute [local simp] Expr.bare Stmt.bare

end CoScript
