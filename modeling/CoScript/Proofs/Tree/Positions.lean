import CoScript.Tree.Basic

/-!
# Positions in trees

Every position of a tree is moved by one function; all else stays as it is. Moved to one and the
same place, two trees that differ only in positions are equal.

Results:
* `Program.mapPos`: a program with its positions moved.
* `Program.unplaced`: a program without its positions.
* `Program.mapPos_id`: positions that stay where they are.
-/

namespace CoScript

/-- An import with its position moved. -/
def ImportDecl.mapPos (f : Position → Position) (d : ImportDecl) : ImportDecl :=
  { d with pos := f d.pos }

/-- An interface with its position moved. -/
def InterfaceDecl.mapPos (f : Position → Position) (d : InterfaceDecl) : InterfaceDecl :=
  { d with pos := f d.pos }

section Moving

variable (f : Position → Position)

mutual

/-- An expression with its positions moved. -/
def Expr.mapPos : Expr → Expr
  | .literal p value => .literal (f p) value
  | .name p ident => .name (f p) ident
  | .this p => .this (f p)
  | .array p elements => .array (f p) (mapPosExprs elements)
  | .object p properties => .object (f p) (mapPosProperties properties)
  | .binary p op left right => .binary (f p) op left.mapPos right.mapPos
  | .unary p op operand => .unary (f p) op operand.mapPos
  | .update p op before target => .update (f p) op before target.mapPos
  | .assign p op target value => .assign (f p) op target.mapPos value.mapPos
  | .conditional p condition thenValue elseValue =>
    .conditional (f p) condition.mapPos thenValue.mapPos elseValue.mapPos
  | .call p callee args => .call (f p) callee.mapPos (mapPosExprs args)
  | .member p object attr => .member (f p) object.mapPos attr
  | .index p object key => .index (f p) object.mapPos key.mapPos
  | .construct p cls args => .construct (f p) cls.mapPos (mapPosExprs args)
  | .superCall p args => .superCall (f p) (mapPosExprs args)
  | .await p value => .await (f p) value.mapPos
  | .arrow p params body isAsync => .arrow (f p) (mapPosParams params) body.mapPos isAsync
  | .function p name params body isAsync generics =>
    .function (f p) name (mapPosParams params) body.mapPos isAsync generics

@[inherit_doc Expr.mapPos]
def mapPosExprs : List Expr → List Expr
  | [] => []
  | e :: r => e.mapPos :: mapPosExprs r

@[inherit_doc Expr.mapPos]
def mapPosOption : Option Expr → Option Expr
  | none => none
  | some e => some e.mapPos

@[inherit_doc Expr.mapPos]
def Property.mapPos : Property → Property
  | ⟨key, value, shorthand⟩ => ⟨key, value.mapPos, shorthand⟩

@[inherit_doc Expr.mapPos]
def mapPosProperties : List Property → List Property
  | [] => []
  | p :: r => p.mapPos :: mapPosProperties r

@[inherit_doc Expr.mapPos]
def Param.mapPos : Param → Param
  | ⟨name, default⟩ => ⟨name, mapPosOption default⟩

@[inherit_doc Expr.mapPos]
def mapPosParams : List Param → List Param
  | [] => []
  | p :: r => p.mapPos :: mapPosParams r

@[inherit_doc Expr.mapPos]
def FunctionBody.mapPos : FunctionBody → FunctionBody
  | .block body => .block body.mapPos
  | .expr value => .expr value.mapPos

/-- A block with its positions moved. -/
def Block.mapPos : Block → Block
  | ⟨p, statements⟩ => ⟨f p, mapPosStmts statements⟩

@[inherit_doc Block.mapPos]
def mapPosBlockOption : Option Block → Option Block
  | none => none
  | some b => some b.mapPos

@[inherit_doc Expr.mapPos]
def VarDecl.mapPos : VarDecl → VarDecl
  | ⟨p, kind, name, value⟩ => ⟨f p, kind, name, mapPosOption value⟩

@[inherit_doc Expr.mapPos]
def FunctionDecl.mapPos : FunctionDecl → FunctionDecl
  | ⟨p, name, params, body, isAsync, generics⟩ =>
    ⟨f p, name, mapPosParams params, body.mapPos, isAsync, generics⟩

@[inherit_doc Expr.mapPos]
def mapPosFunctions : List FunctionDecl → List FunctionDecl
  | [] => []
  | d :: r => d.mapPos :: mapPosFunctions r

@[inherit_doc Expr.mapPos]
def FieldDecl.mapPos : FieldDecl → FieldDecl
  | ⟨p, name, value⟩ => ⟨f p, name, mapPosOption value⟩

@[inherit_doc Expr.mapPos]
def mapPosFields : List FieldDecl → List FieldDecl
  | [] => []
  | d :: r => d.mapPos :: mapPosFields r

@[inherit_doc Expr.mapPos]
def ClassDecl.mapPos : ClassDecl → ClassDecl
  | ⟨p, name, base, interfaces, fields, methods, generics⟩ =>
    ⟨f p, name, base, interfaces, mapPosFields fields, mapPosFunctions methods, generics⟩

@[inherit_doc Expr.mapPos]
def ForInit.mapPos : ForInit → ForInit
  | .declare decl => .declare decl.mapPos
  | .expr p value => .expr (f p) value.mapPos

@[inherit_doc Expr.mapPos]
def mapPosInit : Option ForInit → Option ForInit
  | none => none
  | some i => some i.mapPos

@[inherit_doc Expr.mapPos]
def SwitchCase.mapPos : SwitchCase → SwitchCase
  | ⟨p, test, body⟩ => ⟨f p, mapPosOption test, mapPosStmts body⟩

@[inherit_doc Expr.mapPos]
def mapPosCases : List SwitchCase → List SwitchCase
  | [] => []
  | c :: r => c.mapPos :: mapPosCases r

/-- A statement with its positions moved. -/
def Stmt.mapPos : Stmt → Stmt
  | .block body => .block body.mapPos
  | .varDecl decl => .varDecl decl.mapPos
  | .functionDecl decl => .functionDecl decl.mapPos
  | .classDecl decl => .classDecl decl.mapPos
  | .interfaceDecl decl => .interfaceDecl (decl.mapPos f)
  | .typeAlias p name generics => .typeAlias (f p) name generics
  | .importDecl decl => .importDecl (decl.mapPos f)
  | .branch p condition thenBranch elseBranch =>
    .branch (f p) condition.mapPos thenBranch.mapPos (mapPosStmtOption elseBranch)
  | .forLoop p init condition update body =>
    .forLoop (f p) (mapPosInit init) (mapPosOption condition) (mapPosOption update) body.mapPos
  | .forOf p kind name iterable body => .forOf (f p) kind name iterable.mapPos body.mapPos
  | .whileLoop p condition body => .whileLoop (f p) condition.mapPos body.mapPos
  | .switchStmt p discriminant cases => .switchStmt (f p) discriminant.mapPos (mapPosCases cases)
  | .breakStmt p => .breakStmt (f p)
  | .continueStmt p => .continueStmt (f p)
  | .returnStmt p value => .returnStmt (f p) (mapPosOption value)
  | .throwStmt p value => .throwStmt (f p) value.mapPos
  | .tryStmt p body name handler finalizer =>
    .tryStmt (f p) body.mapPos name (mapPosBlockOption handler) (mapPosBlockOption finalizer)
  | .expr p value => .expr (f p) value.mapPos

@[inherit_doc Stmt.mapPos]
def mapPosStmtOption : Option Stmt → Option Stmt
  | none => none
  | some s => some s.mapPos

@[inherit_doc Stmt.mapPos]
def mapPosStmts : List Stmt → List Stmt
  | [] => []
  | s :: r => s.mapPos :: mapPosStmts r

end

/-- A program with its positions moved. -/
def Program.mapPos (p : Program) : Program :=
  ⟨mapPosStmts f p.statements⟩

end Moving

/-- A program without its positions. -/
def Program.unplaced (p : Program) : Program :=
  p.mapPos fun _ => .start

/-! ## Lists and options -/

section Lists

variable (f : Position → Position)

theorem mapPosExprs_eq (es : List Expr) : mapPosExprs f es = es.map (·.mapPos f) := by
  induction es with
  | nil => rfl
  | cons e r ih => rw [mapPosExprs, ih, List.map_cons]

theorem mapPosProperties_eq (ps : List Property) :
    mapPosProperties f ps = ps.map (·.mapPos f) := by
  induction ps with
  | nil => rfl
  | cons p r ih => rw [mapPosProperties, ih, List.map_cons]

theorem mapPosParams_eq (ps : List Param) : mapPosParams f ps = ps.map (·.mapPos f) := by
  induction ps with
  | nil => rfl
  | cons p r ih => rw [mapPosParams, ih, List.map_cons]

theorem mapPosFunctions_eq (ds : List FunctionDecl) :
    mapPosFunctions f ds = ds.map (·.mapPos f) := by
  induction ds with
  | nil => rfl
  | cons d r ih => rw [mapPosFunctions, ih, List.map_cons]

theorem mapPosFields_eq (ds : List FieldDecl) : mapPosFields f ds = ds.map (·.mapPos f) := by
  induction ds with
  | nil => rfl
  | cons d r ih => rw [mapPosFields, ih, List.map_cons]

theorem mapPosCases_eq (cs : List SwitchCase) : mapPosCases f cs = cs.map (·.mapPos f) := by
  induction cs with
  | nil => rfl
  | cons c r ih => rw [mapPosCases, ih, List.map_cons]

theorem mapPosStmts_eq (ss : List Stmt) : mapPosStmts f ss = ss.map (·.mapPos f) := by
  induction ss with
  | nil => rfl
  | cons s r ih => rw [mapPosStmts, ih, List.map_cons]

theorem mapPosOption_eq (o : Option Expr) : mapPosOption f o = o.map (·.mapPos f) := by
  cases o <;> rfl

theorem mapPosBlockOption_eq (o : Option Block) : mapPosBlockOption f o = o.map (·.mapPos f) := by
  cases o <;> rfl

theorem mapPosInit_eq (o : Option ForInit) : mapPosInit f o = o.map (·.mapPos f) := by
  cases o <;> rfl

theorem mapPosStmtOption_eq (o : Option Stmt) : mapPosStmtOption f o = o.map (·.mapPos f) := by
  cases o <;> rfl

/-- What can be assigned to does not depend on positions. -/
theorem Expr.isTarget_mapPos (e : Expr) : (e.mapPos f).isTarget = e.isTarget := by
  cases e <;> rfl

end Lists

/-! ## Positions that stay -/

mutual

theorem Expr.mapPos_id (e : Expr) : e.mapPos id = e := by
  cases e with
  | array p es => rw [Expr.mapPos, mapPosExprs_id es]; rfl
  | object p ps => rw [Expr.mapPos, mapPosProperties_id ps]; rfl
  | binary p op l r => rw [Expr.mapPos, l.mapPos_id, r.mapPos_id]; rfl
  | unary p op e => rw [Expr.mapPos, e.mapPos_id]; rfl
  | update p op b e => rw [Expr.mapPos, e.mapPos_id]; rfl
  | assign p op t v => rw [Expr.mapPos, t.mapPos_id, v.mapPos_id]; rfl
  | conditional p c t e => rw [Expr.mapPos, c.mapPos_id, t.mapPos_id, e.mapPos_id]; rfl
  | call p f as => rw [Expr.mapPos, f.mapPos_id, mapPosExprs_id as]; rfl
  | member p o a => rw [Expr.mapPos, o.mapPos_id]; rfl
  | index p o k => rw [Expr.mapPos, o.mapPos_id, k.mapPos_id]; rfl
  | construct p c as => rw [Expr.mapPos, c.mapPos_id, mapPosExprs_id as]; rfl
  | superCall p as => rw [Expr.mapPos, mapPosExprs_id as]; rfl
  | await p e => rw [Expr.mapPos, e.mapPos_id]; rfl
  | arrow p ps b a => rw [Expr.mapPos, mapPosParams_id ps, b.mapPos_id]; rfl
  | function p n ps b a g => rw [Expr.mapPos, mapPosParams_id ps, b.mapPos_id]; rfl
  | _ => rfl

theorem mapPosExprs_id (es : List Expr) : mapPosExprs id es = es := by
  cases es with
  | nil => rfl
  | cons e r => rw [mapPosExprs, e.mapPos_id, mapPosExprs_id r]

theorem mapPosOption_id (o : Option Expr) : mapPosOption id o = o := by
  cases o with
  | none => rfl
  | some e => rw [mapPosOption, e.mapPos_id]

theorem Property.mapPos_id (p : Property) : p.mapPos id = p := by
  obtain ⟨key, value, shorthand⟩ := p
  rw [Property.mapPos, value.mapPos_id]

theorem mapPosProperties_id (ps : List Property) : mapPosProperties id ps = ps := by
  cases ps with
  | nil => rfl
  | cons p r => rw [mapPosProperties, p.mapPos_id, mapPosProperties_id r]

theorem Param.mapPos_id (p : Param) : p.mapPos id = p := by
  obtain ⟨name, default⟩ := p
  rw [Param.mapPos, mapPosOption_id default]

theorem mapPosParams_id (ps : List Param) : mapPosParams id ps = ps := by
  cases ps with
  | nil => rfl
  | cons p r => rw [mapPosParams, p.mapPos_id, mapPosParams_id r]

theorem FunctionBody.mapPos_id (b : FunctionBody) : b.mapPos id = b := by
  cases b with
  | block b => rw [FunctionBody.mapPos, b.mapPos_id]
  | expr e => rw [FunctionBody.mapPos, e.mapPos_id]

theorem Block.mapPos_id (b : Block) : b.mapPos id = b := by
  obtain ⟨p, ss⟩ := b
  rw [Block.mapPos, mapPosStmts_id ss]
  rfl

theorem mapPosBlockOption_id (o : Option Block) : mapPosBlockOption id o = o := by
  cases o with
  | none => rfl
  | some b => rw [mapPosBlockOption, b.mapPos_id]

theorem VarDecl.mapPos_id (d : VarDecl) : d.mapPos id = d := by
  obtain ⟨p, kind, name, value⟩ := d
  rw [VarDecl.mapPos, mapPosOption_id value]
  rfl

theorem FunctionDecl.mapPos_id (d : FunctionDecl) : d.mapPos id = d := by
  obtain ⟨p, name, ps, body, isAsync, generics⟩ := d
  rw [FunctionDecl.mapPos, mapPosParams_id ps, body.mapPos_id]
  rfl

theorem mapPosFunctions_id (ds : List FunctionDecl) : mapPosFunctions id ds = ds := by
  cases ds with
  | nil => rfl
  | cons d r => rw [mapPosFunctions, d.mapPos_id, mapPosFunctions_id r]

theorem FieldDecl.mapPos_id (d : FieldDecl) : d.mapPos id = d := by
  obtain ⟨p, name, value⟩ := d
  rw [FieldDecl.mapPos, mapPosOption_id value]
  rfl

theorem mapPosFields_id (ds : List FieldDecl) : mapPosFields id ds = ds := by
  cases ds with
  | nil => rfl
  | cons d r => rw [mapPosFields, d.mapPos_id, mapPosFields_id r]

theorem ClassDecl.mapPos_id (d : ClassDecl) : d.mapPos id = d := by
  obtain ⟨p, name, base, interfaces, fields, methods, generics⟩ := d
  rw [ClassDecl.mapPos, mapPosFields_id fields, mapPosFunctions_id methods]
  rfl

theorem ForInit.mapPos_id (i : ForInit) : i.mapPos id = i := by
  cases i with
  | declare d => rw [ForInit.mapPos, d.mapPos_id]
  | expr p e => rw [ForInit.mapPos, e.mapPos_id]; rfl

theorem mapPosInit_id (o : Option ForInit) : mapPosInit id o = o := by
  cases o with
  | none => rfl
  | some i => rw [mapPosInit, i.mapPos_id]

theorem SwitchCase.mapPos_id (c : SwitchCase) : c.mapPos id = c := by
  obtain ⟨p, test, body⟩ := c
  rw [SwitchCase.mapPos, mapPosOption_id test, mapPosStmts_id body]
  rfl

theorem mapPosCases_id (cs : List SwitchCase) : mapPosCases id cs = cs := by
  cases cs with
  | nil => rfl
  | cons c r => rw [mapPosCases, c.mapPos_id, mapPosCases_id r]

theorem Stmt.mapPos_id (s : Stmt) : s.mapPos id = s := by
  cases s with
  | block b => rw [Stmt.mapPos, b.mapPos_id]
  | varDecl d => rw [Stmt.mapPos, d.mapPos_id]
  | functionDecl d => rw [Stmt.mapPos, d.mapPos_id]
  | classDecl d => rw [Stmt.mapPos, d.mapPos_id]
  | branch p c t e => rw [Stmt.mapPos, c.mapPos_id, t.mapPos_id, mapPosStmtOption_id e]; rfl
  | forLoop p i c u b =>
    rw [Stmt.mapPos, mapPosInit_id i, mapPosOption_id c, mapPosOption_id u, b.mapPos_id]; rfl
  | forOf p k n e b => rw [Stmt.mapPos, e.mapPos_id, b.mapPos_id]; rfl
  | whileLoop p c b => rw [Stmt.mapPos, c.mapPos_id, b.mapPos_id]; rfl
  | switchStmt p d cs => rw [Stmt.mapPos, d.mapPos_id, mapPosCases_id cs]; rfl
  | returnStmt p v => rw [Stmt.mapPos, mapPosOption_id v]; rfl
  | throwStmt p e => rw [Stmt.mapPos, e.mapPos_id]; rfl
  | tryStmt p b n h f =>
    rw [Stmt.mapPos, b.mapPos_id, mapPosBlockOption_id h, mapPosBlockOption_id f]; rfl
  | expr p e => rw [Stmt.mapPos, e.mapPos_id]; rfl
  | _ => rfl

theorem mapPosStmtOption_id (o : Option Stmt) : mapPosStmtOption id o = o := by
  cases o with
  | none => rfl
  | some s => rw [mapPosStmtOption, s.mapPos_id]

theorem mapPosStmts_id (ss : List Stmt) : mapPosStmts id ss = ss := by
  cases ss with
  | nil => rfl
  | cons s r => rw [mapPosStmts, s.mapPos_id, mapPosStmts_id r]

end

theorem Program.mapPos_id (p : Program) : p.mapPos id = p := by
  obtain ⟨ss⟩ := p
  rw [mapPos, mapPosStmts_id]

end CoScript
