import CoScript.Proofs.Parse.Formed
import CoScript.Proofs.Print.Shapes

/-!
# What can be read again

Not all that the printer writes is read as what it was. Some things have no spelling: a number whose
text has an exponent, a function with a name that is none, a default import without a name of its
own. And some spellings are read as something else, depending on what comes after them: a comparison
may look like the type arguments of a call, a call of `async` like the head of an arrow function,
the name `type` like the start of a declaration.

Results:
* `Program.Legible`: nothing of the kind occurs in a program.
-/

namespace CoScript

open Text Shape

/-! ## Readings -/

/-- The first of some shapes; past the last one, the end of the input. -/
def firstOf (l : List Shape) : Shape :=
  l.headD ⟨.endOfInput, true⟩

/-- Whether lexemes start with the type arguments of a call. -/
def ReadsAsTypeArgs (l : List Shape) : Prop :=
  ∃ n c ts x rest, ts.map Token.shape = l ∧
    Grammar.callTypeArgs (Rules.ofDepth n) c ts = .ok x rest

/-- Whether lexemes start with the head of an arrow function. -/
def ReadsAsArrowHead (l : List Shape) : Prop :=
  ∃ n c ts x rest, ts.map Token.shape = l ∧
    Grammar.arrowHead (Rules.ofDepth n) c ts = .ok x rest

/-- What comes after an expression that may stand in parentheses. -/
def closing (needed : Bool) (k : List Shape) : List Shape :=
  if needed then mark .closeParen :: k else k

/-- What comes after an item of a list, where `items` are the others after it. -/
def afterItem (items : List (List Shape)) (k : List Shape) : List Shape :=
  if items.isEmpty then k else mark .comma :: commas items ++ k

/-! ## Small parts -/

/-- The text of a number consists of digits, with a point between them or not, that stand for it. -/
def Decimal.ReadsBack (value : Float) : Prop :=
  ∃ whole part : List Char, whole ≠ [] ∧ whole.all Char.isDigit ∧ part.all Char.isDigit ∧
    (numberText value).toList = (if part.isEmpty then whole else whole ++ '.' :: part) ∧
    ofDecimal whole part = value

/-- A number can be written without an exponent. -/
def Literal.Legible : Literal → Prop
  | .number value => Decimal.ReadsBack value
  | _ => True

/-- A property name that is written without quotes is a word. -/
def LegibleKey (key : String) : Prop :=
  isPlainKey key → isWord key

/-- A default import has a name of its own, unless other names stand beside it. -/
def ImportDecl.Legible (d : ImportDecl) : Prop :=
  ∀ b, d.bindings = [b] → b.name = "default" → b.localAs.isSome

/-- The members of an interface are words. -/
def InterfaceDecl.Legible (d : InterfaceDecl) : Prop :=
  ∀ m ∈ d.members, isWord m

/-- Whether the text of an expression ends with a name or a member, which could be called with type
    arguments. -/
def Expr.endsInName : Expr → Bool
  | .name .. | .member .. => true
  | .unary _ _ operand => !(operand.level < unaryLevel) && operand.endsInName
  | .await _ value => !(value.level < unaryLevel) && value.endsInName
  | .update _ _ before target => before && target.endsInName
  | .binary _ op _ right => !(right.level < op.level + 1) && right.endsInName
  | _ => false

/-- A comparison after a name is not read as type arguments. -/
def Expr.NameLegible (e : Expr) (k : List Shape) : Prop :=
  (firstOf k).lexeme = .mark .less → e.endsInName → ¬ ReadsAsTypeArgs k

/-- A call of `async` before a colon is not read as the head of an arrow function. -/
def Expr.HeadLegible (e : Expr) (k : List Shape) : Prop :=
  ∀ p q args, e = .call p (.name q "async") args → (firstOf k).lexeme = .mark .colon →
    ¬ ReadsAsArrowHead (mark .openParen :: commas (argShapes args) ++ mark .closeParen :: k)

/-! ## Trees -/

mutual

/-- What is written for an expression is read as the expression, where `k` comes after it. -/
def Expr.Legible : Expr → List Shape → Prop
  | .literal _ value, _ => value.Legible
  | .name .., _ | .this _, _ => True
  | .array _ elements, k => ExprsLegible elements (mark .closeBracket :: k)
  | .object _ properties, k => PropertiesLegible properties (mark .closeBrace :: k)
  | .binary _ op left right, k =>
    let rest := mark op.mark :: parens (right.level < op.level + 1) right.shapes false ++ k
    left.Legible (closing (left.level < op.level) rest) ∧
      (¬ left.level < op.level → left.NameLegible rest) ∧
      right.Legible (closing (right.level < op.level + 1) k)
  | .unary _ _ operand, k => operand.Legible (closing (operand.level < unaryLevel) k)
  | .update _ op before target, k => target.Legible (if before then k else mark op.mark :: k)
  | .assign _ op target value, k =>
    target.Legible (mark op.mark :: value.shapes false ++ k) ∧ value.Legible k ∧
      value.HeadLegible k
  | .conditional _ condition thenValue elseValue, k =>
    condition.Legible (closing (condition.level < conditionalLevel + 1)
        (mark .question :: thenValue.shapes false ++ mark .colon :: elseValue.shapes false ++ k)) ∧
      thenValue.Legible (mark .colon :: elseValue.shapes false ++ k) ∧
      thenValue.HeadLegible (mark .colon :: elseValue.shapes false ++ k) ∧
      elseValue.Legible k ∧ elseValue.HeadLegible k
  | .call _ callee args, k =>
    callee.Legible (closing (callee.level < callLevel)
        (mark .openParen :: commas (argShapes args) ++ mark .closeParen :: k)) ∧
      ExprsLegible args (mark .closeParen :: k)
  | .member _ object attr, k =>
    object.Legible (closing object.needsObjectParens (mark .dot :: word attr :: k))
  | .index _ object key, k =>
    object.Legible (closing object.needsObjectParens
        (mark .openBracket :: key.shapes false ++ mark .closeBracket :: k)) ∧
      key.Legible (mark .closeBracket :: k)
  | .construct _ cls args, k =>
    cls.Legible (closing cls.needsNewParens
        (mark .openParen :: commas (argShapes args) ++ mark .closeParen :: k)) ∧
      ExprsLegible args (mark .closeParen :: k)
  | .superCall _ args, k => ExprsLegible args (mark .closeParen :: k)
  | .await _ value, k => value.Legible (closing (value.level < unaryLevel) k)
  | .arrow _ params body _, k =>
    ParamsLegible params (mark .closeParen :: mark .arrow :: body.shapes ++ k) ∧ body.Legible k
  | .function _ name params body _ _, k =>
    (∀ n ∈ name, isName n) ∧ ParamsLegible params (mark .closeParen :: body.shapes false ++ k) ∧
      body.Legible k

@[inherit_doc Expr.Legible]
def ExprsLegible : List Expr → List Shape → Prop
  | [], _ => True
  | e :: r, k => e.Legible (afterItem (argShapes r) k) ∧ ExprsLegible r k

@[inherit_doc Expr.Legible]
def OptionLegible : Option Expr → List Shape → Prop
  | none, _ => True
  | some e, k => e.Legible k

@[inherit_doc Expr.Legible]
def Property.Legible : Property → List Shape → Prop
  | ⟨key, value, _⟩, k => LegibleKey key ∧ value.Legible k

@[inherit_doc Expr.Legible]
def PropertiesLegible : List Property → List Shape → Prop
  | [], _ => True
  | p :: r, k => p.Legible (afterItem (propertyShapes r) k) ∧ PropertiesLegible r k

@[inherit_doc Expr.Legible]
def Param.Legible : Param → List Shape → Prop
  | ⟨_, default⟩, k => OptionLegible default k

@[inherit_doc Expr.Legible]
def ParamsLegible : List Param → List Shape → Prop
  | [], _ => True
  | p :: r, k => p.Legible (afterItem (paramShapes r) k) ∧ ParamsLegible r k

/-- The same for what an arrow function does: its value does not start with a brace, unless it is an
    object literal, which stands in parentheses. -/
def FunctionBody.Legible : FunctionBody → List Shape → Prop
  | .block body, k => body.Legible k
  | .expr value, k =>
    value.Legible (closing value.isObject k) ∧ value.HeadLegible k ∧
      (value.isObject ∨ (firstOf (value.shapes false)).lexeme ≠ .mark .openBrace)

@[inherit_doc Expr.Legible]
def Block.Legible : Block → List Shape → Prop
  | ⟨_, statements⟩, k => StmtsLegible statements (⟨.mark .closeBrace, true⟩ :: k)

@[inherit_doc Expr.Legible]
def VarDecl.Legible : VarDecl → List Shape → Prop
  | ⟨_, _, _, value⟩, k => OptionLegible value k

@[inherit_doc Expr.Legible]
def FunctionDecl.Legible : FunctionDecl → List Shape → Prop
  | ⟨_, _, params, body, _, _⟩, k =>
    ParamsLegible params (mark .closeParen :: body.shapes false ++ k) ∧ body.Legible k

@[inherit_doc Expr.Legible]
def MethodsLegible : List FunctionDecl → List Shape → Prop
  | [], _ => True
  | m :: r, k => m.Legible ((methodShapes r).flatten ++ k) ∧ MethodsLegible r k

@[inherit_doc Expr.Legible]
def FieldDecl.Legible : FieldDecl → List Shape → Prop
  | ⟨_, _, value⟩, k => OptionLegible value k

@[inherit_doc Expr.Legible]
def FieldsLegible : List FieldDecl → List Shape → Prop
  | [], _ => True
  | f :: r, k => f.Legible ((fieldShapes r).flatten ++ k) ∧ FieldsLegible r k

@[inherit_doc Expr.Legible]
def ClassDecl.Legible : ClassDecl → List Shape → Prop
  | ⟨_, _, _, _, fields, methods, _⟩, k =>
    FieldsLegible fields ((methodShapes methods).flatten ++ ⟨.mark .closeBrace, true⟩ :: k) ∧
      MethodsLegible methods (⟨.mark .closeBrace, true⟩ :: k)

@[inherit_doc Expr.Legible]
def InitLegible : Option ForInit → List Shape → Prop
  | none, _ => True
  | some (.declare decl), k => decl.Legible k
  | some (.expr _ value), k => value.Legible k

@[inherit_doc Expr.Legible]
def SwitchCase.Legible : SwitchCase → List Shape → Prop
  | ⟨_, none, body⟩, k => StmtsLegible body k
  | ⟨_, some test, body⟩, k =>
    test.Legible (mark .colon :: (stmtShapes body).flatten ++ k) ∧
      test.HeadLegible (mark .colon :: (stmtShapes body).flatten ++ k) ∧ StmtsLegible body k

@[inherit_doc Expr.Legible]
def CasesLegible : List SwitchCase → List Shape → Prop
  | [], _ => True
  | c :: r, k => c.Legible (caseShapes r ++ k) ∧ CasesLegible r k

@[inherit_doc Expr.Legible]
def BlockOptionLegible : Option Block → List Shape → Prop
  | none, _ => True
  | some b, k => b.Legible k

/-- What is written for a statement is read as the statement, where `k` comes after it. -/
def Stmt.Legible : Stmt → List Shape → Prop
  | .block body, k => body.Legible k
  | .varDecl decl, k => decl.Legible k
  | .functionDecl decl, k => decl.Legible k
  | .classDecl decl, k => decl.Legible k
  | .interfaceDecl decl, _ => decl.Legible
  | .importDecl decl, _ => decl.Legible
  | .branch _ condition thenBranch elseBranch, k =>
    let rest := elseShapes (!thenBranch.isBlock) elseBranch ++ k
    condition.Legible (mark .closeParen :: thenBranch.shapes (!thenBranch.isBlock) ++ rest) ∧
      thenBranch.Legible rest ∧ StmtOptionLegible elseBranch k
  | .forLoop _ init condition update body, k =>
    let rest := mark .closeParen :: body.shapes (!body.isBlock) ++ k
    InitLegible init
        (mark .semicolon :: optionShapes condition ++ mark .semicolon ::
          optionShapes update ++ rest) ∧
      OptionLegible condition (mark .semicolon :: optionShapes update ++ rest) ∧
      OptionLegible update rest ∧ body.Legible k
  | .forOf _ _ _ iterable body, k =>
    iterable.Legible (mark .closeParen :: body.shapes (!body.isBlock) ++ k) ∧ body.Legible k
  | .whileLoop _ condition body, k =>
    condition.Legible (mark .closeParen :: body.shapes (!body.isBlock) ++ k) ∧ body.Legible k
  | .switchStmt _ discriminant cases, k =>
    discriminant.Legible (mark .closeParen :: mark .openBrace :: caseShapes cases
        ++ ⟨.mark .closeBrace, true⟩ :: k) ∧
      CasesLegible cases (⟨.mark .closeBrace, true⟩ :: k)
  | .returnStmt _ value, k => OptionLegible value k
  | .throwStmt _ value, k => value.Legible k
  | .tryStmt _ body name handler finalizer, k =>
    let rest := clauseShapes [Shape.keyword .finallyWord] finalizer ++ k
    body.Legible (clauseShapes (Shape.keyword .catchWord :: catchShapes name) handler ++ rest) ∧
      BlockOptionLegible handler rest ∧ BlockOptionLegible finalizer k
  | .expr _ value, k =>
    value.Legible (closing (needsStatementParens value.text) k) ∧
      -- the name `type` and a name after it would start the declaration of a type
      (∀ p, value = .name p "type" → (firstOf k).lexeme.name? = none)
  | .typeAlias .., _ | .breakStmt _, _ | .continueStmt _, _ => True

@[inherit_doc Stmt.Legible]
def StmtOptionLegible : Option Stmt → List Shape → Prop
  | none, _ => True
  | some s, k => s.Legible k

@[inherit_doc Stmt.Legible]
def StmtsLegible : List Stmt → List Shape → Prop
  | [], _ => True
  | s :: r, k => s.Legible ((stmtShapes r).flatten ++ k) ∧ StmtsLegible r k

end

/-- What is written for a program is read as the program. -/
def Program.Legible (p : Program) : Prop :=
  StmtsLegible p.statements []

-- Many proofs ask for these equations at the same time, so they are derived here.
attribute [local simp] Expr.Legible Stmt.Legible Expr.endsInName

end CoScript
