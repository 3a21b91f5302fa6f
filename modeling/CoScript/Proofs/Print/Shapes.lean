import CoScript.Tree.Printer

/-!
# Programs as lexemes

The printer writes characters and the parser reads tokens. Between the two stand the lexemes that a
program is written with, each with the knowledge whether a line break stands before it. They are
listed here construct by construct, in the order in which the printer writes them.

Results:
* `Program.shapes`: the lexemes of the text of a program.
-/

namespace CoScript

open Text

/-- A token without its position. -/
structure Shape where
  lexeme : Lexeme
  afterBreak : Bool

/-- A token without its position. -/
def Token.shape (t : Token) : Shape :=
  ⟨t.lexeme, t.afterBreak⟩

namespace Shape

/-- A mark on the line of the lexeme before it. -/
def mark (m : Mark) : Shape :=
  ⟨.mark m, false⟩

@[simp] theorem mark_lexeme (m : Mark) : (mark m).lexeme = .mark m := rfl

@[simp] theorem mark_afterBreak (m : Mark) : (mark m).afterBreak = false := rfl

/-- A keyword on the line of the lexeme before it. -/
def keyword (k : Keyword) : Shape :=
  ⟨.keyword k, false⟩

/-- A word on the line of the lexeme before it. -/
def word (s : String) : Shape :=
  ⟨Lexer.wordLexeme s.toList, false⟩

/-- Groups of shapes with a mark between them. -/
def separated (m : Mark) : List (List Shape) → List Shape
  | [] => []
  | [l] => l
  | l :: r => l ++ mark m :: separated m r

/-- Groups of shapes with commas between them. -/
def commas (items : List (List Shape)) : List Shape :=
  separated .comma items

/-- Shapes in parentheses, if they are needed. -/
def parens (needed : Bool) (l : Bool → List Shape) (b : Bool) : List Shape :=
  if needed then ⟨.mark .openParen, b⟩ :: l false ++ [mark .closeParen] else l b

/-- The shapes of statements or members between braces, each on a line of its own. -/
def braced (items : List (List Shape)) (b : Bool) : List Shape :=
  ⟨.mark .openBrace, b⟩ :: items.flatten ++ [⟨.mark .closeBrace, !items.isEmpty⟩]

/-- A lexeme that `async` may stand before. -/
def afterAsync (isAsync : Bool) (x : Lexeme) (b : Bool) : List Shape :=
  if isAsync then [⟨.keyword .asyncWord, b⟩, ⟨x, false⟩] else [⟨x, b⟩]

/-- The shapes of generic parameters. -/
def generics : TypeParams → List Shape
  | none => []
  | some names =>
    if names.isEmpty then []
    else mark .less :: commas (names.map fun n => [word n]) ++ [mark .greater]

/-- The shapes of a name whose parts have points between them. -/
def dotted (name : String) : List Shape :=
  separated .dot ((name.toList.splitOn '.').map fun w => [word (String.ofList w)])

end Shape

open Shape

/-- The lexeme of a literal. -/
def Literal.lexeme : Literal → Lexeme
  | .number value => .number value
  | .string value => .string value
  | .bool value => .keyword (if value then .trueWord else .falseWord)
  | .null => .keyword .nullWord

/-- The lexeme of a unary operator. -/
def UnaryOp.lexeme : UnaryOp → Lexeme
  | .not => .mark .bang
  | .negate => .mark .minus
  | .plus => .mark .plus
  | .discard => .keyword .voidWord

/-- The keyword of a declaration. -/
def DeclKind.keyword : DeclKind → Keyword
  | .constant => .constWord
  | .block => .letWord
  | .function => .varWord

/-- The shape of a property name. -/
def keyShape (key : String) : Shape :=
  if isPlainKey key then word key else ⟨.string key, false⟩

/-- The shapes of the name of a function expression. -/
def functionNameShapes : Option String → List Shape
  | none => []
  | some name => if name.isEmpty then [] else [word name]

/-- The shapes of a name of an import between braces. -/
def ImportBinding.shapes (b : ImportBinding) : List Shape :=
  if b.localName = b.name then [word b.name]
  else [word b.name, Shape.keyword .asWord, word b.localName]

/-- The shapes of what an import binds. -/
def bindingsShapes (bindings : List ImportBinding) : List Shape :=
  let named :=
    mark .openBrace :: commas (bindings.map ImportBinding.shapes) ++ [mark .closeBrace]
  match bindings with
  | [b] =>
    if b.name = "*" then [mark .star, Shape.keyword .asWord, word b.localName]
    else if b.name = "default" then [word b.localName]
    else named
  | _ => named

/-- The shapes of an import. -/
def ImportDecl.shapes (d : ImportDecl) (b : Bool) : List Shape :=
  if d.bindings.isEmpty then [⟨.keyword .importWord, b⟩, ⟨.string d.specifier, false⟩]
  else ⟨.keyword .importWord, b⟩ :: bindingsShapes d.bindings
    ++ [Shape.keyword .fromWord, ⟨.string d.specifier, false⟩]

/-- The shapes of a member of an interface, at the start of a line. -/
def memberShapes (name : String) : List Shape :=
  [⟨Lexer.wordLexeme name.toList, true⟩, mark .openParen, mark .closeParen]

/-- The shapes of names of types after a keyword, if there are any. -/
def typeRefsShapes (k : Keyword) (names : List String) : List Shape :=
  if names.isEmpty then [] else Shape.keyword k :: commas (names.map dotted)

/-- The shapes of the class that a class extends. -/
def superclassShapes : Option String → List Shape
  | none => []
  | some name => [Shape.keyword .extendsWord, word name]

/-- The shapes of the name that a handler binds. -/
def catchShapes : Option String → List Shape
  | none => []
  | some name => [mark .openParen, word name, mark .closeParen]

/-- The shapes of an interface. -/
def InterfaceDecl.shapes (d : InterfaceDecl) (b : Bool) : List Shape :=
  ⟨.keyword .interfaceWord, b⟩ :: word d.name :: generics d.typeParams
    ++ typeRefsShapes .extendsWord d.bases ++ braced (d.members.map memberShapes) false

mutual

/-- The shapes of an expression. -/
def Expr.shapes : Expr → Bool → List Shape
  | .literal _ value, b => [⟨value.lexeme, b⟩]
  | .name _ ident, b => [⟨Lexer.wordLexeme ident.toList, b⟩]
  | .this _, b => [⟨.keyword .thisWord, b⟩]
  | .array _ elements, b =>
    ⟨.mark .openBracket, b⟩ :: commas (argShapes elements) ++ [mark .closeBracket]
  | .object _ properties, b =>
    ⟨.mark .openBrace, b⟩ :: commas (propertyShapes properties) ++ [mark .closeBrace]
  | .binary _ op left right, b =>
    parens (left.level < op.level) left.shapes b ++ mark op.mark ::
      parens (right.level < op.level + 1) right.shapes false
  | .unary _ op operand, b =>
    ⟨op.lexeme, b⟩ :: parens (operand.level < unaryLevel) operand.shapes false
  | .update _ op before target, b =>
    if before then ⟨.mark op.mark, b⟩ :: parens (target.level < callLevel) target.shapes false
    else parens (target.level < callLevel) target.shapes b ++ [mark op.mark]
  | .assign _ op target value, b =>
    parens (target.level < callLevel) target.shapes b ++ mark op.mark ::
      parens (value.level < assignmentLevel) value.shapes false
  | .conditional _ condition thenValue elseValue, b =>
    parens (condition.level < conditionalLevel + 1) condition.shapes b ++ mark .question ::
      parens (thenValue.level < assignmentLevel) thenValue.shapes false ++ mark .colon ::
      parens (elseValue.level < assignmentLevel) elseValue.shapes false
  | .call _ callee args, b =>
    parens (callee.level < callLevel) callee.shapes b ++ mark .openParen ::
      commas (argShapes args) ++ [mark .closeParen]
  | .member _ object attr, b =>
    parens object.needsObjectParens object.shapes b ++ [mark .dot, word attr]
  | .index _ object key, b =>
    parens object.needsObjectParens object.shapes b ++ mark .openBracket :: key.shapes false
      ++ [mark .closeBracket]
  | .construct _ cls args, b =>
    ⟨.keyword .newWord, b⟩ :: parens cls.needsNewParens cls.shapes false ++ mark .openParen ::
      commas (argShapes args) ++ [mark .closeParen]
  | .superCall _ args, b =>
    ⟨.keyword .superWord, b⟩ :: mark .openParen :: commas (argShapes args) ++ [mark .closeParen]
  | .await _ value, b =>
    ⟨.keyword .awaitWord, b⟩ :: parens (value.level < unaryLevel) value.shapes false
  | .arrow _ params body isAsync, b =>
    afterAsync isAsync (.mark .openParen) b ++ commas (paramShapes params)
      ++ mark .closeParen :: mark .arrow :: body.shapes
  | .function _ name params body isAsync typeParams, b =>
    afterAsync isAsync (.keyword .functionWord) b ++ functionNameShapes name ++ generics typeParams
      ++ mark .openParen :: commas (paramShapes params) ++ mark .closeParen :: body.shapes false

/-- The shapes of arguments or elements. -/
def argShapes : List Expr → List (List Shape)
  | [] => []
  | e :: r => parens (e.level < assignmentLevel) e.shapes false :: argShapes r

/-- The shapes of a property. -/
def Property.shapes : Property → List Shape
  | ⟨key, value, shorthand⟩ =>
    if shorthand then [word key]
    else keyShape key :: mark .colon :: parens (value.level < assignmentLevel) value.shapes false

/-- The shapes of properties. -/
def propertyShapes : List Property → List (List Shape)
  | [] => []
  | p :: r => p.shapes :: propertyShapes r

/-- The shapes of a parameter. -/
def Param.shapes : Param → List Shape
  | ⟨name, none⟩ => [word name]
  | ⟨name, some value⟩ =>
    word name :: mark .assign :: parens (value.level < assignmentLevel) value.shapes false

/-- The shapes of parameters. -/
def paramShapes : List Param → List (List Shape)
  | [] => []
  | p :: r => p.shapes :: paramShapes r

/-- The shapes of what an arrow function does. -/
def FunctionBody.shapes : FunctionBody → List Shape
  | .block body => body.shapes false
  | .expr value => parens (value.level < assignmentLevel || value.isObject) value.shapes false

/-- The shapes of a block. -/
def Block.shapes : Block → Bool → List Shape
  | ⟨_, statements⟩, b => braced (stmtShapes statements) b

/-- The shapes of a variable declaration. -/
def VarDecl.shapes : VarDecl → Bool → List Shape
  | ⟨_, kind, name, none⟩, b => [⟨.keyword kind.keyword, b⟩, word name]
  | ⟨_, kind, name, some value⟩, b =>
    ⟨.keyword kind.keyword, b⟩ :: word name :: mark .assign ::
      parens (value.level < assignmentLevel) value.shapes false

/-- The shapes of a named function after its name. -/
def FunctionDecl.restShapes : FunctionDecl → List Shape
  | ⟨_, _, params, body, _, typeParams⟩ =>
    generics typeParams ++ mark .openParen :: commas (paramShapes params) ++ mark .closeParen ::
      body.shapes false

/-- The shapes of a field, at the start of a line. -/
def FieldDecl.shapes : FieldDecl → List Shape
  | ⟨_, name, none⟩ => [⟨(keyShape name).lexeme, true⟩]
  | ⟨_, name, some value⟩ =>
    ⟨(keyShape name).lexeme, true⟩ :: mark .assign ::
      parens (value.level < assignmentLevel) value.shapes false

/-- The shapes of fields. -/
def fieldShapes : List FieldDecl → List (List Shape)
  | [] => []
  | f :: r => f.shapes :: fieldShapes r

/-- The shapes of methods, each at the start of a line. -/
def methodShapes : List FunctionDecl → List (List Shape)
  | [] => []
  | m :: r =>
    (afterAsync m.isAsync (Lexer.wordLexeme m.name.toList) true ++ m.restShapes) :: methodShapes r

/-- The shapes of a class. -/
def ClassDecl.shapes : ClassDecl → Bool → List Shape
  | ⟨_, name, base, interfaces, fields, methods, typeParams⟩, b =>
    ⟨.keyword .classWord, b⟩ :: word name :: generics typeParams ++ superclassShapes base
      ++ typeRefsShapes .implementsWord interfaces
      ++ braced (fieldShapes fields ++ methodShapes methods) false

/-- The shapes of what a `for` loop does first. -/
def ForInit.shapes : ForInit → List Shape
  | .declare decl => decl.shapes false
  | .expr _ value => value.shapes false

/-- The shapes of a part that may be left out. -/
def optionShapes : Option Expr → List Shape
  | none => []
  | some e => e.shapes false

/-- The shapes of a clause of a switch, at the start of a line. -/
def SwitchCase.shapes : SwitchCase → List Shape
  | ⟨_, none, body⟩ =>
    ⟨.keyword .defaultWord, true⟩ :: mark .colon :: (stmtShapes body).flatten
  | ⟨_, some test, body⟩ =>
    ⟨.keyword .caseWord, true⟩ :: test.shapes false ++ mark .colon :: (stmtShapes body).flatten

/-- The shapes of clauses. -/
def caseShapes : List SwitchCase → List Shape
  | [] => []
  | c :: r => c.shapes ++ caseShapes r

/-- The shapes of a further part of a statement after a word, if it is there. -/
def clauseShapes (before : List Shape) : Option Block → List Shape
  | none => []
  | some body => before ++ body.shapes false

/-- The shapes of the other branch, if there is one; `b` says whether it starts a line. -/
def elseShapes (b : Bool) : Option Stmt → List Shape
  | none => []
  | some s => ⟨.keyword .elseWord, b⟩ :: s.shapes (!s.isBranch && !s.isBlock)

/-- The shapes of what a `for` loop does first, if anything. -/
def initShapes : Option ForInit → List Shape
  | none => []
  | some init => init.shapes

/-- The shapes of a statement. -/
def Stmt.shapes : Stmt → Bool → List Shape
  | .block body, b => body.shapes b
  | .varDecl decl, b => decl.shapes b
  | .functionDecl decl, b =>
    afterAsync decl.isAsync (.keyword .functionWord) b ++ word decl.name :: decl.restShapes
  | .classDecl decl, b => decl.shapes b
  | .interfaceDecl decl, b => decl.shapes b
  | .typeAlias _ name typeParams, b =>
    ⟨.keyword .typeWord, b⟩ :: word name :: generics typeParams ++ [mark .assign, word "any"]
  | .importDecl decl, b => decl.shapes b
  | .branch _ condition thenBranch elseBranch, b =>
    ⟨.keyword .ifWord, b⟩ :: mark .openParen :: condition.shapes false ++ mark .closeParen ::
      thenBranch.shapes (!thenBranch.isBlock) ++ elseShapes (!thenBranch.isBlock) elseBranch
  | .forLoop _ init condition update body, b =>
    ⟨.keyword .forWord, b⟩ :: mark .openParen :: initShapes init ++ mark .semicolon ::
      optionShapes condition ++ mark .semicolon :: optionShapes update ++ mark .closeParen ::
      body.shapes (!body.isBlock)
  | .forOf _ kind name iterable body, b =>
    ⟨.keyword .forWord, b⟩ :: mark .openParen :: Shape.keyword kind.keyword :: word name ::
      Shape.keyword .ofWord :: iterable.shapes false ++ mark .closeParen ::
      body.shapes (!body.isBlock)
  | .whileLoop _ condition body, b =>
    ⟨.keyword .whileWord, b⟩ :: mark .openParen :: condition.shapes false ++ mark .closeParen ::
      body.shapes (!body.isBlock)
  | .switchStmt _ discriminant cases, b =>
    ⟨.keyword .switchWord, b⟩ :: mark .openParen :: discriminant.shapes false ++
      mark .closeParen :: mark .openBrace :: caseShapes cases ++ [⟨.mark .closeBrace, true⟩]
  | .breakStmt _, b => [⟨.keyword .breakWord, b⟩]
  | .continueStmt _, b => [⟨.keyword .continueWord, b⟩]
  | .returnStmt _ value, b => ⟨.keyword .returnWord, b⟩ :: optionShapes value
  | .throwStmt _ value, b => ⟨.keyword .throwWord, b⟩ :: value.shapes false
  | .tryStmt _ body name handler finalizer, b =>
    ⟨.keyword .tryWord, b⟩ :: body.shapes false
      ++ clauseShapes (Shape.keyword .catchWord :: catchShapes name) handler
      ++ clauseShapes [Shape.keyword .finallyWord] finalizer
  | .expr _ value, b => parens (needsStatementParens value.text) value.shapes b

/-- The shapes of statements, each at the start of a line. -/
def stmtShapes : List Stmt → List (List Shape)
  | [] => []
  | s :: r => s.shapes true :: stmtShapes r

end

/-- The shapes of a program. Nothing stands before its first line. -/
def Program.shapes (p : Program) : List Shape :=
  match p.statements with
  | [] => []
  | s :: r => s.shapes false ++ (stmtShapes r).flatten

-- Many proofs ask for these equations at the same time, so they are derived here.
attribute [local simp] Expr.shapes Stmt.shapes

end CoScript
