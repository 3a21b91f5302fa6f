import CoScript.Decimal.Notation
import CoScript.Source.Lexer
import CoScript.Text.Layout
import CoScript.Text.Quoted
import CoScript.Tree.Basic

/-!
# From programs to text

A program is written with one statement to a line and four blanks for each level of nesting. An
operand stands in parentheses when it binds less tightly than its place asks for. Line breaks end
statements, so no semicolons are written.

Results:
* `Program.text`: the text of a program.
* `Expr.textAt`: the text of an expression in a place that asks for a level.
-/

namespace CoScript

open Text

/-! ## Levels -/

/-- The levels of expressions, from loose to tight. -/
def assignmentLevel : Nat := 1

@[inherit_doc assignmentLevel]
def conditionalLevel : Nat := 2

@[inherit_doc assignmentLevel]
def unaryLevel : Nat := 9

@[inherit_doc assignmentLevel]
def postfixLevel : Nat := 10

@[inherit_doc assignmentLevel]
def callLevel : Nat := 11

@[inherit_doc assignmentLevel]
def primaryLevel : Nat := 12

/-- The level of a binary operator, between the conditional and the unary ones. -/
def BinaryOp.level (op : BinaryOp) : Nat :=
  conditionalLevel + op.precedence

/-- How tightly an expression holds together. -/
def Expr.level : Expr → Nat
  | .assign .. | .arrow .. => assignmentLevel
  | .conditional .. => conditionalLevel
  | .binary _ op .. => op.level
  | .unary .. | .await .. => unaryLevel
  | .update _ _ before _ => if before then unaryLevel else postfixLevel
  | .call .. | .member .. | .index .. | .construct .. | .superCall .. => callLevel
  | _ => primaryLevel

/-! ## Small texts -/

/-- Whether a key needs no quotes: a name, which one line break may follow. -/
def isPlainKey (key : String) : Bool :=
  let cs := key.toList
  let cs := if cs.getLast? = some '\n' then cs.dropLast else cs
  match cs with
  | [] => false
  | c :: r => Lexer.isNameStart c && r.all Lexer.isNamePart

/-- The text of a property name. -/
def keyText (key : String) : String :=
  if isPlainKey key then key else quote key

/-- The text of a literal. -/
def Literal.text : Literal → String
  | .number value => Decimal.numberText value
  | .string value => quote value
  | .bool value => if value then "true" else "false"
  | .null => "null"

/-- The text of generic parameters. -/
def genericsText : TypeParams → String
  | none => ""
  | some names => if names.isEmpty then "" else "<" ++ join ", " names ++ ">"

/-- `async` before a function, if it is one. -/
def asyncText (isAsync : Bool) : String :=
  if isAsync then "async " else ""

/-- The name of a function expression after a blank. -/
def functionName : Option String → String
  | none => ""
  | some name => if name.isEmpty then "" else " " ++ name

/-- The texts of statements or members below a line, one level to the right. -/
def belowText (items : List String) : String :=
  String.join (items.map fun t => "\n" ++ indent t)

/-- The texts of statements or members between braces. -/
def bracedText (items : List String) : String :=
  if items.isEmpty then "\x7b\x7d"
  else "\x7b" ++ belowText items ++ "\n\x7d"

/-- A unary operator before its operand; a blank keeps it from joining an operator there. -/
def unaryText (op : UnaryOp) (operand : String) : String :=
  if op = .discard || startsWith operand op.text then op.text ++ " " ++ operand
  else op.text ++ operand

/-- Whether an expression statement needs parentheses, since its text would start another statement
    or continue the line before. -/
def needsStatementParens (text : String) : Bool :=
  startsWith text "\x7b" || startsWith text "function" || startsWith text "async function"
    || (startsWith text "-" && !startsWith text "--")
    || (startsWith text "+" && !startsWith text "++")

/-- The text before a handler, with the name that it binds. -/
def catchText : Option String → String
  | none => " catch"
  | some name => " catch (" ++ name ++ ")"

/-- A name of an import between braces. -/
def ImportBinding.text (b : ImportBinding) : String :=
  if b.localName = b.name then b.name else b.name ++ " as " ++ b.localName

/-- What an import binds, before its `from`. -/
def bindingsText (bindings : List ImportBinding) : String :=
  let named := "\x7b " ++ join ", " (bindings.map (·.text)) ++ " \x7d"
  match bindings with
  | [b] =>
    if b.name = "*" then "* as " ++ b.localName
    else if b.name = "default" then b.localName
    else named
  | _ => named

/-- The text of an import. -/
def ImportDecl.text (d : ImportDecl) : String :=
  if d.bindings.isEmpty then "import " ++ quote d.specifier
  else "import " ++ bindingsText d.bindings ++ " from " ++ quote d.specifier

/-- The text of an interface. -/
def InterfaceDecl.text (d : InterfaceDecl) : String :=
  let bases := if d.bases.isEmpty then "" else " extends " ++ join ", " d.bases
  "interface " ++ d.name ++ genericsText d.typeParams ++ bases ++ " "
    ++ bracedText (d.members.map (· ++ "()"))

/-- The expression that a chain of members starts from. -/
def Expr.base : Expr → Expr
  | .member _ e _ => e.base
  | e => e

/-- Whether a class after `new` needs parentheses: unless it is a chain of members of a name or of
    `this`, a call in it would take the arguments. -/
def Expr.needsNewParens (e : Expr) : Bool :=
  match e.base with
  | .name .. | .this .. => false
  | _ => true

/-- Whether an object before a member needs parentheses. -/
def Expr.needsObjectParens : Expr → Bool
  | .literal _ (.number _) => true
  | e => e.level < callLevel

/-! ## Expressions and statements -/

/-- Whether a statement is a block. -/
def Stmt.isBlock : Stmt → Bool
  | .block _ => true
  | _ => false

/-- The text of a statement that a header governs: a block on its line, any other below it. -/
def governed (header : String) (isBlock : Bool) (text : String) : String :=
  if isBlock then header ++ " " ++ text else header ++ "\n" ++ indent text

/-- Whether a statement is a conditional. -/
def Stmt.isBranch : Stmt → Bool
  | .branch .. => true
  | _ => false

/-- Whether an expression is an object literal. -/
def Expr.isObject : Expr → Bool
  | .object .. => true
  | _ => false

mutual

/-- The text of an expression. -/
def Expr.text : Expr → String
  | .literal _ value => value.text
  | .name _ ident => ident
  | .this _ => "this"
  | .array _ elements => "[" ++ join ", " (argTexts elements) ++ "]"
  | .object _ properties => braces (join ", " (propertyTexts properties))
  | .binary _ op left right =>
    parens (left.level < op.level) left.text ++ " " ++ op.text ++ " "
      ++ parens (right.level < op.level + 1) right.text
  | .unary _ op operand => unaryText op (parens (operand.level < unaryLevel) operand.text)
  | .update _ op before target =>
    let t := parens (target.level < callLevel) target.text
    if before then op.text ++ t else t ++ op.text
  | .assign _ op target value =>
    parens (target.level < callLevel) target.text ++ " " ++ op.text ++ " "
      ++ parens (value.level < assignmentLevel) value.text
  | .conditional _ condition thenValue elseValue =>
    parens (condition.level < conditionalLevel + 1) condition.text ++ " ? "
      ++ parens (thenValue.level < assignmentLevel) thenValue.text ++ " : "
      ++ parens (elseValue.level < assignmentLevel) elseValue.text
  | .call _ callee args =>
    parens (callee.level < callLevel) callee.text ++ "(" ++ join ", " (argTexts args) ++ ")"
  | .member _ object attr => parens object.needsObjectParens object.text ++ "." ++ attr
  | .index _ object key => parens object.needsObjectParens object.text ++ "[" ++ key.text ++ "]"
  | .construct _ cls args =>
    "new " ++ parens cls.needsNewParens cls.text ++ "(" ++ join ", " (argTexts args) ++ ")"
  | .superCall _ args => "super(" ++ join ", " (argTexts args) ++ ")"
  | .await _ value => "await " ++ parens (value.level < unaryLevel) value.text
  | .arrow _ params body isAsync =>
    asyncText isAsync ++ "(" ++ join ", " (paramTexts params) ++ ") => " ++ body.text
  | .function _ name params body isAsync generics =>
    asyncText isAsync ++ "function" ++ functionName name ++ genericsText generics ++ "("
      ++ join ", " (paramTexts params) ++ ") " ++ body.text

/-- The texts of arguments or elements. -/
def argTexts : List Expr → List String
  | [] => []
  | e :: r => parens (e.level < assignmentLevel) e.text :: argTexts r

/-- The text of a property. -/
def Property.text : Property → String
  | ⟨key, value, shorthand⟩ =>
    if shorthand then key
    else keyText key ++ ": " ++ parens (value.level < assignmentLevel) value.text

/-- The texts of properties. -/
def propertyTexts : List Property → List String
  | [] => []
  | p :: r => p.text :: propertyTexts r

/-- The text of a parameter. -/
def Param.text : Param → String
  | ⟨name, none⟩ => name
  | ⟨name, some value⟩ => name ++ " = " ++ parens (value.level < assignmentLevel) value.text

/-- The texts of parameters. -/
def paramTexts : List Param → List String
  | [] => []
  | p :: r => p.text :: paramTexts r

/-- The text of what an arrow function does. -/
def FunctionBody.text : FunctionBody → String
  | .block body => body.text
  | .expr value => parens (value.level < assignmentLevel || value.isObject) value.text

/-- The text of a block. -/
def Block.text : Block → String
  | ⟨_, statements⟩ => bracedText (stmtTexts statements)

/-- The text of a variable declaration. -/
def VarDecl.text : VarDecl → String
  | ⟨_, kind, name, none⟩ => kind.text ++ " " ++ name
  | ⟨_, kind, name, some value⟩ =>
    kind.text ++ " " ++ name ++ " = " ++ parens (value.level < assignmentLevel) value.text

/-- The text of a named function, with a word before its name. -/
def FunctionDecl.textAfter (word : String) : FunctionDecl → String
  | ⟨_, name, params, body, isAsync, generics⟩ =>
    asyncText isAsync ++ word ++ name ++ genericsText generics ++ "("
      ++ join ", " (paramTexts params) ++ ") " ++ body.text

/-- The text of a field. -/
def FieldDecl.text : FieldDecl → String
  | ⟨_, name, none⟩ => keyText name
  | ⟨_, name, some value⟩ =>
    keyText name ++ " = " ++ parens (value.level < assignmentLevel) value.text

/-- The texts of fields. -/
def fieldTexts : List FieldDecl → List String
  | [] => []
  | f :: r => f.text :: fieldTexts r

/-- The texts of methods. -/
def methodTexts : List FunctionDecl → List String
  | [] => []
  | m :: r => m.textAfter "" :: methodTexts r

/-- The text of a class; its fields come first. -/
def ClassDecl.text : ClassDecl → String
  | ⟨_, name, base, interfaces, fields, methods, generics⟩ =>
    let base := match base with
      | none => ""
      | some b => " extends " ++ b
    let interfaces := if interfaces.isEmpty then "" else " implements " ++ join ", " interfaces
    "class " ++ name ++ genericsText generics ++ base ++ interfaces ++ " "
      ++ bracedText (fieldTexts fields ++ methodTexts methods)

/-- The text of what a `for` loop does first. -/
def ForInit.text : ForInit → String
  | .declare decl => decl.text
  | .expr _ value => value.text

/-- The text of a part of a loop head after a blank, if it is there. -/
def optionText : Option Expr → String
  | none => ""
  | some e => " " ++ e.text

/-- The text of a clause of a switch. -/
def SwitchCase.text : SwitchCase → String
  | ⟨_, none, body⟩ => "default:" ++ belowText (stmtTexts body)
  | ⟨_, some test, body⟩ => "case " ++ test.text ++ ":" ++ belowText (stmtTexts body)

/-- The texts of clauses. -/
def caseTexts : List SwitchCase → List String
  | [] => []
  | c :: r => c.text :: caseTexts r

/-- The text of a further part of a statement after a word, if it is there. -/
def clauseText (word : String) : Option Block → String
  | none => ""
  | some body => word ++ " " ++ body.text

/-- The text of the other branch, if there is one. -/
def elseText (separator : String) : Option Stmt → String
  | none => ""
  | some s =>
    separator ++ (if s.isBranch then "else " ++ s.text else governed "else" s.isBlock s.text)

/-- The text of what a `for` loop does first, if anything. -/
def initText : Option ForInit → String
  | none => ""
  | some init => init.text

/-- The text of a statement. -/
def Stmt.text : Stmt → String
  | .block body => body.text
  | .varDecl decl => decl.text
  | .functionDecl decl => decl.textAfter "function "
  | .classDecl decl => decl.text
  | .interfaceDecl decl => decl.text
  | .typeAlias _ name generics => "type " ++ name ++ genericsText generics ++ " = any"
  | .importDecl decl => decl.text
  | .branch _ condition thenBranch elseBranch =>
    governed ("if (" ++ condition.text ++ ")") thenBranch.isBlock thenBranch.text
      ++ elseText (if thenBranch.isBlock then " " else "\n") elseBranch
  | .forLoop _ init condition update body =>
    governed ("for (" ++ initText init ++ ";" ++ optionText condition ++ ";" ++ optionText update
      ++ ")") body.isBlock body.text
  | .forOf _ kind name iterable body =>
    governed ("for (" ++ kind.text ++ " " ++ name ++ " of " ++ iterable.text ++ ")")
      body.isBlock body.text
  | .whileLoop _ condition body =>
    governed ("while (" ++ condition.text ++ ")") body.isBlock body.text
  | .switchStmt _ discriminant cases =>
    "switch (" ++ discriminant.text ++ ") \x7b" ++ belowText (caseTexts cases) ++ "\n\x7d"
  | .breakStmt _ => "break"
  | .continueStmt _ => "continue"
  | .returnStmt _ value => "return" ++ optionText value
  | .throwStmt _ value => "throw " ++ value.text
  | .tryStmt _ body name handler finalizer =>
    "try " ++ body.text ++ clauseText (catchText name) handler ++ clauseText " finally" finalizer
  | .expr _ value => parens (needsStatementParens value.text) value.text

/-- The texts of statements. -/
def stmtTexts : List Stmt → List String
  | [] => []
  | s :: r => s.text :: stmtTexts r

end

/-- The text of an expression in a place that asks for a level. -/
def Expr.textAt (e : Expr) (level : Nat) : String :=
  parens (e.level < level) e.text

/-- The text of a program: its statements, each with the end of its last line. -/
def Program.text (p : Program) : String :=
  String.join ((stmtTexts p.statements).map (· ++ "\n"))

-- Many proofs ask for these equations at the same time, so they are derived here.
attribute [local simp] Expr.text Stmt.text

end CoScript
