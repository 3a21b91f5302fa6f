import CoScript.Source.Position
import CoScript.Tree.Operator

/-!
# Programs as trees

Expressions and statements after parsing. Types are gone; what is left of them are the names of
generic parameters and of the members of interfaces.
-/

namespace CoScript

/-- A value written in the source. -/
inductive Literal where
  | number (value : Float)
  | string (value : String)
  | bool (value : Bool)
  | null
  deriving Repr

/-- The names of generic parameters, where a list of them is written. -/
abbrev TypeParams := Option (List String)

/-- One name of an import: what the module calls it, and what it is called here if that differs. -/
structure ImportBinding where
  name : String
  localAs : Option String
  deriving Repr, DecidableEq

/-- The name that an import binds. -/
def ImportBinding.localName (b : ImportBinding) : String :=
  b.localAs.getD b.name

/-- An import of a module. -/
structure ImportDecl where
  pos : Position
  specifier : String
  bindings : List ImportBinding
  deriving Repr, DecidableEq

/-- An interface, reduced to names. -/
structure InterfaceDecl where
  pos : Position
  name : String
  bases : List String
  members : List String
  typeParams : TypeParams
  deriving Repr, DecidableEq

mutual

/-- An expression. -/
inductive Expr where
  | literal (pos : Position) (value : Literal)
  | name (pos : Position) (ident : String)
  | this (pos : Position)
  | array (pos : Position) (elements : List Expr)
  | object (pos : Position) (properties : List Property)
  | binary (pos : Position) (op : BinaryOp) (left right : Expr)
  | unary (pos : Position) (op : UnaryOp) (operand : Expr)
  | update (pos : Position) (op : UpdateOp) (before : Bool) (target : Expr)
  | assign (pos : Position) (op : AssignOp) (target value : Expr)
  | conditional (pos : Position) (condition thenValue elseValue : Expr)
  | call (pos : Position) (callee : Expr) (args : List Expr)
  | member (pos : Position) (object : Expr) (attr : String)
  | index (pos : Position) (object key : Expr)
  | construct (pos : Position) (cls : Expr) (args : List Expr)
  | superCall (pos : Position) (args : List Expr)
  | await (pos : Position) (value : Expr)
  | arrow (pos : Position) (params : List Param) (body : FunctionBody) (isAsync : Bool)
  | function (pos : Position) (name : Option String) (params : List Param) (body : Block)
      (isAsync : Bool) (typeParams : TypeParams)

/-- A property of an object literal. -/
structure Property where
  key : String
  value : Expr
  /-- whether the value is the variable of the same name, written once -/
  shorthand : Bool

/-- A parameter with its default value. -/
structure Param where
  name : String
  default : Option Expr

/-- What a function does: run statements or give the value of an expression. -/
inductive FunctionBody where
  | block (body : Block)
  | expr (value : Expr)

/-- Statements between braces. -/
structure Block where
  pos : Position
  statements : List Stmt

/-- The declaration of a variable. -/
structure VarDecl where
  pos : Position
  kind : DeclKind
  name : String
  value : Option Expr

/-- A named function: a declaration or a method of a class. -/
structure FunctionDecl where
  pos : Position
  name : String
  params : List Param
  body : Block
  isAsync : Bool
  typeParams : TypeParams

/-- A field of a class with its initial value. -/
structure FieldDecl where
  pos : Position
  name : String
  value : Option Expr

/-- The declaration of a class. -/
structure ClassDecl where
  pos : Position
  name : String
  superclass : Option String
  interfaces : List String
  fields : List FieldDecl
  methods : List FunctionDecl
  typeParams : TypeParams

/-- What a `for` loop does before its first test. -/
inductive ForInit where
  | declare (decl : VarDecl)
  | expr (pos : Position) (value : Expr)

/-- A clause of a `switch`; the one without a test is the default. -/
structure SwitchCase where
  pos : Position
  test : Option Expr
  body : List Stmt

/-- A statement. -/
inductive Stmt where
  | block (body : Block)
  | varDecl (decl : VarDecl)
  | functionDecl (decl : FunctionDecl)
  | classDecl (decl : ClassDecl)
  | interfaceDecl (decl : InterfaceDecl)
  | typeAlias (pos : Position) (name : String) (typeParams : TypeParams)
  | importDecl (decl : ImportDecl)
  | branch (pos : Position) (condition : Expr) (thenBranch : Stmt) (elseBranch : Option Stmt)
  | forLoop (pos : Position) (init : Option ForInit) (condition update : Option Expr) (body : Stmt)
  | forOf (pos : Position) (kind : DeclKind) (name : String) (iterable : Expr) (body : Stmt)
  | whileLoop (pos : Position) (condition : Expr) (body : Stmt)
  | switchStmt (pos : Position) (discriminant : Expr) (cases : List SwitchCase)
  | breakStmt (pos : Position)
  | continueStmt (pos : Position)
  | returnStmt (pos : Position) (value : Option Expr)
  | throwStmt (pos : Position) (value : Expr)
  | tryStmt (pos : Position) (body : Block) (catchName : Option String) (handler : Option Block)
      (finalizer : Option Block)
  | expr (pos : Position) (value : Expr)

end

/-- A program: its statements in order. -/
structure Program where
  statements : List Stmt

namespace Expr

/-- The position of an expression. -/
def pos : Expr → Position
  | literal p _ | name p _ | this p | array p _ | object p _ | binary p .. | unary p ..
  | update p .. | assign p .. | conditional p .. | call p .. | member p .. | index p ..
  | construct p .. | superCall p _ | await p _ | arrow p .. | function p .. => p

/-- Whether an expression can be assigned to. -/
def isTarget : Expr → Bool
  | name .. | member .. | index .. => true
  | _ => false

end Expr

end CoScript
