import CoScript.Tree.Parser
import Mathlib.Data.List.Nodup

/-!
# What the parser promises about a tree

Not every tree can be the result of the parser: names are names, targets can be assigned to, a
`return` stands in a function, an `else` belongs to the nearest `if`. The parser checks these things
where it reads, in the surroundings that its context describes.

Results:
* `Site`: what surrounds a place.
* `Stmt.Formed`, `Expr.Formed`: what holds of the trees that the parser gives.
-/

namespace CoScript

/-! ## Names -/

/-- Whether a text is a word: the characters of a name, be it a keyword or not. -/
def isWord (s : String) : Bool :=
  s.toList.head?.any Lexer.isNameStart && s.toList.all Lexer.isNamePart

/-- Whether a text is a name where a name is expected. -/
def isName (s : String) : Bool :=
  isWord s && (Lexer.wordLexeme s.toList).name?.isSome

theorem isWord_of_isName {s : String} (h : isName s) : isWord s := by
  unfold isName at h
  rw [Bool.and_eq_true] at h
  exact h.1

/-- Whether a text is one name or several with points between them. -/
def isDotted (s : String) : Bool :=
  (s.toList.splitOn '.').all fun w => isName (String.ofList w)

/-! ## Surroundings -/

/-- What surrounds a place in a program. -/
structure Site where
  inFunction : Bool
  inAsync : Bool
  inLoop : Bool
  inSwitch : Bool
  inBlock : Bool

namespace Site

/-- Outside of everything. -/
def topLevel : Site := ⟨false, false, false, false, false⟩

/-- Inside a function: its loops and switches start anew. -/
def enterFunction (isAsync : Bool) (s : Site) : Site :=
  { s with inFunction := true, inAsync := isAsync, inLoop := false, inSwitch := false }

/-- Inside a loop. -/
def enterLoop (s : Site) : Site :=
  { s with inLoop := true }

/-- Inside a block. -/
def enterBlock (s : Site) : Site :=
  { s with inBlock := true }

/-- Inside a switch. -/
def enterSwitch (s : Site) : Site :=
  { s with inSwitch := true, inBlock := true }

end Site

/-- The surroundings that a context describes. -/
def Context.site (c : Context) : Site :=
  ⟨c.inFunction, c.inAsync, c.inLoop, c.inSwitch, c.inBlock⟩

@[simp] theorem Context.site_topLevel (ending : Ending) :
    (Context.topLevel ending).site = .topLevel := rfl

@[simp] theorem Context.site_enterFunction (isAsync : Bool) (c : Context) :
    (c.enterFunction isAsync).site = c.site.enterFunction isAsync := rfl

@[simp] theorem Context.site_enterLoop (c : Context) : c.enterLoop.site = c.site.enterLoop := rfl

@[simp] theorem Context.site_enterBlock (c : Context) : c.enterBlock.site = c.site.enterBlock := rfl

@[simp] theorem Context.site_enterSwitch (c : Context) :
    c.enterSwitch.site = c.site.enterSwitch := rfl

/-! ## Trees -/

/-- A number is written with digits before a point, and maybe after it. -/
def Literal.Formed : Literal → Prop
  | .number value => ∃ whole part : List Char, whole ≠ [] ∧ whole.all Char.isDigit ∧
      part.all Char.isDigit ∧ value = Decimal.ofDecimal whole part
  | _ => True

/-- A list of generic parameters has different names, and at least one. -/
def TypeParams.Formed (generics : TypeParams) : Prop :=
  ∀ names ∈ generics, names ≠ [] ∧ names.Nodup ∧ ∀ n ∈ names, isName n

/-- An import binds a whole module, or words of it under names. -/
def ImportDecl.Formed (d : ImportDecl) : Prop :=
  (∃ name, isName name ∧ d.bindings = [⟨"*", some name⟩]) ∨
    ∀ b ∈ d.bindings, isWord b.name ∧ ∀ l ∈ b.localAs, isName l

/-- The names in the head of an interface are names. -/
def InterfaceDecl.Formed (d : InterfaceDecl) : Prop :=
  isName d.name ∧ d.typeParams.Formed ∧ ∀ b ∈ d.bases, isDotted b

/-- Whether a statement ends with a conditional that has no other branch, so that an `else` after it
    would belong to that one. -/
def Stmt.dangles : Stmt → Bool
  | .branch _ _ _ none => true
  | .branch _ _ _ (some s) => s.dangles
  | .forLoop _ _ _ _ body | .forOf _ _ _ _ body | .whileLoop _ _ body => body.dangles
  | _ => false

mutual

/-- What the parser promises about an expression. -/
def Expr.Formed : Expr → Site → Prop
  | .literal _ value, _ => value.Formed
  | .name _ ident, _ => isName ident
  | .this _, _ => True
  | .array _ elements, s => ExprsFormed elements s
  | .object _ properties, s => PropertiesFormed properties s
  | .binary _ _ left right, s => left.Formed s ∧ right.Formed s
  | .unary _ _ operand, s => operand.Formed s
  | .update _ _ _ target, s => target.isTarget ∧ target.Formed s
  | .assign _ _ target value, s => target.isTarget ∧ target.Formed s ∧ value.Formed s
  | .conditional _ condition thenValue elseValue, s =>
    condition.Formed s ∧ thenValue.Formed s ∧ elseValue.Formed s
  | .call _ callee args, s => callee.Formed s ∧ ExprsFormed args s
  | .member _ object attr, s => object.Formed s ∧ isWord attr
  | .index _ object key, s => object.Formed s ∧ key.Formed s
  | .construct _ cls args, s => cls.Formed s ∧ ExprsFormed args s
  | .superCall _ args, s => s.inFunction ∧ ExprsFormed args s
  | .await _ value, s => (s.inFunction → s.inAsync) ∧ value.Formed s
  | .arrow _ params body isAsync, s =>
    ParamsFormed params s ∧ body.Formed (s.enterFunction isAsync)
  | .function _ _ params body isAsync generics, s =>
    generics.Formed ∧ ParamsFormed params s ∧ body.Formed (s.enterFunction isAsync)

@[inherit_doc Expr.Formed]
def ExprsFormed : List Expr → Site → Prop
  | [], _ => True
  | e :: r, s => e.Formed s ∧ ExprsFormed r s

@[inherit_doc Expr.Formed]
def OptionFormed : Option Expr → Site → Prop
  | none, _ => True
  | some e, s => e.Formed s

/-- What the parser promises about a property: the value of a shorthand is the variable. -/
def Property.Formed : Property → Site → Prop
  | ⟨key, value, shorthand⟩, s =>
    value.Formed s ∧ (shorthand → ∃ pos, value = .name pos key)

@[inherit_doc Property.Formed]
def PropertiesFormed : List Property → Site → Prop
  | [], _ => True
  | p :: r, s => p.Formed s ∧ PropertiesFormed r s

@[inherit_doc Expr.Formed]
def Param.Formed : Param → Site → Prop
  | ⟨name, default⟩, s => isName name ∧ OptionFormed default s

@[inherit_doc Expr.Formed]
def ParamsFormed : List Param → Site → Prop
  | [], _ => True
  | p :: r, s => p.Formed s ∧ ParamsFormed r s

@[inherit_doc Expr.Formed]
def FunctionBody.Formed : FunctionBody → Site → Prop
  | .block body, s => body.Formed s
  | .expr value, s => value.Formed s

/-- What the parser promises about a block. -/
def Block.Formed : Block → Site → Prop
  | ⟨_, statements⟩, s => StmtsFormed statements s.enterBlock

@[inherit_doc Block.Formed]
def BlockOptionFormed : Option Block → Site → Prop
  | none, _ => True
  | some b, s => b.Formed s

/-- What the parser promises about a variable: a constant has a value. -/
def VarDecl.Formed : VarDecl → Site → Prop
  | ⟨_, kind, name, value⟩, s =>
    isName name ∧ (kind = .constant → value.isSome) ∧ OptionFormed value s

/-- What the parser promises about a function with a name. -/
def FunctionDecl.Formed : FunctionDecl → Site → Prop
  | ⟨_, name, params, body, isAsync, generics⟩, s =>
    isWord name ∧ generics.Formed ∧ ParamsFormed params s ∧ body.Formed (s.enterFunction isAsync)

@[inherit_doc FunctionDecl.Formed]
def FunctionDeclsFormed : List FunctionDecl → Site → Prop
  | [], _ => True
  | d :: r, s => d.Formed s ∧ FunctionDeclsFormed r s

/-- What the parser promises about a field. -/
def FieldDecl.Formed : FieldDecl → Site → Prop
  | ⟨_, name, value⟩, s => isWord name ∧ OptionFormed value s

@[inherit_doc FieldDecl.Formed]
def FieldsFormed : List FieldDecl → Site → Prop
  | [], _ => True
  | f :: r, s => f.Formed s ∧ FieldsFormed r s

/-- What the parser promises about a class. -/
def ClassDecl.Formed : ClassDecl → Site → Prop
  | ⟨_, name, base, interfaces, fields, methods, generics⟩, s =>
    isName name ∧ (∀ b ∈ base, isName b) ∧ (∀ i ∈ interfaces, isDotted i) ∧ generics.Formed ∧
      FieldsFormed fields s ∧ FunctionDeclsFormed methods s

/-- What the parser promises about the start of a `for` loop. -/
def ForInit.Formed : ForInit → Site → Prop
  | .declare decl, s => decl.Formed s
  | .expr _ value, s => value.Formed s

@[inherit_doc ForInit.Formed]
def InitFormed : Option ForInit → Site → Prop
  | none, _ => True
  | some i, s => i.Formed s

/-- What the parser promises about a clause of a switch. -/
def SwitchCase.Formed : SwitchCase → Site → Prop
  | ⟨_, test, body⟩, s => OptionFormed test s ∧ StmtsFormed body s

@[inherit_doc SwitchCase.Formed]
def CasesFormed : List SwitchCase → Site → Prop
  | [], _ => True
  | c :: r, s => c.Formed s ∧ CasesFormed r s

/-- What the parser promises about a statement. -/
def Stmt.Formed : Stmt → Site → Prop
  | .block body, s => body.Formed s
  | .varDecl decl, s => decl.Formed s
  | .functionDecl decl, s => isName decl.name ∧ decl.Formed s
  | .classDecl decl, s => decl.Formed s
  | .interfaceDecl decl, _ => decl.Formed
  | .typeAlias _ name generics, _ => isName name ∧ generics.Formed
  | .importDecl decl, s => (!s.inBlock && !s.inFunction) ∧ decl.Formed
  | .branch _ condition thenBranch elseBranch, s =>
    condition.Formed s ∧ thenBranch.Formed s ∧ StmtOptionFormed elseBranch s ∧
      (elseBranch.isSome → thenBranch.dangles = false)
  | .forLoop _ init condition update body, s =>
    InitFormed init s ∧ OptionFormed condition s ∧ OptionFormed update s ∧ body.Formed s.enterLoop
  | .forOf _ _ name iterable body, s =>
    isName name ∧ iterable.Formed s ∧ body.Formed s.enterLoop
  | .whileLoop _ condition body, s => condition.Formed s ∧ body.Formed s.enterLoop
  | .switchStmt _ discriminant cases, s =>
    discriminant.Formed s ∧ CasesFormed cases s.enterSwitch ∧ cases.countP (·.test.isNone) ≤ 1
  | .breakStmt _, s => s.inLoop || s.inSwitch
  | .continueStmt _, s => s.inLoop
  | .returnStmt _ value, s => s.inFunction ∧ OptionFormed value s
  | .throwStmt _ value, s => value.Formed s
  | .tryStmt _ body name handler finalizer, s =>
    body.Formed s ∧ BlockOptionFormed handler s ∧ BlockOptionFormed finalizer s ∧
      (handler.isSome || finalizer.isSome) ∧ (∀ x ∈ name, isName x ∧ handler.isSome)
  | .expr _ value, s => value.Formed s

@[inherit_doc Stmt.Formed]
def StmtOptionFormed : Option Stmt → Site → Prop
  | none, _ => True
  | some t, s => t.Formed s

@[inherit_doc Stmt.Formed]
def StmtsFormed : List Stmt → Site → Prop
  | [], _ => True
  | t :: r, s => t.Formed s ∧ StmtsFormed r s

end

/-! ## Lists -/

section Lists

variable {s : Site}

theorem exprsFormed_iff {es : List Expr} : ExprsFormed es s ↔ ∀ e ∈ es, e.Formed s := by
  induction es with
  | nil => simp [ExprsFormed]
  | cons e r ih => simp [ExprsFormed, ih]

theorem propertiesFormed_iff {ps : List Property} :
    PropertiesFormed ps s ↔ ∀ p ∈ ps, p.Formed s := by
  induction ps with
  | nil => simp [PropertiesFormed]
  | cons p r ih => simp [PropertiesFormed, ih]

theorem paramsFormed_iff {ps : List Param} : ParamsFormed ps s ↔ ∀ p ∈ ps, p.Formed s := by
  induction ps with
  | nil => simp [ParamsFormed]
  | cons p r ih => simp [ParamsFormed, ih]

theorem functionDeclsFormed_iff {ds : List FunctionDecl} :
    FunctionDeclsFormed ds s ↔ ∀ d ∈ ds, d.Formed s := by
  induction ds with
  | nil => simp [FunctionDeclsFormed]
  | cons d r ih => simp [FunctionDeclsFormed, ih]

theorem fieldsFormed_iff {fs : List FieldDecl} : FieldsFormed fs s ↔ ∀ f ∈ fs, f.Formed s := by
  induction fs with
  | nil => simp [FieldsFormed]
  | cons f r ih => simp [FieldsFormed, ih]

theorem casesFormed_iff {cs : List SwitchCase} : CasesFormed cs s ↔ ∀ c ∈ cs, c.Formed s := by
  induction cs with
  | nil => simp [CasesFormed]
  | cons c r ih => simp [CasesFormed, ih]

theorem stmtsFormed_iff {ts : List Stmt} : StmtsFormed ts s ↔ ∀ t ∈ ts, t.Formed s := by
  induction ts with
  | nil => simp [StmtsFormed]
  | cons t r ih => simp [StmtsFormed, ih]

end Lists

-- Many proofs ask for these equations at the same time, so they are derived here.
attribute [local simp] Expr.Formed Stmt.Formed Stmt.dangles

end CoScript
