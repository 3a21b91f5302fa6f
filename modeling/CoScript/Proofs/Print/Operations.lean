import CoScript.Proofs.Print.Written

/-!
# Parentheses and blanks suffice

An operation is built from names, literals without numbers, lists and operators. Whatever operands
an operator is given, the parentheses and blanks of the text keep them apart, so the text is read as
the operation again, also if no source was ever read as it. The comparison `<` is no operation:
before a parenthesis it may be read as the start of type arguments.

Results:
* `Expr.IsOperation`: the expressions that are operations.
* `Expr.IsOperation.legible`: nothing in an operation is read as something else.
* `Expr.IsOperation.parse_text`: the text of an operation is read as the operation.
-/

namespace CoScript

open Shape

/-- An expression of names, literals without numbers, lists and operators other than `<`. It need
    not be the result of reading a text. -/
inductive Expr.IsOperation : Expr → Prop
  | literal (pos : Position) {value : Literal} (hvalue : ∀ v, value ≠ .number v) :
    IsOperation (.literal pos value)
  | name (pos : Position) {ident : String} (hword : isWord ident)
    (hfree : Keyword.ofText? ident = none) : IsOperation (.name pos ident)
  | this (pos : Position) : IsOperation (.this pos)
  | array (pos : Position) {elements : List Expr} (helements : ∀ e ∈ elements, IsOperation e) :
    IsOperation (.array pos elements)
  | unary (pos : Position) (op : UnaryOp) {operand : Expr} (hoperand : IsOperation operand) :
    IsOperation (.unary pos op operand)
  | binary (pos : Position) {op : BinaryOp} {left right : Expr} (hop : op ≠ .less)
    (hleft : IsOperation left) (hright : IsOperation right) :
    IsOperation (.binary pos op left right)
  | conditional (pos : Position) {condition thenValue elseValue : Expr}
    (hcondition : IsOperation condition) (hthen : IsOperation thenValue)
    (helse : IsOperation elseValue) :
    IsOperation (.conditional pos condition thenValue elseValue)
  | assign (pos : Position) (op : AssignOp) {target value : Expr} (htarget : target.isTarget)
    (hplace : IsOperation target) (hvalue : IsOperation value) :
    IsOperation (.assign pos op target value)
  | update (pos : Position) (op : UpdateOp) (before : Bool) {target : Expr}
    (htarget : target.isTarget) (hplace : IsOperation target) :
    IsOperation (.update pos op before target)
  | await (pos : Position) {value : Expr} (hvalue : IsOperation value) :
    IsOperation (.await pos value)
  | call (pos : Position) {callee : Expr} {args : List Expr} (hcallee : IsOperation callee)
    (hargs : ∀ e ∈ args, IsOperation e) : IsOperation (.call pos callee args)
  | member (pos : Position) {object : Expr} {attr : String} (hobject : IsOperation object)
    (hattr : isWord attr) : IsOperation (.member pos object attr)
  | index (pos : Position) {object key : Expr} (hobject : IsOperation object)
    (hkey : IsOperation key) : IsOperation (.index pos object key)
  | construct (pos : Position) {cls : Expr} {args : List Expr} (hcls : IsOperation cls)
    (hargs : ∀ e ∈ args, IsOperation e) : IsOperation (.construct pos cls args)

/-! ## Words -/

/-- A word that is not reserved is the name of a variable. -/
theorem isName_of_free {ident : String} (hword : isWord ident)
    (hfree : Keyword.ofText? ident = none) : isName ident := by
  have hlexeme : Lexer.wordLexeme ident.toList = .identifier ident := by
    simp [Lexer.wordLexeme, hfree]
  rw [isName, hword, hlexeme]
  rfl

theorem ExprsLegible.of_mem {es : List Expr} (h : ∀ e ∈ es, ∀ k, e.Legible k) (k : List Shape) :
    ExprsLegible es k := by
  induction es with
  | nil => trivial
  | cons e r ih =>
    rw [List.forall_mem_cons] at h
    exact ⟨h.1 _, ih h.2⟩

namespace Expr.IsOperation

variable {e : Expr}

/-! ## Operations are read as themselves -/

/-- An operation may stand outside of all functions. -/
theorem formed (h : e.IsOperation) : e.Formed .topLevel := by
  induction h with
  | @literal pos value hvalue =>
    rw [Expr.Formed]
    cases value with
    | number v => exact absurd rfl (hvalue v)
    | _ => trivial
  | name pos hword hfree =>
    rw [Expr.Formed]
    exact isName_of_free hword hfree
  | this => rw [Expr.Formed]; trivial
  | array pos _ ih =>
    rw [Expr.Formed]
    exact exprsFormed_iff.mpr ih
  | unary pos op _ ih => rwa [Expr.Formed]
  | binary pos _ _ _ ihleft ihright =>
    rw [Expr.Formed]
    exact ⟨ihleft, ihright⟩
  | conditional pos _ _ _ ihcondition ihthen ihelse =>
    rw [Expr.Formed]
    exact ⟨ihcondition, ihthen, ihelse⟩
  | assign pos op htarget _ _ ihtarget ihvalue =>
    rw [Expr.Formed]
    exact ⟨htarget, ihtarget, ihvalue⟩
  | update pos op before htarget _ ihtarget =>
    rw [Expr.Formed]
    exact ⟨htarget, ihtarget⟩
  | await pos _ ih =>
    rw [Expr.Formed]
    exact ⟨fun h => absurd h Bool.false_ne_true, ih⟩
  | call pos _ _ ihcallee ihargs =>
    rw [Expr.Formed]
    exact ⟨ihcallee, exprsFormed_iff.mpr ihargs⟩
  | member pos _ hattr ih =>
    rw [Expr.Formed]
    exact ⟨ih, hattr⟩
  | index pos _ _ ihobject ihkey =>
    rw [Expr.Formed]
    exact ⟨ihobject, ihkey⟩
  | construct pos _ _ ihcls ihargs =>
    rw [Expr.Formed]
    exact ⟨ihcls, exprsFormed_iff.mpr ihargs⟩

/-- A name in an operation is not reserved. -/
theorem free_of_name {pos : Position} {ident : String} (h : (Expr.name pos ident).IsOperation) :
    Keyword.ofText? ident = none := by
  cases h with
  | name _ _ hfree => exact hfree

/-- An operation is not a call of `async`, which might look like the head of an arrow function. -/
theorem headLegible (h : e.IsOperation) (k : List Shape) : e.HeadLegible k := by
  rintro p q args rfl
  cases h with
  | call _ hcallee _ => exact absurd hcallee.free_of_name (by decide)

/-- No operation is written before `<`, so none is read as a callee with type arguments. -/
theorem nameLegible {op : BinaryOp} (hop : op ≠ .less) (l : List Shape) :
    e.NameLegible (mark op.mark :: l) := by
  intro hless
  have hmark : op.mark = .less := Lexeme.mark.inj hless
  cases op with
  | less => exact absurd rfl hop
  | _ => cases hmark

/-- Nothing in an operation is read as something else, whatever comes after it. -/
theorem legible (h : e.IsOperation) (k : List Shape) : e.Legible k := by
  induction h generalizing k with
  | @literal pos value hvalue =>
    rw [Expr.Legible]
    cases value with
    | number v => exact absurd rfl (hvalue v)
    | _ => trivial
  | name | this => rw [Expr.Legible]; trivial
  | array pos _ ih =>
    rw [Expr.Legible]
    exact .of_mem ih _
  | unary pos op _ ih =>
    rw [Expr.Legible]
    exact ih _
  | binary pos hop _ _ ihleft ihright =>
    rw [Expr.Legible]
    exact ⟨ihleft _, fun _ => nameLegible hop _, ihright _⟩
  | conditional pos _ hthen helse ihcondition ihthen ihelse =>
    rw [Expr.Legible]
    exact ⟨ihcondition _, ihthen _, hthen.headLegible _, ihelse _, helse.headLegible _⟩
  | assign pos op _ _ hvalue ihtarget ihvalue =>
    rw [Expr.Legible]
    exact ⟨ihtarget _, ihvalue _, hvalue.headLegible _⟩
  | update pos op before _ _ ihtarget =>
    rw [Expr.Legible]
    exact ihtarget _
  | await pos _ ih =>
    rw [Expr.Legible]
    exact ih _
  | call pos _ _ ihcallee ihargs =>
    rw [Expr.Legible]
    exact ⟨ihcallee _, .of_mem ihargs _⟩
  | member pos _ _ ih =>
    rw [Expr.Legible]
    exact ih _
  | index pos _ _ ihobject ihkey =>
    rw [Expr.Legible]
    exact ⟨ihobject _, ihkey _⟩
  | construct pos _ _ ihcls ihargs =>
    rw [Expr.Legible]
    exact ⟨ihcls _, .of_mem ihargs _⟩

/-! ## Reading back -/

/-- The text of a program that consists of an operation is read as that program, up to positions. -/
theorem parse_text (h : e.IsOperation) (pos : Position) :
    ∃ q, parse (Program.text ⟨[.expr pos e]⟩) = .ok q ∧
      q.bare = (⟨[.expr pos e]⟩ : Program).bare := by
  refine Program.read_text ?_ ?_
  · rw [StmtsFormed, Stmt.Formed]
    exact ⟨h.formed, trivial⟩
  · rw [Program.Legible, StmtsLegible, Stmt.Legible]
    refine ⟨⟨h.legible _, ?_⟩, trivial⟩
    -- the name `type` is reserved
    rintro p rfl
    exact absurd h.free_of_name (by decide)

end Expr.IsOperation

/-- Signs before signs, a call as a class, and a keyword as a member. -/
def Expr.signs : Expr :=
  .unary .start .negate (.unary .start .negate (.index .start
    (.construct .start (.call .start (.name .start "f") []) [])
    (.update .start .decrement true (.member .start (.this .start) "new"))))

example : Program.text ⟨[.expr .start .signs]⟩ = "(- -new (f())()[--this.new])\n" := by rfl

theorem Expr.parse_text_signs : Expr.signs.IsOperation ∧
    ∃ q, parse (Program.text ⟨[.expr .start .signs]⟩) = .ok q ∧
      q.bare = (⟨[.expr .start .signs]⟩ : Program).bare := by
  have hf : (Expr.name .start "f").IsOperation := .name .start (by decide) (by decide)
  have hcls : (Expr.construct .start (.call .start (.name .start "f") []) []).IsOperation :=
    .construct .start (.call .start hf (by simp)) (by simp)
  have hkey : (Expr.member .start (.this .start) "new").IsOperation :=
    .member .start (.this .start) (by decide)
  have hsigns : Expr.signs.IsOperation :=
    .unary .start .negate (.unary .start .negate (.index .start hcls
      (.update .start .decrement true rfl hkey)))
  exact ⟨hsigns, hsigns.parse_text .start⟩

end CoScript
