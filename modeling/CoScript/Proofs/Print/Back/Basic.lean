import CoScript.Proofs.Parse.Enough
import CoScript.Proofs.Print.Alike
import CoScript.Proofs.Print.Follow
import CoScript.Proofs.Print.Reads

/-!
# What is to be read back

The rules of the grammar read back what the printer writes, provided that they are given enough
depth, that the tree is one the parser may have given, and that what comes after it leaves it alone.

Results:
* `Operand`, `Stmt.Placed`: what has to hold of an expression and of a statement in its place.
* `Rules.Back`: rules that read everything back up to a length.
-/

namespace CoScript

open CoScript.Parser Shape

/-! ## Expressions in their places -/

theorem Expr.level_pos (e : Expr) : assignmentLevel ≤ e.level := by
  cases e with
  | update _ _ before _ => cases before <;> exact Nat.le_add_left 1 _
  | binary _ op => exact Nat.le_trans (by decide) (Nat.le_add_right conditionalLevel op.precedence)
  | _ => exact Nat.le_add_left 1 _

/-- No expression stands in parentheses where any expression may stand. -/
@[simp] theorem Expr.level_lt_assignment (e : Expr) : decide (e.level < assignmentLevel) = false :=
  decide_eq_false (Nat.not_lt.mpr e.level_pos)

/-- An expression, which may stand in parentheses, before the lexemes `k`, in a place that asks for
    a level. -/
structure Operand (c : Context) (needed : Bool) (e : Expr) (k : List Shape) (level : ℕ) : Prop where
  complete : c.Complete
  formed : e.Formed c.site
  legible : e.Legible (closing needed k)
  fits : needed = false → level ≤ e.level
  name : needed = false → e.NameLegible k
  closed : needed = true → (firstOf k).lexeme = .mark .less → Grammar.takesTypeArgs e = false
  stops : Stops level k

/-- An expression before a colon is not read as the head of an arrow function. -/
def HeadFits (needed : Bool) (e : Expr) (k : List Shape) : Prop :=
  if needed then (firstOf k).lexeme = .mark .colon → e.isObject else e.HeadLegible k

theorem HeadFits.of_ne {needed : Bool} {e : Expr} {k : List Shape}
    (h : (firstOf k).lexeme ≠ .mark .colon) : HeadFits needed e k := by
  unfold HeadFits
  split
  · exact fun hcolon => absurd hcolon h
  · exact fun _ _ _ _ hcolon => absurd hcolon h

/-- A comparison is drawn to what stands before it. -/
theorem Stops.ne_less {level : ℕ} {k : List Shape} (h : Stops level k)
    (hlevel : level ≤ BinaryOp.less.level) : (firstOf k).lexeme ≠ .mark .less := by
  intro hless
  unfold Stops Shape.pull at h
  rw [hless] at h
  have hpull : Mark.pull (firstOf k).afterBreak .less = BinaryOp.less.level := rfl
  dsimp only at h
  omega

/-- An expression where any expression may stand. -/
theorem Operand.whole {c : Context} {e : Expr} {k : List Shape} (hc : c.Complete)
    (hformed : e.Formed c.site) (hlegible : e.Legible k) (hstops : Stops assignmentLevel k) :
    Operand c false e k assignmentLevel where
  complete := hc
  formed := hformed
  legible := hlegible
  fits _ := e.level_pos
  name _ hless := absurd hless (hstops.ne_less (by decide))
  closed hneeded := by cases hneeded
  stops := hstops

/-! ## Statements in their places -/

/-- A statement before the lexemes `k`. -/
structure Stmt.Placed (c : Context) (s : Stmt) (k : List Shape) : Prop where
  complete : c.Complete
  formed : s.Formed c.site
  legible : s.Legible k
  stops : Stops assignmentLevel k
  fresh : (firstOf k).lexeme.isFresh
  ends : s.isBlock ∨ (firstOf k).lexeme.isMark .closeBrace ∨ (firstOf k).afterBreak
  closed : s.dangles → (firstOf k).lexeme ≠ .keyword .elseWord

/-! ## Rules -/

/-- Rules that read everything back whose length is bounded by `n` as in `Rules.Enough`. -/
structure Rules.Back (R : Rules) (n : ℕ) : Prop where
  enough : R.Enough n
  depth : ∃ m, R = .ofDepth m
  statement : ∀ {c s k} b, Stmt.Placed c s k → 4 * (s.shapes b ++ k).length + 4 ≤ n →
    R.statement.Reads c (s.shapes b) k fun x => x.bare = s.bare
  assignment : ∀ {c needed e k} b, Operand c needed e k assignmentLevel → HeadFits needed e k →
    4 * (parens needed e.shapes b ++ k).length + 3 ≤ n →
    R.assignment.Reads c (parens needed e.shapes b) k fun x => x.bare = e.bare
  binary : ∀ {c needed e k} level b, 1 ≤ level → level + conditionalLevel ≤ unaryLevel →
    Operand c needed e k (level + conditionalLevel) →
    4 * (parens needed e.shapes b ++ k).length + 2 ≤ n →
    (R.binary level).Reads c (parens needed e.shapes b) k fun x => x.bare = e.bare
  unary : ∀ {c needed e k} b, Operand c needed e k unaryLevel →
    4 * (parens needed e.shapes b ++ k).length + 1 ≤ n →
    R.unary.Reads c (parens needed e.shapes b) k fun x => x.bare = e.bare
  construction : ∀ {c pos cls args k} b, c.Complete → (Expr.construct pos cls args).Formed c.site →
    (Expr.construct pos cls args).Legible k →
    4 * ((Expr.construct pos cls args).shapes b ++ k).length ≤ n →
    R.construction.Reads c ((Expr.construct pos cls args).shapes b) k
      fun x => x.bare = (Expr.construct pos cls args).bare
  any : ∀ {c k}, c.Complete → Stops assignmentLevel k → (firstOf k).lexeme.isFresh →
    4 * (word "any" :: k).length + 1 ≤ n → R.type.Reads c [word "any"] k fun _ => True

namespace Rules.Back

variable {R : Rules} {n : ℕ} {c : Context} {k : List Shape}

/-- An expression where any expression may stand is read back. -/
theorem whole (h : R.Back n) {e : Expr} (b : Bool) (hc : c.Complete) (hformed : e.Formed c.site)
    (hlegible : e.Legible k) (hstops : Stops assignmentLevel k) (hhead : e.HeadLegible k)
    (hn : 4 * (e.shapes b ++ k).length + 3 ≤ n) :
    R.assignment.Reads c (e.shapes b) k fun x => x.bare = e.bare :=
  have hwhole := Operand.whole hc hformed hlegible hstops
  h.assignment b hwhole hhead hn

/-- The same where a mark comes next that is no colon. -/
theorem beforeMark (h : R.Back n) {e : Expr} (b : Bool) {m : Mark} (hm : m ≠ .colon)
    (hpull : m.pull false < assignmentLevel) (hc : c.Complete) (hformed : e.Formed c.site)
    (hlegible : e.Legible (mark m :: k)) (hn : 4 * (e.shapes b ++ mark m :: k).length + 3 ≤ n) :
    R.assignment.Reads c (e.shapes b) (mark m :: k) fun x => x.bare = e.bare :=
  h.whole b hc hformed hlegible hpull (fun _ _ _ _ hcolon => by simp [Shape.mark, hm] at hcolon) hn

end Rules.Back

/-! ## Lists -/

theorem argShapes_eq (es : List Expr) : argShapes es = es.map (·.shapes false) := by
  induction es with
  | nil => rfl
  | cons e r ih => rw [argShapes, ih, Expr.level_lt_assignment]; rfl

/-- What a list passes on to its tail holds along the whole list. -/
theorem of_suffix {α : Type} {L : List α → Prop} {P : α → List α → Prop}
    (hcons : ∀ x r, L (x :: r) → P x r ∧ L r) {xs : List α} (hxs : L xs) :
    ∀ x post, x :: post <:+ xs → P x post := by
  induction xs with
  | nil => simp
  | cons y r ih =>
    obtain ⟨hy, hr⟩ := hcons y r hxs
    intro x post hsuffix
    obtain heq | hsuffix := List.suffix_cons_iff.mp hsuffix
    · obtain ⟨rfl, rfl⟩ := List.cons.inj heq
      exact hy
    · exact ih hr x post hsuffix

theorem ExprsLegible.suffix {es : List Expr} {k : List Shape} (h : ExprsLegible es k) :
    ∀ e post, e :: post <:+ es → e.Legible (afterItem (argShapes post) k) :=
  of_suffix (L := fun es => ExprsLegible es k) (fun _ _ h => by rwa [ExprsLegible] at h) h

theorem ParamsLegible.suffix {ps : List Param} {k : List Shape} (h : ParamsLegible ps k) :
    ∀ p post, p :: post <:+ ps → p.Legible (afterItem (paramShapes post) k) :=
  of_suffix (L := fun ps => ParamsLegible ps k) (fun _ _ h => by rwa [ParamsLegible] at h) h

theorem PropertiesLegible.suffix {ps : List Property} {k : List Shape}
    (h : PropertiesLegible ps k) :
    ∀ p post, p :: post <:+ ps → p.Legible (afterItem (propertyShapes post) k) :=
  of_suffix (L := fun ps => PropertiesLegible ps k) (fun _ _ h => by rwa [PropertiesLegible] at h) h

theorem paramShapes_eq (ps : List Param) : paramShapes ps = ps.map Param.shapes := by
  induction ps with
  | nil => rfl
  | cons p r ih => rw [paramShapes, ih, List.map_cons]

theorem propertyShapes_eq (ps : List Property) : propertyShapes ps = ps.map Property.shapes := by
  induction ps with
  | nil => rfl
  | cons p r ih => rw [propertyShapes, ih, List.map_cons]

/-- The items of a list of expressions do not begin with a closing mark. -/
theorem args_begin {es : List Expr} {s : Site} (h : ExprsFormed es s) {close : Mark}
    (hclose : (Lexeme.mark close).begins = false) :
    ∀ e ∈ es, ∃ x r, e.shapes false = x :: r ∧ x.lexeme.isMark close = false := by
  intro e he
  obtain ⟨x, r, hshapes, hx, -⟩ := e.shapes_begin false (exprsFormed_iff.mp h e he)
  exact ⟨x, r, hshapes, Lexeme.isMark_of_begins hx hclose⟩

/-- What comes after an item of a list is drawn to it only if it is drawn to the whole list. -/
theorem Stops.afterItem {level : ℕ} {k : List Shape} (h : Stops level k) (items : List (List Shape))
    (hlevel : 0 < level) : Stops level (afterItem items k) := by
  unfold CoScript.afterItem
  split
  · exact h
  · exact hlevel

theorem afterItem_ne {items : List (List Shape)} {k : List Shape} {m : Mark} (hm : m ≠ .comma)
    (hk : (firstOf k).lexeme ≠ .mark m) : (firstOf (afterItem items k)).lexeme ≠ .mark m := by
  unfold afterItem
  split
  · exact hk
  · simpa [Shape.mark] using hm.symm

/-- The expressions of a list are read back. -/
theorem Rules.Back.items {R : Rules} {n : ℕ} {c : Context} {k : List Shape} (h : R.Back n)
    (hc : c.Complete) {es : List Expr} (hformed : ExprsFormed es c.site)
    (hlegible : ExprsLegible es k) (hstops : Stops assignmentLevel k)
    (hcolon : (firstOf k).lexeme ≠ .mark .colon)
    (hn : 4 * (commas (argShapes es) ++ k).length + 3 ≤ n) :
    Reads.Items R.assignment c (·.shapes false) Expr.bare Expr.bare es k := by
  intro e post hsuffix hlen
  rw [← argShapes_eq] at hlen ⊢
  rw [← argShapes_eq] at hlen
  dsimp only at hlen
  refine h.whole false hc (exprsFormed_iff.mp hformed e (hsuffix.subset List.mem_cons_self))
    (hlegible.suffix e post hsuffix) (hstops.afterItem _ (by decide)) ?_ (by omega)
  exact fun _ _ _ _ h => absurd h (afterItem_ne (by decide) hcolon)

end CoScript
