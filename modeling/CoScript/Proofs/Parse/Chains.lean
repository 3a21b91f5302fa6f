import CoScript.Proofs.Parse.Unbounded
import CoScript.Proofs.Print.Back.Program
import CoScript.Proofs.Print.Spelled
import Mathlib.Data.List.Induction

/-!
# Chains of operators

Names with binary operators between them, and no parentheses, leave it to the precedences what tree
they stand for. Splitting such a chain at the last of its loosest operators, and both sides in the
same way, gives the tree in which nothing binds less tightly below than above. The climbing of the
levels builds that tree. A comparison in the chain is tried as the start of type arguments, but they
would have to end before a parenthesis, and there is none.

Results:
* `Chain.SplitsInto`: the tree that a chain is split into.
* `Chain.splitsInto_iff`: it is the one with the chain as its in-order reading in which no operand
  binds less tightly than its operator.
* `Chain.levels_eq`: the levels of the operators.
* `Chain.parse_eq`: every text that says a chain is read as its tree.
-/

namespace CoScript

open CoScript.Parser Shape

/-- Names with binary operators between them. -/
structure Chain where
  first : String
  rest : List (BinaryOp × String)

namespace Chain

/-- The operators of a chain. -/
def ops (c : Chain) : List BinaryOp :=
  c.rest.map Prod.fst

/-- The names of a chain. -/
def names (c : Chain) : List String :=
  c.first :: c.rest.map Prod.snd

/-- A single name. -/
def single (a : String) : Chain :=
  ⟨a, []⟩

/-- Two chains with an operator between them. -/
def join (l : Chain) (op : BinaryOp) (r : Chain) : Chain :=
  ⟨l.first, l.rest ++ (op, r.first) :: r.rest⟩

/-- The lexemes of an operator and the name after it. -/
def linkShapes (x : BinaryOp × String) : List Shape :=
  [mark x.1.mark, word x.2]

/-- The lexemes of a chain on one line; `b` says whether a line break stands before it. -/
def shapes (c : Chain) (b : Bool) : List Shape :=
  ⟨Lexer.wordLexeme c.first.toList, b⟩ :: c.rest.flatMap linkShapes

/-- An operator and the name after it, each after a blank. -/
def linkText (x : BinaryOp × String) : String :=
  " " ++ x.1.text ++ " " ++ x.2

/-- A chain with blanks around its operators. -/
def text (c : Chain) : String :=
  c.first ++ String.join (c.rest.map linkText)

/-- A text says a chain on one line: these are its tokens, with any gaps between them. -/
structure SaidBy (c : Chain) (source : String) : Prop where
  complete : ∃ pos, (tokenize source).ending = .complete pos
  tokens : ∃ b, (tokenize source).list.map Token.shape = c.shapes b

@[simp] theorem ops_single (a : String) : (single a).ops = [] := rfl

@[simp] theorem ops_join (l : Chain) (op : BinaryOp) (r : Chain) :
    (l.join op r).ops = l.ops ++ op :: r.ops := by
  simp [ops, join]

@[simp] theorem names_join (l : Chain) (op : BinaryOp) (r : Chain) :
    (l.join op r).names = l.names ++ r.names := by
  simp [names, join]

theorem shapes_join (l : Chain) (op : BinaryOp) (r : Chain) (b : Bool) :
    (l.join op r).shapes b = l.shapes b ++ mark op.mark :: r.shapes false := by
  simp [shapes, join, linkShapes, word]

theorem join_single (l : Chain) (op : BinaryOp) (r : Chain) (op' : BinaryOp) (a : String) :
    (l.join op r).join op' (single a) = l.join op (r.join op' (single a)) := by
  simp [join, single]

/-! ## The tree of a chain -/

/-- A chain is split at the last of its loosest operators, and so are the two sides. -/
inductive SplitsInto : Chain → Expr → Prop
  | single {pos : Position} {a : String} : SplitsInto (single a) (.name pos a)
  | join {pos : Position} {op : BinaryOp} {l r : Chain} {left right : Expr}
    (hleft : ∀ o ∈ l.ops, op.precedence ≤ o.precedence)
    (hright : ∀ o ∈ r.ops, op.precedence < o.precedence)
    (hl : SplitsInto l left) (hr : SplitsInto r right) :
    SplitsInto (l.join op r) (.binary pos op left right)

end Chain

namespace Expr

/-- The in-order reading of an expression of names and binary operators. -/
def inOrder : Expr → Option Chain
  | .name _ a => some (.single a)
  | .binary _ op left right => do return (← left.inOrder).join op (← right.inOrder)
  | _ => none

/-- The operator of a binary expression. -/
def root? : Expr → Option BinaryOp
  | .binary _ op _ _ => some op
  | _ => none

/-- Every left operand binds at least as tightly as its operator, every right operand more. -/
def Climbed : Expr → Prop
  | .binary _ op left right =>
    (∀ o ∈ left.root?, op.precedence ≤ o.precedence) ∧
      (∀ o ∈ right.root?, op.precedence < o.precedence) ∧ left.Climbed ∧ right.Climbed
  | _ => True

theorem inOrder_binary {pos : Position} {op : BinaryOp} {left right : Expr} {c : Chain} :
    (Expr.binary pos op left right).inOrder = some c ↔
      ∃ l r, left.inOrder = some l ∧ right.inOrder = some r ∧ l.join op r = c := by
  simp only [inOrder, Option.pure_def, Option.bind_eq_bind, Option.bind_eq_some_iff,
    Option.some.injEq]
  constructor
  · rintro ⟨l, hl, r, hr, h⟩
    exact ⟨l, r, hl, hr, h⟩
  · rintro ⟨l, r, hl, hr, h⟩
    exact ⟨l, hl, r, hr, h⟩

/-- The operator at the top of a climbed expression is one of its loosest. -/
theorem Climbed.root_le {e : Expr} {c : Chain} (h : e.Climbed) (hc : e.inOrder = some c) :
    ∀ o ∈ c.ops, ∃ root, e.root? = some root ∧ root.precedence ≤ o.precedence := by
  induction e using Expr.inOrder.induct generalizing c with
  | case1 pos a =>
    obtain rfl := Option.some.inj hc
    simp
  | case2 pos op left right ihleft ihright =>
    rw [Climbed] at h
    obtain ⟨hleft, hright, hl, hr⟩ := h
    obtain ⟨l, r, hlc, hrc, rfl⟩ := inOrder_binary.mp hc
    intro o ho
    refine ⟨op, rfl, ?_⟩
    rw [Chain.ops_join, List.mem_append, List.mem_cons] at ho
    obtain ho | rfl | ho := ho
    · obtain ⟨root, hroot, hle⟩ := ihleft hl hlc o ho
      exact Nat.le_trans (hleft root hroot) hle
    · exact Nat.le_refl _
    · obtain ⟨root, hroot, hle⟩ := ihright hr hrc o ho
      exact Nat.le_of_lt (Nat.lt_of_lt_of_le (hright root hroot) hle)
  | case3 e hname hbinary =>
    rw [inOrder] at hc
    · cases hc
    · exact hname
    · exact hbinary

/-- One more operator and name after an expression: it goes down the right edge, past every operator
    that binds less tightly. -/
def attach (op : BinaryOp) (a : String) : Expr → Expr
  | .binary pos o left right =>
    if o.precedence < op.precedence then .binary pos o left (right.attach op a)
    else .binary .start op (.binary pos o left right) (.name .start a)
  | e => .binary .start op e (.name .start a)

end Expr

namespace Chain

namespace SplitsInto

variable {c : Chain} {e : Expr}

theorem inOrder (h : c.SplitsInto e) : e.inOrder = some c := by
  induction h with
  | single => rfl
  | join _ _ _ _ ihl ihr => exact Expr.inOrder_binary.mpr ⟨_, _, ihl, ihr, rfl⟩

/-- The operator at the top is one of the chain. -/
theorem root_mem (h : c.SplitsInto e) : ∀ o ∈ e.root?, o ∈ c.ops := by
  cases h with
  | single => simp [Expr.root?]
  | join => simp [Expr.root?]

theorem climbed (h : c.SplitsInto e) : e.Climbed := by
  induction h with
  | single => trivial
  | join hleft hright hl hr ihl ihr =>
    exact ⟨fun o ho => hleft o (hl.root_mem o ho), fun o ho =>
      hright o (hr.root_mem o ho), ihl, ihr⟩

end SplitsInto

/-- Splitting at the last of the loosest operators gives the expressions with the chain as their
    reading in which no operand binds less tightly than its operator. -/
theorem splitsInto_iff {c : Chain} {e : Expr} :
    c.SplitsInto e ↔ e.inOrder = some c ∧ e.Climbed := by
  refine ⟨fun h => ⟨h.inOrder, h.climbed⟩, ?_⟩
  rintro ⟨hc, h⟩
  induction e using Expr.inOrder.induct generalizing c with
  | case1 pos a =>
    obtain rfl := Option.some.inj hc
    exact .single
  | case2 pos op left right ihleft ihright =>
    rw [Expr.Climbed] at h
    obtain ⟨hleft, hright, hl, hr⟩ := h
    obtain ⟨l, r, hlc, hrc, rfl⟩ := Expr.inOrder_binary.mp hc
    refine .join (fun o ho => ?_) (fun o ho => ?_) (ihleft hlc hl) (ihright hrc hr)
    · obtain ⟨root, hroot, hle⟩ := hl.root_le hlc o ho
      exact Nat.le_trans (hleft root hroot) hle
    · obtain ⟨root, hroot, hle⟩ := hr.root_le hrc o ho
      exact Nat.lt_of_lt_of_le (hright root hroot) hle
  | case3 e hname hbinary =>
    rw [Expr.inOrder] at hc
    · cases hc
    · exact hname
    · exact hbinary

/-! ## One tree for each chain -/

/-- A chain has one last loosest operator. -/
theorem join_inj {l r l' r' : Chain} {op op' : BinaryOp} (h : l.join op r = l'.join op' r')
    (hl : ∀ o ∈ l.ops, op.precedence ≤ o.precedence)
    (hr : ∀ o ∈ r.ops, op.precedence < o.precedence)
    (hl' : ∀ o ∈ l'.ops, op'.precedence ≤ o.precedence)
    (hr' : ∀ o ∈ r'.ops, op'.precedence < o.precedence) : l = l' ∧ op = op' ∧ r = r' := by
  obtain ⟨a, as⟩ := l
  obtain ⟨a', as'⟩ := l'
  obtain ⟨b, bs⟩ := r
  obtain ⟨b', bs'⟩ := r'
  simp only [join, Chain.mk.injEq] at h
  obtain ⟨rfl, h⟩ := h
  -- an operator of one side is at least as tight, and more so to the right: the two splits cannot
  -- lie one behind the other
  obtain ⟨m, hm, hrest⟩ | ⟨m, hm, hrest⟩ := List.append_eq_append_iff.mp h
  · cases m with
    | nil =>
      simp only [List.append_nil] at hm
      obtain ⟨⟨⟩, rfl⟩ := List.cons.inj hrest
      exact ⟨by rw [hm], rfl, rfl⟩
    | cons x m =>
      obtain ⟨rfl, hbs⟩ := List.cons.inj hrest
      have hle : op'.precedence ≤ op.precedence := hl' op (by simp [ops, hm])
      have hlt : op.precedence < op'.precedence := hr op' (by simp [ops, hbs])
      omega
  · cases m with
    | nil =>
      simp only [List.append_nil] at hm
      obtain ⟨⟨⟩, rfl⟩ := List.cons.inj hrest
      exact ⟨by rw [hm], rfl, rfl⟩
    | cons x m =>
      obtain ⟨rfl, hbs⟩ := List.cons.inj hrest
      have hle : op.precedence ≤ op'.precedence := hl op' (by simp [ops, hm])
      have hlt : op'.precedence < op.precedence := hr' op (by simp [ops, hbs])
      omega

theorem join_ne_single (l : Chain) (op : BinaryOp) (r : Chain) (a : String) :
    l.join op r ≠ single a := by
  simp [join, single]

namespace SplitsInto

variable {c : Chain} {e e' : Expr}

/-- A chain is split into one tree, up to positions. -/
theorem bare_eq (h : c.SplitsInto e) (h' : c.SplitsInto e') : e.bare = e'.bare := by
  induction h generalizing e' with
  | @single pos a =>
    generalize hc : Chain.single a = c at h'
    cases h' with
    | single =>
      obtain ⟨rfl, -⟩ := Chain.mk.inj hc
      rw [Expr.bare, Expr.bare]
    | join => exact absurd hc.symm (join_ne_single _ _ _ _)
  | @join pos op l r left right hleft hright hl hr ihl ihr =>
    generalize hc : l.join op r = c at h'
    cases h' with
    | single => exact absurd hc (join_ne_single _ _ _ _)
    | join hleft' hright' hl' hr' =>
      obtain ⟨rfl, rfl, rfl⟩ := join_inj hc hleft hright hleft' hright'
      rw [Expr.bare, Expr.bare, ihl hl', ihr hr']

/-- Positions do not matter for what a chain is split into. -/
theorem of_bare (h : c.SplitsInto e) (he : e'.bare = e.bare) : c.SplitsInto e' := by
  induction h generalizing e' with
  | single =>
    rw [Expr.bare] at he
    cases e' with
    | name pos a =>
      rw [Expr.bare] at he
      obtain ⟨-, rfl⟩ := Expr.name.inj he
      exact .single
    | _ => simp [Expr.bare] at he
  | join hleft hright hl hr ihl ihr =>
    rw [Expr.bare] at he
    cases e' with
    | binary pos op left right =>
      rw [Expr.bare] at he
      obtain ⟨-, rfl, hl, hr⟩ := Expr.binary.inj he
      exact .join hleft hright (ihl hl) (ihr hr)
    | _ => simp [Expr.bare] at he

/-- A longer chain is split into the tree with the operator attached. -/
theorem attach (h : c.SplitsInto e) (op : BinaryOp) (a : String) :
    (c.join op (.single a)).SplitsInto (e.attach op a) := by
  induction h with
  | @single pos b => exact .join (by simp) (by simp) .single .single
  | @join pos o l r left right hleft hright hl hr ihl ihr =>
    rw [Expr.attach]
    split
    case isTrue hlt =>
      rw [join_single]
      refine .join hleft (fun o' ho' => ?_) hl ihr
      rw [ops_join, List.mem_append] at ho'
      obtain ho' | ho' := ho'
      · exact hright o' ho'
      · obtain rfl : o' = op := by simpa using ho'
        exact hlt
    case isFalse hle =>
      refine .join (fun o' ho' => ?_) (by simp) (.join hleft hright hl hr) .single
      have hle : op.precedence ≤ o.precedence := Nat.not_lt.mp hle
      rw [ops_join, List.mem_append, List.mem_cons] at ho'
      obtain ho' | rfl | ho' := ho'
      · exact Nat.le_trans hle (hleft o' ho')
      · exact hle
      · exact Nat.le_of_lt (Nat.lt_of_le_of_lt hle (hright o' ho'))

end SplitsInto

/-- Every chain is split into a tree. -/
theorem exists_splitsInto (c : Chain) : ∃ e, c.SplitsInto e := by
  obtain ⟨a, rest⟩ := c
  induction rest using List.reverseRecOn with
  | nil => exact ⟨.name .start a, .single⟩
  | append_singleton rest x ih =>
    obtain ⟨e, he⟩ := ih
    exact ⟨_, he.attach x.1 x.2⟩

end Chain

/-! ## No type arguments -/

/-- The type arguments of a call end before a parenthesis. -/
theorem ReadsAsTypeArgs.exists_openParen {l : List Shape} (h : ReadsAsTypeArgs l) :
    ∃ s ∈ l, s.lexeme = .mark .openParen := by
  obtain ⟨n, c, ts, x, rest, rfl, h⟩ := h
  have hbelow : (Grammar.callTypeArgs (.ofDepth n)).Below (Grammar.callTypeArgs .unbounded) :=
    (tracks_same_iff fun _ _ => .rfl).mp
      (Grammar.tracks_callTypeArgs (Rules.tracks_same.mpr (Rules.below_unbounded n)))
  rw [← hbelow c ts (by simp [h])] at h
  obtain ⟨_, mid, htypes, hcall⟩ := bind_eq_ok.mp h
  have htakes : (Grammar.typeArgs .unbounded).Takes c ts 0 (fun _ => 0) fun _ => 1 :=
    Grammar.takes_typeArgs (Rules.enough_unbounded (4 * ts.length)) (Nat.le_succ _)
  rw [Takes, htypes] at htakes
  obtain ⟨w, rfl, -⟩ := htakes
  obtain ⟨t, mid', hpeek, ht⟩ := bind_eq_ok.mp hcall
  obtain ⟨rfl, hahead⟩ := peek_eq_ok hpeek
  split at ht
  · obtain ⟨_, _, _, ht⟩ := bind_eq_ok.mp ht
    cases ht
  · rename_i hmark
    have hlexeme : t.lexeme = .mark .openParen := by
      refine lexeme_of_isMark ?_
      cases hparen : t.lexeme.isMark .openParen with
      | true => rfl
      | false => simp [hparen] at hmark
    obtain ⟨r, rfl⟩ := hahead.eq_cons (by rw [hlexeme]; simp)
    exact ⟨t.shape, by simp, hlexeme⟩

namespace Chain

/-- No lexeme of a chain is a parenthesis. -/
theorem shapes_ne_openParen (c : Chain) (b : Bool) :
    ∀ s ∈ c.shapes b, s.lexeme ≠ .mark .openParen := by
  have hword (a : String) : Lexer.wordLexeme a.toList ≠ .mark .openParen := by
    intro h
    have hmark := isMark_of_word (Lexer.wordLexeme_word a) .openParen
    rw [h] at hmark
    cases hmark
  have hop (op : BinaryOp) : op.mark ≠ .openParen := by cases op <;> simp [BinaryOp.mark]
  intro s hs
  rw [shapes, List.mem_cons, List.mem_flatMap] at hs
  obtain rfl | ⟨x, -, hs⟩ := hs
  · exact hword c.first
  · obtain rfl | rfl : s = mark x.1.mark ∨ s = word x.2 := by simpa [linkShapes] using hs
    · exact fun h => hop x.1 (Lexeme.mark.inj h)
    · exact hword x.2

/-! ## Reading a chain -/

namespace SplitsInto

variable {c : Chain} {e : Expr}

/-- The tree of a chain holds together as tightly as its loosest operators. -/
theorem le_level (h : c.SplitsInto e) {level : ℕ} (hlevel : level ≤ primaryLevel)
    (hops : ∀ o ∈ c.ops, level ≤ o.level) : level ≤ e.level := by
  cases h with
  | single => exact hlevel
  | join => exact hops _ (by simp)

/-- No operand in the tree of a chain needs parentheses. -/
theorem fits {op : BinaryOp} {l r : Chain} {left right : Expr}
    (hleft : ∀ o ∈ l.ops, op.precedence ≤ o.precedence)
    (hright : ∀ o ∈ r.ops, op.precedence < o.precedence) (hl : l.SplitsInto left)
    (hr : r.SplitsInto right) : ¬ left.level < op.level ∧ ¬ right.level < op.level + 1 := by
  have hlevel : op.level + 1 ≤ primaryLevel := by cases op <;> decide
  constructor
  · refine Nat.not_lt.mpr (hl.le_level (Nat.le_of_succ_le hlevel) fun o ho => ?_)
    exact Nat.add_le_add_left (hleft o ho) conditionalLevel
  · refine Nat.not_lt.mpr (hr.le_level hlevel fun o ho => ?_)
    exact Nat.add_lt_add_left (hright o ho) conditionalLevel

/-- The tree of a chain is written as the chain. -/
theorem shapes_eq (h : c.SplitsInto e) (b : Bool) : e.shapes b = c.shapes b := by
  induction h generalizing b with
  | single => rfl
  | join hleft hright hl hr ihl ihr =>
    obtain ⟨hfitsl, hfitsr⟩ := fits hleft hright hl hr
    rw [shapes_join, Expr.shapes, decide_eq_false hfitsl, decide_eq_false hfitsr, ← ihl b,
      ← ihr false]
    simp [parens]

theorem formed (h : c.SplitsInto e) {s : Site} (hnames : ∀ a ∈ c.names, isName a) :
    e.Formed s := by
  induction h with
  | single =>
    rw [Expr.Formed]
    exact hnames _ (by simp [names, Chain.single])
  | join hleft hright hl hr ihl ihr =>
    rw [names_join] at hnames
    rw [Expr.Formed]
    exact ⟨ihl fun a ha => hnames a (List.mem_append_left _ ha),
      ihr fun a ha => hnames a (List.mem_append_right _ ha)⟩

/-- Without a parenthesis after it, nothing in the tree of a chain is read as type arguments. -/
theorem legible (h : c.SplitsInto e) {k : List Shape} (hk : ∀ s ∈ k, s.lexeme ≠ .mark .openParen) :
    e.Legible k := by
  induction h generalizing k with
  | single =>
    rw [Expr.Legible]
    trivial
  | @join pos op l r left right hleft hright hl hr ihl ihr =>
    obtain ⟨hfitsl, hfitsr⟩ := fits hleft hright hl hr
    have hrest : ∀ s ∈ mark op.mark :: r.shapes false ++ k, s.lexeme ≠ .mark .openParen := by
      intro s hs
      rw [List.mem_append] at hs
      obtain hs | hs := hs
      · exact (l.join op r).shapes_ne_openParen false s (by
          rw [shapes_join]
          exact List.mem_append_right _ hs)
      · exact hk s hs
    rw [Expr.Legible, decide_eq_false hfitsl, decide_eq_false hfitsr, parens, closing, closing,
      if_neg Bool.false_ne_true, if_neg Bool.false_ne_true, if_neg Bool.false_ne_true,
      hr.shapes_eq]
    refine ⟨ihl hrest, fun _ _ _ hargs => ?_, ihr hk⟩
    obtain ⟨s, hs, hparen⟩ := hargs.exists_openParen
    exact hrest s hs hparen

end SplitsInto

variable {c : Chain}

/-- A chain begins with a name, and no name comes directly after it. -/
theorem startsNoDecl (c : Chain) (b : Bool) : Grammar.StartsNoDecl (c.shapes b) := by
  obtain ⟨a, rest⟩ := c
  constructor
  · intro _ hfunction
    cases rest <;> cases hfunction
  · intro _
    cases rest <;> rfl

/-- A chain is read as its tree where it is a statement. -/
theorem reads_statement {R : Rules} {n : ℕ} (h : R.Back n) {cx : Context} (hc : cx.Complete)
    (hnames : ∀ a ∈ c.names, isName a) (b : Bool) (hn : 4 * (c.shapes b).length + 3 ≤ n) :
    (Grammar.statement R).Reads cx (c.shapes b) []
      fun s => ∃ pos e, s = .expr pos e ∧ c.SplitsInto e := by
  obtain ⟨e, he⟩ := c.exists_splitsInto
  have hname := Lexer.wordLexeme_name (hnames c.first (by simp [names]))
  obtain ⟨-, hbrace, hfunction⟩ := Lexeme.isFresh_of_name hname
  have hbegins := Lexeme.begins_of_name hname
  refine Grammar.statement_expr (l := c.shapes b) hc hbegins hbrace hfunction ?_ ?_
  · rw [List.append_nil]
    exact c.startsNoDecl b
  have hread := h.whole (k := []) b hc (he.formed hnames) (he.legible (by simp)) Nat.zero_lt_one
    (fun _ _ _ _ hcolon => by cases hcolon) (by rwa [he.shapes_eq, List.append_nil])
  rw [he.shapes_eq] at hread
  refine .peek_bind hc fun t _ => .bind_all hread fun x hx => ?_
  exact Grammar.endStatement_done hc rfl (.inr rfl) (.pure ⟨_, x, rfl, he.of_bare hx⟩)

/-- A chain is read as its tree where it is a program. -/
theorem reads_program {n : ℕ} {cx : Context} (hc : cx.Complete)
    (hnames : ∀ a ∈ c.names, isName a) (b : Bool) (hn : 4 * (c.shapes b).length + 3 ≤ n) :
    (Grammar.program (.ofDepth (n + 1))).Reads cx (c.shapes b) []
      fun p => ∃ pos e, p = ⟨[.expr pos e]⟩ ∧ c.SplitsInto e := by
  have hstmt := reads_statement (Rules.back_ofDepth n) hc hnames b hn
  refine .bind_all (P := fun ss => ∃ pos e, ss = [.expr pos e] ∧ c.SplitsInto e) ?_
    fun ss ⟨pos, e, hss, he⟩ => .pure ⟨pos, e, by rw [hss], he⟩
  rw [← List.append_nil (c.shapes b)]
  refine .loop_again (I := fun ss => ∃ pos e, ss = [.expr pos e] ∧ c.SplitsInto e)
    (by simp [shapes])
    ?_ fun ss hss => .loop_done ?_
  · refine .peek_bind hc fun t ht => ?_
    have hend : t.lexeme.isEnd = false := by
      have hl : t.lexeme = Lexer.wordLexeme c.first.toList := congrArg Shape.lexeme ht
      have hname := Lexer.wordLexeme_name (hnames c.first (by simp [names]))
      rw [hl]
      exact (Grammar.not_end_of_startsStmt (Lexeme.startsStmt_of_begins
        (Lexeme.begins_of_name hname) (Lexeme.isFresh_of_name hname).1)).2
    simp only [hend, Bool.false_eq_true, if_false]
    refine .bind_all hstmt fun s ⟨pos, e, hs, he⟩ => .pure ⟨_, rfl, pos, e, ?_, he⟩
    rw [hs, List.nil_append]
  · refine .peek_bind hc fun t ht => ?_
    have hl : t.lexeme = .endOfInput := congrArg Shape.lexeme ht
    rw [hl]
    exact .pure ⟨ss, rfl, hss⟩

/-! ## Texts of chains -/

/-- A word ends before the links of a chain. -/
theorem next_links (rest : List (BinaryOp × String)) :
    ∀ d ∈ ((String.join (rest.map linkText)).toList ++ []).head?, Lexer.isNamePart d = false := by
  cases rest with
  | nil => simp
  | cons x rest =>
    intro d hd
    obtain rfl : ' ' = d := by simpa [linkText] using hd
    decide

theorem spells_links {rest : List (BinaryOp × String)} (h : ∀ x ∈ rest, isWord x.2) :
    Spells [] false (String.join (rest.map linkText)).toList (rest.flatMap linkShapes) false := by
  induction rest with
  | nil => exact .nil
  | cons x rest ih =>
    rw [List.forall_mem_cons] at h
    have htext : (String.join ((x :: rest).map linkText)).toList = ' ' :: (x.1.mark.spelling ++
        ' ' :: (x.2.toList ++ (String.join (rest.map linkText)).toList)) := by
      simp [linkText, BinaryOp.text, Mark.text]
    rw [htext]
    exact .space (.mark_space _ (.word h.1 (next_links rest) (ih h.2)))

/-- A chain with blanks around its operators is a text that says it. -/
theorem saidBy_text (hnames : ∀ a ∈ c.names, isName a) : c.SaidBy c.text := by
  have hword (a : String) (ha : a ∈ c.names) : isWord a := isWord_of_isName (hnames a ha)
  have hrest : ∀ x ∈ c.rest, isWord x.2 := fun x hx =>
    hword x.2 (List.mem_cons_of_mem _ (List.mem_map_of_mem hx))
  have hspells : Spells [] false c.text.toList (c.shapes false) false := by
    rw [text, String.toList_append]
    exact .word (hword c.first (List.mem_cons_self ..)) (next_links c.rest)
      (spells_links hrest)
  obtain ⟨pos, hending, htokens⟩ := hspells.tokens
  exact ⟨⟨pos, hending⟩, false, htokens⟩

/-- The fifteen operators stand on six levels, the loosest first. -/
theorem levels_eq : (List.range 8).map
      (fun level => (BinaryOp.all.filter (·.precedence = level)).map BinaryOp.text) =
    [[], ["||"], ["&&"], ["==", "!=", "===", "!=="], ["<", "<=", ">", ">="], ["+", "-"],
      ["*", "/", "%"], []] := by
  decide

/-- Precedence climbing: every text that says a chain of names and binary operators on one line,
    such as the one with blanks around the operators, stands for one expression. It has the chain as
    its in-order reading, every left operand in it binds at least as tightly as its operator and
    every right operand more tightly; it is what the chain is split into at the last of its loosest
    operators, and no other expression has these properties. -/
theorem parse_eq (c : Chain) (hnames : ∀ a ∈ c.names, isName a) :
    c.SaidBy c.text ∧ ∀ source, c.SaidBy source → ∃ pos e,
      parse source = .ok ⟨[.expr pos e]⟩ ∧ e.inOrder = some c ∧ e.Climbed ∧ c.SplitsInto e ∧
      ∀ e', (c.SplitsInto e' ↔ e'.inOrder = some c ∧ e'.Climbed) ∧
        (c.SplitsInto e' → e'.bare = e.bare) := by
  refine ⟨saidBy_text hnames, fun source ⟨⟨pos, hending⟩, b, htokens⟩ => ?_⟩
  have hlength : depthFor (tokenize source).list.length = 4 * (c.shapes b).length + 3 + 1 := by
    rw [← htokens, List.length_map, depthFor, Nat.mul_succ]
  have hc : (Context.topLevel (tokenize source).ending).Complete := ⟨pos, hending⟩
  obtain ⟨p, hp, pos, e, rfl, he⟩ := reads_program hc hnames b (Nat.le_refl _) _ [] htokens rfl
  rw [List.append_nil, ← hlength] at hp
  refine ⟨pos, e, ?_, he.inOrder, he.climbed, he, fun e' =>
    ⟨splitsInto_iff, fun he' => he'.bare_eq he⟩⟩
  rw [parse, Program.ofTokens, hp]

/-- A chain with angle brackets after one another, which look like type arguments. -/
def angles : Chain :=
  ⟨"a", [(.less, "type"), (.greater, "c"), (.multiply, "d"), (.or, "functions"), (.subtract, "f"),
    (.subtract, "g")]⟩

theorem parse_angles : (∀ a ∈ angles.names, isName a) ∧
    angles.SaidBy "a < type > c * d || functions - f - g" ∧ ∃ pos e,
      parse "a < type > c * d || functions - f - g" = .ok ⟨[.expr pos e]⟩ ∧
        e.inOrder = some angles ∧ e.Climbed ∧ angles.SplitsInto e := by
  have hnames : ∀ a ∈ angles.names, isName a := by decide
  obtain ⟨hsaid, hparse⟩ := parse_eq angles hnames
  have htext : angles.text = "a < type > c * d || functions - f - g" := by rfl
  rw [htext] at hsaid
  obtain ⟨pos, e, he, hreading, hclimbed, hsplits, -⟩ := hparse _ hsaid
  exact ⟨hnames, hsaid, pos, e, he, hreading, hclimbed, hsplits⟩

end Chain

end CoScript
