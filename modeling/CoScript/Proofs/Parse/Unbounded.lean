import CoScript.Proofs.Parse.Enough
import CoScript.Proofs.Parse.Paired.Stmt

/-!
# The grammar without a depth

Rules of some depth give what deeper ones give, unless they give up. So each input has a result that
no depth above a certain one changes, and the rules that give these results call each other freely:
they are a solution of the equations of the grammar. The parser of a program is one over these
rules.

Results:
* `Rules.Below`: rules give what others give, unless they give up.
* `Rules.unbounded`: the rules without a depth, which call each other (`Rules.next_unbounded`).
* `Grammar.program_ofDepth`: the parser of a program over them.
-/

namespace CoScript

open CoScript.Parser

/-! ## Rules by name -/

/-- The rules that refer to each other. -/
inductive Rule where
  | statement
  | assignment
  | binary (level : ℕ)
  | unary
  | construction
  | type

namespace Rule

/-- What a rule gives. -/
abbrev Result : Rule → Type
  | statement => Stmt
  | assignment => Expr
  | binary _ => Expr
  | unary => Expr
  | construction => Expr
  | type => Unit

/-- How many more rules may be called at the token where a rule is called. -/
def rank : Rule → ℕ
  | statement => 4
  | assignment => 3
  | binary _ => 2
  | unary => 1
  | construction => 0
  | type => 1

theorem rank_le (r : Rule) : r.rank ≤ 4 := by
  cases r <;> simp [rank]

end Rule

namespace Rules

variable {R R' : Rules}

/-- The rule of a name. -/
def rule (R : Rules) : (r : Rule) → Parser r.Result
  | .statement => R.statement
  | .assignment => R.assignment
  | .binary level => R.binary level
  | .unary => R.unary
  | .construction => R.construction
  | .type => R.type

/-- The rules that are given by their names. -/
def ofRule (f : (r : Rule) → Parser r.Result) : Rules where
  statement := f .statement
  assignment := f .assignment
  binary level := f (.binary level)
  unary := f .unary
  construction := f .construction
  type := f .type

theorem rule_ofRule (f : (r : Rule) → Parser r.Result) (r : Rule) : (ofRule f).rule r = f r := by
  cases r <;> rfl

theorem rule_ofRule_apply (f : (r : Rule) → Parser r.Result) (r : Rule) (c : Context)
    (ts : List Token) : (ofRule f).rule r c ts = f r c ts :=
  congrFun (congrFun (rule_ofRule f r) c) ts

theorem ofRule_rule (R : Rules) : ofRule R.rule = R := rfl

/-- The rules whose bodies call given ones. -/
def next (R : Rules) : Rules where
  statement := Grammar.statement R
  assignment := Grammar.assignment R
  binary := Grammar.binary R
  unary := Grammar.unary R
  construction := Grammar.construction R
  type := Grammar.type R

theorem ofDepth_succ (n : ℕ) : ofDepth (n + 1) = (ofDepth n).next := rfl

/-- Rules are enough if each of them is. -/
theorem enough_of_rule {n : ℕ} (h : ∀ (r : Rule) (c : Context) (ts : List Token) (a : ℕ),
    (r = .construction → 1 ≤ ts.length) → 4 * ts.length + r.rank ≤ n →
      (R.rule r).Takes c ts a (fun _ => a) fun _ => 1) : R.Enough n where
  statement c ts a := h .statement c ts a nofun
  assignment c ts a := h .assignment c ts a nofun
  binary level c ts a := h (.binary level) c ts a nofun
  unary c ts a := h .unary c ts a nofun
  construction c ts a hts := h .construction c ts a fun _ => hts
  type c ts a := h .type c ts a nofun

/-- The body of a rule takes a token, if the rules that it calls are enough. -/
theorem takes_next {n : ℕ} (h : R.Enough n) (r : Rule) (c : Context) {ts : List Token} (a : ℕ)
    (hts : 4 * ts.length + r.rank ≤ n + 1) :
    (R.next.rule r).Takes c ts a (fun _ => a) fun _ => 1 := by
  cases r with
  | statement => exact Grammar.takes_statement h hts
  | assignment => exact Grammar.takes_assignment h hts
  | binary level => exact Grammar.takes_binary h level hts
  | unary => exact Grammar.takes_unary h hts
  | construction => exact Grammar.takes_construction h hts
  | type => exact Grammar.takes_type h hts

end Rules

theorem Parser.Takes.ne_tooDeep {α : Type} {p : Parser α} {c : Context} {ts : List Token} {a : ℕ}
    {B I : α → ℕ} (h : p.Takes c ts a B I) : p c ts ≠ .tooDeep := by
  intro hp
  unfold Takes at h
  rw [hp] at h
  exact h

/-! ## Parsers on one and the same input -/

/-- One parser gives what another one gives, unless it gives up. -/
def Parser.Below {α : Type} (p p' : Parser α) : Prop :=
  ∀ c ts, p c ts ≠ .tooDeep → p' c ts = p c ts

/-- Rules give what others give, unless they give up. -/
def Rules.Below (R R' : Rules) : Prop :=
  ∀ r, (R.rule r).Below (R'.rule r)

namespace Parser

variable {α : Type} {V : α → α → Prop} {p p' : Parser α} {Q : Token → Prop}

theorem eq_of_forall₂ {ts ts' : List Token} (h : List.Forall₂ (Pairing.same Q).token ts ts') :
    ts = ts' := by
  induction h with
  | nil => rfl
  | cons ht _ ih => rw [ht.1, ih]

/-- To go the same way on the same input is to give the same result. -/
theorem tracks_same_iff (hV : ∀ x x', V x x' ↔ x = x') :
    p.Tracks (.same fun _ => True) V p' ↔ p.Below p' := by
  constructor
  · intro h c ts hne
    have hends : (Pairing.same fun _ => True).Ends c.ending c.ending := by
      cases c.ending with
      | complete pos => exact .complete ⟨rfl, trivial⟩
      | broken e => exact .broken e
    have hts : List.Forall₂ (Pairing.same fun _ => True).token ts ts :=
      List.forall₂_same.mpr fun _ _ => ⟨rfl, trivial⟩
    have ho := h ⟨c.ending, hends, rfl⟩ hts
    generalize p c ts = o, p' c ts = o' at ho hne
    cases ho with
    | ok hx hrest => rw [(hV _ _).mp hx, eq_of_forall₂ hrest]
    | rejected expected ht => rw [ht.1]
    | broken e => rfl
    | tooDeep => exact absurd rfl hne
  · rintro h c _ ts ts' ⟨e, he, rfl⟩ hts
    obtain rfl := eq_of_forall₂ hts
    obtain rfl : e = c.ending := by
      generalize c.ending = e₀ at he
      cases he with
      | complete hp => exact congrArg Ending.complete (congrArg Token.pos hp.1).symm
      | broken e => rfl
    have hbelow := h c ts
    generalize ho : p c ts = o at hbelow
    cases o with
    | ok x rest =>
      rw [hbelow (by simp)]
      exact .ok ((hV x x).mpr rfl) (List.forall₂_same.mpr fun _ _ => ⟨rfl, trivial⟩)
    | rejected error =>
      rw [hbelow (by simp)]
      have ht : (Pairing.same fun _ => True).token ⟨error.found, error.pos, false⟩
          ⟨error.found, error.pos, false⟩ := ⟨rfl, trivial⟩
      exact .rejected error.expected ht
    | broken error =>
      rw [hbelow (by simp)]
      exact .broken error
    | tooDeep => exact .tooDeep _

end Parser

namespace Rules

variable {R R' : Rules}

theorem tracks_same : R.Tracks (.same fun _ => True) R' ↔ R.Below R' := by
  have hexpr (e e' : Expr) : (Pairing.same fun _ => True).expr e e' ↔ e = e' := by
    change e.mapPos id = e'.mapPos id ↔ e = e'
    rw [e.mapPos_id, e'.mapPos_id]
  have hstmt (s s' : Stmt) : (Pairing.same fun _ => True).stmt s s' ↔ s = s' := by
    change s.mapPos id = s'.mapPos id ↔ s = s'
    rw [s.mapPos_id, s'.mapPos_id]
  constructor
  · intro h r
    cases r with
    | statement => exact (tracks_same_iff hstmt).mp h.statement
    | assignment => exact (tracks_same_iff hexpr).mp h.assignment
    | binary level => exact (tracks_same_iff hexpr).mp (h.binary level)
    | unary => exact (tracks_same_iff hexpr).mp h.unary
    | construction => exact (tracks_same_iff hexpr).mp h.construction
    | type => exact (tracks_same_iff fun _ _ => .rfl).mp h.type
  · intro h
    exact ⟨(tracks_same_iff hstmt).mpr (h .statement), (tracks_same_iff hexpr).mpr (h .assignment),
      fun level => (tracks_same_iff hexpr).mpr (h (.binary level)),
      (tracks_same_iff hexpr).mpr (h .unary), (tracks_same_iff hexpr).mpr (h .construction),
      (tracks_same_iff fun _ _ => .rfl).mpr (h .type)⟩

theorem Below.next (h : R.Below R') : R.next.Below R'.next := by
  have h := tracks_same.mpr h
  exact tracks_same.mp ⟨Grammar.tracks_statement h, Grammar.tracks_assignment h,
    Grammar.tracks_binary h, Grammar.tracks_unary h, Grammar.tracks_construction h,
    Grammar.tracks_type h⟩

theorem Below.program (h : R.Below R') : (Grammar.program R).Below (Grammar.program R') :=
  (tracks_same_iff fun p p' => by
    change p.mapPos id = p'.mapPos id ↔ p = p'
    rw [p.mapPos_id, p'.mapPos_id]).mp (Grammar.tracks_program (tracks_same.mpr h))

theorem below_ofDepth {n m : ℕ} (h : n ≤ m) : (ofDepth n).Below (ofDepth m) :=
  tracks_same.mp (tracks_ofDepth _ h)

/-! ## Rules without a depth -/

/-- The rules without a depth: on each input they go as deep as its tokens ask for. -/
def unbounded : Rules :=
  .ofRule fun r c ts => (ofDepth (depthFor ts.length)).rule r c ts

theorem rule_unbounded (r : Rule) (c : Context) (ts : List Token) :
    unbounded.rule r c ts = (ofDepth (4 * ts.length + 3)).next.rule r c ts := by
  have hdepth : depthFor ts.length = 4 * ts.length + 3 + 1 := Nat.mul_succ 4 ts.length
  have hrule : unbounded.rule r c ts = (ofDepth (depthFor ts.length)).rule r c ts :=
    rule_ofRule_apply _ r c ts
  rw [hrule, hdepth, ofDepth_succ]

theorem takes_unbounded (r : Rule) (c : Context) (ts : List Token) (a : ℕ) :
    (unbounded.rule r).Takes c ts a (fun _ => a) fun _ => 1 := by
  unfold Takes
  rw [rule_unbounded]
  exact takes_next (enough_ofDepth _) r c a (by have := r.rank_le; omega)

/-- The rules without a depth are enough for every input. -/
theorem enough_unbounded (n : ℕ) : unbounded.Enough n :=
  enough_of_rule fun r c ts a _ _ => takes_unbounded r c ts a

/-- The rules without a depth give what those of any depth give. -/
theorem below_unbounded (n : ℕ) : (ofDepth n).Below unbounded := by
  intro r c ts hne
  have henough := (takes_unbounded r c ts 0).ne_tooDeep
  rw [rule_unbounded, ← ofDepth_succ] at henough ⊢
  obtain h | h := Nat.le_total n (4 * ts.length + 3 + 1)
  · exact below_ofDepth h r c ts hne
  · exact (below_ofDepth h r c ts henough).symm

/-- The rules without a depth call each other. -/
theorem next_unbounded : unbounded.next = unbounded := by
  have hrule (r : Rule) : unbounded.next.rule r = unbounded.rule r := by
    funext c ts
    have henough := (takes_unbounded r c ts 0).ne_tooDeep
    rw [rule_unbounded] at henough ⊢
    exact (below_unbounded _).next r c ts henough
  rw [← ofRule_rule unbounded.next, funext hrule, ofRule_rule]

end Rules

/-- The parser of a program is one over the rules without a depth. -/
theorem Grammar.program_ofDepth {c : Context} {ts : List Token} {n : ℕ}
    (hn : depthFor ts.length ≤ n) : program (.ofDepth n) c ts = program .unbounded c ts := by
  have htakes := takes_program (c := c) (a := 0) (Rules.enough_ofDepth n) hn
  exact ((Rules.below_unbounded n).program c ts htakes.ne_tooDeep).symm

end CoScript
