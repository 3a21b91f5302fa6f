import CoScript.Store.Scopes
import Mathlib.Data.Nat.Notation

/-!
# Constants in scopes

A constant keeps its value under new scopes, under declarations of new names and under assignments.
Two writes do not look at whether a binding is constant: `var` with a value, which keeps it a
constant but gives it the new value, and the function that a declaration names, which takes its
place.

Results:
* `Scopes.binding?_bind`, `Scopes.binding?_new`, `Scopes.binding?_copy`: a binding after a write.
* `Scopes.IsConst`: a name is a constant in a scope.
* `Scopes.Sparing`: what no write takes away but the two that look at nothing.
* `Scopes.sparing_isConst`: a constant is such a thing.
* `Scopes.IsConst.declareVar`, `Scopes.IsConst.hoist`: what the two other writes do to a constant.
-/

namespace CoScript.Scopes

variable {s : Scopes} {r r' : Ref .scope} {name name' : String} {b : Binding} {v : Value}

/-! ## Bindings after a write -/

theorem lt_of_binding? (h : s.binding? r name = some b) : r.index < s.cells.size := by
  refine Nat.lt_of_not_le fun hle => ?_
  have hget : s.get r = default := by
    simp [get, Array.getD_eq_getD_getElem?, Array.getElem?_eq_none hle]
  rw [binding?, hget] at h
  cases h

/-- A write is seen where it was made and nowhere else. -/
theorem binding?_bind (s : Scopes) (r r' : Ref .scope) (name name' : String) (b : Binding) :
    (s.bind r name b).binding? r' name' =
      if r' = r ∧ name' = name ∧ r.index < s.cells.size then some b else s.binding? r' name' := by
  by_cases hr : r' = r
  · subst hr
    by_cases hlt : r'.index < s.cells.size
    · by_cases hname : name' = name
      · subst hname
        simp [binding?, bind, modify, get, Array.getD_eq_getD_getElem?, Array.getElem_modify, hlt,
          Ordered.get?_set_self]
      · simp [binding?, bind, modify, get, Array.getD_eq_getD_getElem?, Array.getElem_modify, hlt,
          hname, Ordered.get?_set_of_ne _ hname]
    · simp [binding?, bind, modify, get, Array.getD_eq_getD_getElem?, hlt]
  · have hne : ¬ r.index = r'.index := fun h => hr (Ref.index_inj.mp h).symm
    simp [binding?, bind, modify, get, Array.getD_eq_getD_getElem?, Array.getElem?_modify, hr, hne]

theorem binding?_bind_of_ne (h : ¬ (r' = r ∧ name' = name)) :
    (s.bind r name b).binding? r' name' = s.binding? r' name' := by
  rw [binding?_bind, if_neg fun hsame => h ⟨hsame.1, hsame.2.1⟩]

/-- The scopes that are there keep their bindings when one is added. -/
theorem binding?_push {c : Scope} (h : r.index < s.cells.size) :
    (⟨s.cells.push c⟩ : Scopes).binding? r name = s.binding? r name := by
  simp [binding?, get, Array.getD_eq_getD_getElem?, Array.getElem?_push, Nat.ne_of_lt h]

theorem binding?_new (h : s.binding? r name = some b) (parent : Option (Ref .scope))
    (isFunction : Bool) : (s.new parent isFunction).2.binding? r name = some b :=
  (binding?_push (lt_of_binding? h)).trans h

theorem binding?_copy (h : s.binding? r name = some b) (r' : Ref .scope) :
    (s.copy r').2.binding? r name = some b :=
  (binding?_push (lt_of_binding? h)).trans h

/-! ## Constants -/

/-- A name is a constant in a scope, with a value. -/
def IsConst (s : Scopes) (r : Ref .scope) (name : String) (v : Value) : Prop :=
  s.binding? r name = some ⟨v, true⟩

/-- A declaration of a constant makes one. -/
theorem define_isConst {s' : Scopes} (h : s.define r name v true = .ok s')
    (hr : r.index < s.cells.size) : s'.IsConst r name v := by
  unfold define at h
  split at h
  · cases h
  · cases h
    rw [IsConst, binding?_bind, if_pos ⟨rfl, rfl, hr⟩]

/-- What a place reads that finds a constant. -/
theorem IsConst.lookup (h : s.IsConst r name v) (hfind : s.find? r' name = some r) :
    s.lookup r' name = .ok v := by
  have hresolve : s.resolve? r' name = some ⟨v, true⟩ := by
    rw [resolve?, hfind]
    exact h
  rw [Scopes.lookup, hresolve]

/-- No place that finds a constant can write it. -/
theorem IsConst.assign (h : s.IsConst r name v) (hfind : s.find? r' name = some r) (v' : Value) :
    s.assign r' name v' = .error (.constant name) := by
  rw [Scopes.assign, assignTarget, hfind]
  simp only
  rw [h]
  rfl

/-- A constant cannot be declared again in its scope. -/
theorem IsConst.define (h : s.IsConst r name v) (v' : Value) (isConst : Bool) :
    s.define r name v' isConst = .error (.redeclared name) := by
  have hthere : (s.get r).bindings.contains name = true := by
    have hget : (s.get r).bindings.get? name = some ⟨v, true⟩ := h
    rw [Ordered.contains, hget]
    rfl
  rw [Scopes.define, defineFault?, if_pos hthere]

/-! ## Writes that look at what is there -/

/-- Something that no write takes away: neither a new scope nor a copy of one, neither a declaration
    of a name that a scope does not have nor a `var` without a value, nor an assignment. -/
structure Sparing (I : Scopes → Prop) : Prop where
  new : ∀ {s : Scopes} (parent : Option (Ref .scope)) (isFunction : Bool), I s →
    I (s.new parent isFunction).2
  copy : ∀ {s : Scopes} (r : Ref .scope), I s → I (s.copy r).2
  define : ∀ {s : Scopes} {r : Ref .scope} {name : String} (b : Binding),
    s.defineFault? r name = none → I s → I (s.bind r name b)
  assign : ∀ {s : Scopes} {r target : Ref .scope} {name : String} (v : Value),
    s.assignTarget r name = .ok target → I s → I (s.bind target name ⟨v, false⟩)
  declareVar : ∀ {s : Scopes} (r : Ref .scope) (name : String), I s → I (s.declareVar r name none)

/-- An assignment writes no constant. -/
theorem binding?_assignTarget {target : Ref .scope} (h : s.assignTarget r name = .ok target) :
    s.binding? target name ≠ some ⟨v, true⟩ := by
  intro hb
  unfold assignTarget at h
  split at h
  · cases h
  · split at h
    · cases h
    · rename_i hother
      cases h
      exact hother v hb

/-- No write that looks at what is there changes a constant. -/
theorem sparing_isConst (r : Ref .scope) (name : String) (v : Value) :
    Sparing fun s => s.IsConst r name v where
  new parent isFunction h := binding?_new h parent isFunction
  copy r' h := binding?_copy h r'
  define {s r' name'} b hfree h := by
    refine (binding?_bind_of_ne ?_).trans h
    rintro ⟨rfl, rfl⟩
    have hdefine : s.define r name b.value b.isConst = .error (.redeclared name) :=
      IsConst.define h b.value b.isConst
    rw [Scopes.define, hfree] at hdefine
    cases hdefine
  assign {s r' target name'} v' htarget h := by
    refine (binding?_bind_of_ne ?_).trans h
    rintro ⟨rfl, rfl⟩
    exact binding?_assignTarget htarget h
  declareVar {s} r' name' h := by
    unfold Scopes.declareVar
    dsimp only
    split
    · rename_i hnone
      refine (binding?_bind_of_ne ?_).trans h
      rintro ⟨rfl, rfl⟩
      exact absurd (h.symm.trans hnone) (by simp)
    · rename_i hsome
      cases hsome
    · exact h

/-! ## The two writes that do not -/

/-- A `var` with a value leaves the constants of other names and of other scopes alone. -/
theorem IsConst.declareVar_of_ne (h : s.IsConst r name v)
    (hne : ¬ (r = s.functionScope r' ∧ name = name')) (value : Option Value) :
    (s.declareVar r' name' value).IsConst r name v := by
  have hbind : ∀ b, (s.bind (s.functionScope r') name' b).IsConst r name v :=
    fun _ => (binding?_bind_of_ne hne).trans h
  unfold Scopes.declareVar
  dsimp only
  split
  · exact hbind _
  · exact hbind _
  · exact h

/-- A `var` with a value gives it to the constant of that name in the scope of the function, which
    stays a constant. -/
theorem IsConst.declareVar (h : s.IsConst r name v) (hr : s.functionScope r' = r) (v' : Value) :
    (s.declareVar r' name (some v')).IsConst r name v' := by
  have hb : s.binding? r name = some ⟨v, true⟩ := h
  have heq : s.declareVar r' name (some v') = s.bind r name ⟨v', true⟩ := by
    simp only [Scopes.declareVar, hr, hb]
  rw [heq]
  exact (binding?_bind ..).trans (if_pos ⟨rfl, rfl, lt_of_binding? h⟩)

/-- The function that a declaration names leaves the constants of other names and of other scopes
    alone. -/
theorem IsConst.hoist_of_ne (h : s.IsConst r name v) (hne : ¬ (r = r' ∧ name = name'))
    (v' : Value) : (s.hoist r' name' v').IsConst r name v :=
  (binding?_bind_of_ne hne).trans h

/-- The function that a declaration names takes the place of a constant, and is none. -/
theorem IsConst.hoist (h : s.IsConst r name v) (v' : Value) :
    (s.hoist r name v').binding? r name = some ⟨v', false⟩ :=
  (binding?_bind ..).trans (if_pos ⟨rfl, rfl, lt_of_binding? h⟩)

end CoScript.Scopes
