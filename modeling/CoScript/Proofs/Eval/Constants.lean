import CoScript.Proofs.Eval.Scopes

/-!
# Constants at a step

A constant keeps its value at every step of every task, unless the step gives a value to a `var` of
the same name, in the scope of the function that the constant is in, or makes a function that a
statement declares with that name in its scope.

Results:
* `assign_isConst`, `define_isConst`: writes that fail on a constant.
* `Thread.Overwrites`: the steps that write a constant.
* `Thread.step_isConst`: any other step leaves it alone.
* `Thread.declare_overwrites`: such a `var` writes the constant, which stays one.
-/

namespace CoScript

variable {r scope : Ref .scope} {name : String} {v : Value}

/-! ## Steps that fail -/

/-- An assignment to a constant ends with a fault and changes nothing. -/
theorem assign_isConst {w : World} (h : w.heap.scopes.IsConst r name v)
    (hfind : w.heap.scopes.find? scope name = some r) (v' : Value) (pos : Position) :
    (Effect.assign scope name v' pos).run w =
      (.error (.fault ⟨.constant name, some pos, none⟩), w) := by
  have htarget : w.heap.scopes.assignTarget scope name = .error (.constant name) := by
    have hassign := h.assign hfind v'
    rw [Scopes.assign] at hassign
    cases ht : w.heap.scopes.assignTarget scope name with
    | error cause =>
      rw [ht] at hassign
      cases hassign
      rfl
    | ok target =>
      rw [ht] at hassign
      cases hassign
  unfold Effect.assign
  rw [run_heap_bind, htarget]
  rfl

/-- Another declaration of a constant in its scope ends with a fault and changes nothing. -/
theorem define_isConst {w : World} (h : w.heap.scopes.IsConst r name v) (v' : Value)
    (isConst : Bool) (pos : Option Position) :
    (Effect.define r name v' isConst pos).run w =
      (.error (.fault ⟨.redeclared name, pos, none⟩), w) := by
  have hfault : w.heap.scopes.defineFault? r name = some (.redeclared name) := by
    have hdefine := h.define v' isConst
    rw [Scopes.define] at hdefine
    cases hd : w.heap.scopes.defineFault? r name with
    | some cause =>
      rw [hd] at hdefine
      cases hdefine
      rfl
    | none =>
      rw [hd] at hdefine
      cases hdefine
  unfold Effect.define
  rw [run_heap_bind, hfault]
  rfl

/-! ## Steps that look at nothing -/

/-- The next step of a thread writes a name in a scope without a look at what it is there: the scope
    is that of the statements whose functions it makes, or of the function around a `var`. -/
inductive Thread.Overwrites (w : World) (r : Ref .scope) (name : String) : Thread → Prop
  | hoist {t : Thread} {ss : List Stmt} {d : FunctionDecl} (hc : t.control = .statements ss r)
      (hd : .functionDecl d ∈ ss) (hname : d.name = name) : Overwrites w r name t
  | declare {t : Thread} {v : Value} {pos : Position} {scope : Ref .scope} {below : List Frame}
      (hc : t.control = .ret v) (hs : t.stack = .declare .function name pos scope :: below)
      (hscope : w.heap.scopes.functionScope scope = r) : Overwrites w r name t
  | item {t : Thread} {loop : ItemLoop} (ht : t.Visits loop) (hkind : loop.kind = .function)
      (hname : loop.name = name)
      (hscope : (w.heap.newScope (some loop.scope) false).2.scopes.functionScope
        (w.heap.newScope (some loop.scope) false).1 = r) : Overwrites w r name t

/-- Any other step leaves a constant alone. -/
theorem Thread.step_isConst (ps : Promises) {t : Thread} {w : World}
    (h : w.heap.scopes.IsConst r name v) (ht : ¬ t.Overwrites w r name) :
    ((t.step ps).run w).2.heap.scopes.IsConst r name v := by
  refine (Scopes.sparing_isConst r name v).step ps h ⟨fun ss scope hc d hd s f hs => ?_,
    fun v' name' pos scope below hc hstack => ?_, fun loop hloop hkind v' => ?_⟩
  · refine hs.hoist_of_ne ?_ f
    rintro ⟨rfl, rfl⟩
    exact ht (.hoist hc hd rfl)
  · refine h.declareVar_of_ne ?_ _
    rintro ⟨rfl, rfl⟩
    exact ht (.declare hc hstack rfl)
  · have hnew : (w.heap.scopes.new (some loop.scope) false).2.IsConst r name v :=
      Scopes.binding?_new h _ _
    refine hnew.declareVar_of_ne ?_ _
    rintro ⟨rfl, rfl⟩
    exact ht (.item hloop hkind rfl rfl)

/-- A `var` with a value writes the constant of that name in the scope of the function, which stays
    a constant. -/
theorem Thread.declare_overwrites (ps : Promises) {t : Thread} {w : World} {v' : Value}
    {pos : Position} {below : List Frame} (h : w.heap.scopes.IsConst r name v)
    (hc : t.control = .ret v') (hs : t.stack = .declare .function name pos scope :: below)
    (hscope : w.heap.scopes.functionScope scope = r) :
    ((t.step ps).run w).2.heap.scopes.IsConst r name v' := by
  obtain ⟨control, stack, base⟩ := t
  obtain rfl : control = .ret v' := hc
  obtain rfl : stack = .declare .function name pos scope :: below := hs
  change ((w.heap.nameFunction v' name).scopes.declareVar scope name (some v')).IsConst r name v'
  rw [scopes_nameFunction]
  exact h.declareVar hscope v'

end CoScript
