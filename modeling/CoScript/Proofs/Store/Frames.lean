import CoScript.Proofs.Store.Constants
import CoScript.Proofs.Store.Enclosing

/-!
# What an operation on scopes touches

An operation on scopes adds a scope, writes one binding or fails. Everything else stays as it is, so
a name means what it did before unless it leads to the binding that was written. One that fails
leaves the whole world as it is.

A scope and its copy are apart from then on. What is done through one of them, or through scopes
inside it, is not seen through the other in any name that was bound when the copy was made.

Results:
* `Scopes.Does`: the specification of the operations.
* `Scopes.Operation.does_run`: the operations do what is specified.
* `Scopes.Change.lookup_eq`: what a name means after a change.
* `Scopes.get_after`: an operation changes only what is around its place.
* `Scopes.Twins.lookup_leads`: a scope and its copy are apart.
* `Scopes.Forest.touches_one_binding`: the whole.
-/

namespace CoScript

/-- Writing a key that is not there puts it behind the others. -/
theorem Ordered.keys_set_of_not_mem {α : Type} (m : Ordered α) {key : String}
    (h : m.get? key = none) (value : α) : (m.set key value).keys = m.keys ++ [key] := by
  obtain ⟨es⟩ := m
  simp only [get?, keys, set] at h ⊢
  induction es with
  | nil => rfl
  | cons e es ih =>
    rw [find] at h
    rw [put]
    split at h
    · cases h
    · rename_i hne
      rw [if_neg hne, List.map_cons, ih h]
      rfl

namespace Scopes

/-! ## Specification -/

/-- What code does with scopes. -/
inductive Operation where
  | new (parent : Option (Ref .scope)) (isFunction : Bool)
  | copy (scope : Ref .scope)
  | define (scope : Ref .scope) (name : String) (value : Value) (isConst : Bool)
  | hoist (scope : Ref .scope) (name : String) (value : Value)
  | declareVar (scope : Ref .scope) (name : String) (value : Option Value)
  | assign (scope : Ref .scope) (name : String) (value : Value)

namespace Operation

/-- The scope that an operation is done through. -/
def place? : Operation → Option (Ref .scope)
  | new parent _ => parent
  | copy r => some r
  | define r _ _ _ => some r
  | hoist r _ _ => some r
  | declareVar r _ _ => some r
  | assign r _ _ => some r

/-- An operation is done through scopes with a property, if it is done through one at all. -/
def Through (p : Ref .scope → Prop) (op : Operation) : Prop :=
  ∀ r, op.place? = some r → p r

/-- What an operation makes of scopes, or why it fails. -/
def run (s : Scopes) : Operation → Except FaultCause Scopes
  | new parent isFunction => .ok (s.new parent isFunction).2
  | copy r => .ok (s.copy r).2
  | define r name v isConst => s.define r name v isConst
  | hoist r name v => .ok (s.hoist r name v)
  | declareVar r name v => .ok (s.declareVar r name v)
  | assign r name v => s.assign r name v

/-- An operation as a part of a program. -/
def effect (pos : Position) : Operation → Effect Unit
  | new parent isFunction => Effect.modifyHeap fun h => (h.newScope parent isFunction).2
  | copy r => Effect.modifyHeap fun h => (h.copyScope r).2
  | define r name v isConst => Effect.define r name v isConst (some pos)
  | hoist r name v => Effect.modifyHeap fun h => { h with scopes := h.scopes.hoist r name v }
  | declareVar r name v => Effect.declareVar r name v
  | assign r name v => Effect.assign r name v pos

end Operation

/-- What an operation that succeeds changes: nothing, one binding, or that there is a scope more. -/
inductive Change where
  | nothing
  | write (scope : Ref .scope) (name : String) (b : Binding)
  | add (c : Scope)

/-- What an operation is to do: the change that it makes, or how it fails. -/
inductive Does (s : Scopes) : Operation → Except FaultCause Change → Prop
  | new {parent isFunction} :
    Does s (.new parent isFunction) (.ok (.add ⟨parent, isFunction || parent.isNone, .empty⟩))
  | copy {r} : Does s (.copy r) (.ok (.add (s.get r)))
  | define {r name v isConst} (hfree : s.binding? r name = none) :
    Does s (.define r name v isConst) (.ok (.write r name ⟨v, isConst⟩))
  | redeclared {r name v isConst b} (hb : s.binding? r name = some b) :
    Does s (.define r name v isConst) (.error (.redeclared name))
  | hoist {r name v} : Does s (.hoist r name v) (.ok (.write r name ⟨v, false⟩))
  | declare {r t name v} (ht : s.Nearest (·.isFunction) r t) (hfree : s.binding? t name = none) :
    Does s (.declareVar r name v) (.ok (.write t name ⟨v.getD .undefined, false⟩))
  | declareAgain {r t name b} (ht : s.Nearest (·.isFunction) r t)
    (hb : s.binding? t name = some b) : Does s (.declareVar r name none) (.ok .nothing)
  | declareValue {r t name b v} (ht : s.Nearest (·.isFunction) r t)
    (hb : s.binding? t name = some b) :
    Does s (.declareVar r name (some v)) (.ok (.write t name { b with value := v }))
  | assign {r t name b v} (ht : s.Nearest (·.Binds name) r t) (hb : s.binding? t name = some b)
    (hvar : b.isConst = false) :
    Does s (.assign r name v) (.ok (.write t name { b with value := v }))
  | unbound {r name v} (hnone : ∀ u, s.Inside u r → ¬ (s.get u).Binds name) :
    Does s (.assign r name v) (.error (.unbound name))
  | constant {r t name b v} (ht : s.Nearest (·.Binds name) r t) (hb : s.binding? t name = some b)
    (hconst : b.isConst = true) : Does s (.assign r name v) (.error (.constant name))

/-- One binding was written, and all else is the same. A name that is new comes last. -/
structure Wrote (s s' : Scopes) (t : Ref .scope) (name : String) (b : Binding) : Prop where
  size : s'.cells.size = s.cells.size
  others : ∀ u, u ≠ t → s'.get u = s.get u
  parent : (s'.get t).parent = (s.get t).parent
  isFunction : (s'.get t).isFunction = (s.get t).isFunction
  written : s'.binding? t name = some b
  names : ∀ x, x ≠ name → s'.binding? t x = s.binding? t x
  keys : (s'.get t).bindings.keys =
    (s.get t).bindings.keys ++ if (s.get t).bindings.contains name then [] else [name]

/-- There is one scope more, and all others are the same. -/
structure Added (s s' : Scopes) (c : Scope) : Prop where
  size : s'.cells.size = s.cells.size + 1
  others : ∀ u, s.Has u → s'.get u = s.get u
  last : s'.get ⟨s.cells.size⟩ = c

namespace Change

/-- Scopes become others by a change. -/
def Between (s s' : Scopes) : Change → Prop
  | nothing => s' = s
  | write t name b => s.Wrote s' t name b
  | add c => s.Added s' c

/-- The value that a change gives a name at a place, if the name leads to what was written. -/
def given? (s' : Scopes) (e : Ref .scope) (x : String) : Change → Option Value
  | write t name b => if x = name ∧ s'.find? e x = some t then some b.value else none
  | _ => none

end Change

/-- The scopes after an operation; one that fails leaves them as they are. -/
def after (s : Scopes) (op : Operation) : Scopes :=
  match op.run s with
  | .ok s' => s'
  | .error _ => s

/-- Operations lead from scopes to others, each through a scope that exists and has a property when
    its turn comes. -/
inductive Leads (p : Scopes → Ref .scope → Prop) : Scopes → Scopes → Prop
  | refl {s} : Leads p s s
  | step {s s'} {op : Operation} (hop : op.Through fun r => s.Has r ∧ p s r)
    (h : Leads p (s.after op) s') : Leads p s s'

/-- Two scopes inside the same one. -/
structure Twins (s : Scopes) (a b : Ref .scope) : Prop where
  left : s.Has a
  right : s.Has b
  ne : a ≠ b
  parent : (s.get a).parent = (s.get b).parent

variable {s s' s'' : Scopes} {r t e u a b : Ref .scope} {name x : String} {op : Operation}
  {change : Change}

/-! ## The operations in a program -/

/-- As a part of a program, an operation that fails changes nothing. -/
theorem Operation.run_effect (op : Operation) (pos : Position) (w : World) :
    (op.effect pos).run w =
      match op.run w.heap.scopes with
      | .ok s' => (.ok (), { w with heap := { w.heap with scopes := s' } })
      | .error cause => (.error (.fault ⟨cause, some pos, none⟩), w) := by
  cases op with
  | define r name v isConst =>
    rw [effect, Effect.define, run_heap_bind, run, Scopes.define]
    cases w.heap.scopes.defineFault? r name <;> rfl
  | assign r name v =>
    rw [effect, Effect.assign, run_heap_bind, run, Scopes.assign]
    cases w.heap.scopes.assignTarget r name <;> rfl
  | _ => rfl

/-! ## The operations do what is specified -/

theorem get_bind_self (hr : s.Has r) (name : String) (b : Binding) :
    (s.bind r name b).get r =
      { s.get r with bindings := (s.get r).bindings.set name b } := by
  unfold bind modify get
  rw [Array.getD_eq_getD_getElem?, Array.getD_eq_getD_getElem?, Array.getElem?_modify, if_pos rfl,
    Array.getElem?_eq_getElem hr]
  rfl

theorem wrote_bind (hr : s.Has r) (name : String) (b : Binding) :
    s.Wrote (s.bind r name b) r name b where
  size := s.size_bind r name b
  others _ hu := s.get_bind_of_ne hu
  parent := s.parent_bind r r name b
  isFunction := by rw [get_bind_self hr]
  written := (binding?_bind ..).trans (if_pos ⟨rfl, rfl, hr⟩)
  names _ hx := binding?_bind_of_ne fun h => hx h.2
  keys := by
    rw [get_bind_self hr]
    by_cases hb : (s.get r).bindings.contains name
    · rw [if_pos hb, List.append_nil, Ordered.keys_set_of_mem _ hb]
    · rw [if_neg hb]
      exact Ordered.keys_set_of_not_mem _ (Option.not_isSome_iff_eq_none.mp hb) b

theorem added_push (s : Scopes) (c : Scope) : s.Added ⟨s.cells.push c⟩ c :=
  ⟨Array.size_push _, fun _ => get_push, get_push_size s c⟩

/-- Each operation does what is specified for it. -/
theorem Operation.does_run (hs : s.Forest) (op : Operation) (hop : op.Through s.Has) :
    match op.run s with
    | .ok s' => ∃ change, s.Does op (.ok change) ∧ change.Between s s'
    | .error cause => s.Does op (.error cause) := by
  cases op with
  | new parent isFunction => exact ⟨_, .new, added_push s _⟩
  | copy r => exact ⟨_, .copy, added_push s _⟩
  | hoist r name v => exact ⟨_, .hoist, wrote_bind (hop r rfl) name _⟩
  | define r name v isConst =>
    cases hb : s.binding? r name with
    | some b =>
      have hbound : (s.get r).bindings.contains name = true := Option.isSome_of_eq_some hb
      simp only [run, Scopes.define, defineFault?, hbound, if_true]
      exact .redeclared hb
    | none =>
      have hfree : ¬ (s.get r).bindings.contains name = true := Option.not_isSome_iff_eq_none.mpr hb
      simp only [run, Scopes.define, defineFault?, hfree]
      exact ⟨_, .define hb, wrote_bind (hop r rfl) name _⟩
  | declareVar r name v =>
    have ht := hs.nearest_functionScope r
    have hhas := ht.around.has hs.outward (hop r rfl)
    cases hb : s.binding? (s.functionScope r) name with
    | none =>
      simp only [run, Scopes.declareVar, hb]
      exact ⟨_, .declare ht hb, wrote_bind hhas name _⟩
    | some b =>
      cases v with
      | none =>
        simp only [run, Scopes.declareVar, hb]
        exact ⟨_, .declareAgain ht hb, rfl⟩
      | some v =>
        simp only [run, Scopes.declareVar, hb]
        exact ⟨_, .declareValue ht hb, wrote_bind hhas name _⟩
  | assign r name v =>
    cases hfind : s.find? r name with
    | none =>
      simp only [run, Scopes.assign, assignTarget, hfind]
      exact .unbound ((find?_eq_none_iff hs.outward).mp hfind)
    | some t =>
      have ht := (find?_eq_some_iff hs.outward).mp hfind
      obtain ⟨⟨old, isConst⟩, hb⟩ := Option.isSome_iff_exists.mp ht.has
      have hb : s.binding? t name = some ⟨old, isConst⟩ := hb
      simp only [run, Scopes.assign, assignTarget, hfind, hb]
      cases isConst with
      | true => exact .constant ht hb rfl
      | false =>
        exact ⟨_, .assign ht hb rfl, wrote_bind (ht.around.has hs.outward (hop r rfl)) name _⟩

/-- An operation writes only around its place. -/
theorem Does.inside_place {b : Binding} (h : s.Does op (.ok (.write t name b))) :
    ∃ r, op.place? = some r ∧ s.Inside t r := by
  cases h with
  | define | hoist => exact ⟨t, rfl, .self⟩
  | declare ht | declareValue ht | assign ht => exact ⟨_, rfl, ht.around⟩

/-! ## Scopes that go on -/

/-- Scopes go on in others: they stay where they are, and what they bind stays bound. -/
structure Extends (s s' : Scopes) : Prop where
  size_le : s.cells.size ≤ s'.cells.size
  parent : ∀ u, s.Has u → (s'.get u).parent = (s.get u).parent
  binds : ∀ u x, (s.get u).Binds x → (s'.get u).Binds x

namespace Extends

theorem refl (s : Scopes) : s.Extends s :=
  ⟨Nat.le_refl _, fun _ _ => rfl, fun _ _ h => h⟩

theorem has (h : s.Extends s') (hu : s.Has u) : s'.Has u :=
  Nat.lt_of_lt_of_le hu h.size_le

theorem trans (h : s.Extends s') (h' : s'.Extends s'') : s.Extends s'' :=
  ⟨Nat.le_trans h.size_le h'.size_le,
    fun u hu => (h'.parent u (h.has hu)).trans (h.parent u hu),
    fun u x hx => h'.binds u x (h.binds u x hx)⟩

/-- A name that leads, after all, to a binding that is as it was, means what it did. -/
theorem lookup_eq (h : s.Extends s') (hs : s.Outward) (hs' : s'.Outward) (he : s.Has e)
    (hfound : ∀ u, s'.Nearest (·.Binds x) e u → s'.binding? u x = s.binding? u x) :
    s'.lookup e x = s.lookup e x := by
  have hinside : ∀ {u}, s'.Inside u e ↔ s.Inside u e := inside_iff hs h.parent he
  have hresolve : s'.resolve? e x = s.resolve? e x := by
    rw [resolve?, resolve?]
    cases hfind : s'.find? e x with
    | none =>
      have hnone := (find?_eq_none_iff hs').mp hfind
      have hfind' : s.find? e x = none := (find?_eq_none_iff hs).mpr fun u hu hx =>
        hnone u (hinside.mpr hu) (h.binds u x hx)
      rw [hfind']
      rfl
    | some u =>
      have hu := (find?_eq_some_iff hs').mp hfind
      have hsame := hfound u hu
      have haround := hinside.mp hu.around
      have hbinds : (s.get u).Binds x := (congrArg Option.isSome hsame).symm.trans hu.has
      have hfind' : s.find? e x = some u := (find?_eq_some_iff hs).mpr ⟨haround, hbinds,
        fun w hw hx => (inside_iff hs h.parent (haround.has hs he)).mp
          (hu.innermost w (hinside.mpr hw) (h.binds w x hx))⟩
      rw [hfind']
      exact hsame
  rw [lookup, lookup, hresolve]

end Extends

theorem Wrote.extends {b : Binding} (h : s.Wrote s' t name b) : s.Extends s' where
  size_le := Nat.le_of_eq h.size.symm
  parent u _ := by
    by_cases hu : u = t
    · rw [hu, h.parent]
    · rw [h.others u hu]
  binds u x hx := by
    by_cases hu : u = t
    · subst hu
      by_cases hname : x = name
      · exact hname ▸ Option.isSome_of_eq_some h.written
      · exact (congrArg Option.isSome (h.names x hname)).trans hx
    · rwa [h.others u hu]

/-- A name is bound only in a scope that exists. -/
theorem has_of_binds (h : (s.get u).Binds x) : s.Has u := by
  obtain ⟨b, hb⟩ := Option.isSome_iff_exists.mp h
  exact lt_of_binding? hb

theorem Added.extends {c : Scope} (h : s.Added s' c) : s.Extends s' where
  size_le := Nat.le_of_lt (h.size ▸ Nat.lt_succ_self _)
  parent u hu := by rw [h.others u hu]
  binds u x hx := by rwa [h.others u (has_of_binds hx)]

theorem Change.Between.extends (h : change.Between s s') : s.Extends s' := by
  cases change with
  | nothing => exact h ▸ .refl s
  | write => exact Wrote.extends h
  | add => exact Added.extends h

/-! ## What a name means after a change -/

theorem Wrote.forest {b : Binding} (h : s.Wrote s' t name b) (hs : s.Forest) : s'.Forest := by
  have hsame : ∀ u, (s'.get u).parent = (s.get u).parent ∧
      (s'.get u).isFunction = (s.get u).isFunction := by
    intro u
    by_cases hu : u = t
    · exact hu ▸ ⟨h.parent, h.isFunction⟩
    · rw [h.others u hu]
      exact ⟨rfl, rfl⟩
  exact ⟨fun u p hp => hs.outward u p ((hsame u).1 ▸ hp),
    fun u hp => (hsame u).2.trans (hs.root u ((hsame u).1 ▸ hp))⟩

theorem Added.get_of_ne {c : Scope} (h : s.Added s' c) (hu : u.index ≠ s.cells.size) :
    s'.get u = s.get u := by
  by_cases hhas : s.Has u
  · exact h.others u hhas
  · have hhas' : ¬ s'.Has u := by
      have hsize := h.size
      simp only [Has] at hhas ⊢
      omega
    rw [get_of_not_has hhas, get_of_not_has hhas']

/-- A new scope lies inside one that exists, or counts as that of a function. -/
theorem Added.forest {c : Scope} (h : s.Added s' c) (hs : s.Forest)
    (hparent : ∀ p, c.parent = some p → s.Has p) (hroot : c.parent = none → c.isFunction) :
    s'.Forest := by
  have hlast : ∀ u : Ref .scope, u.index = s.cells.size → s'.get u = c := by
    rintro ⟨_⟩ rfl
    exact h.last
  constructor
  · intro u p hp
    by_cases hu : u.index = s.cells.size
    · rw [hlast u hu] at hp
      exact hu ▸ hparent p hp
    · exact hs.outward u p (h.get_of_ne hu ▸ hp)
  · intro u hp
    by_cases hu : u.index = s.cells.size
    · rw [hlast u hu] at hp ⊢
      exact hroot hp
    · rw [h.get_of_ne hu] at hp ⊢
      exact hs.root u hp

theorem forest_empty : empty.Forest :=
  ⟨fun _ _ hp => absurd (has_of_parent hp) (Nat.not_lt_zero _), fun _ _ => rfl⟩

/-- An operation that succeeds leaves a forest. -/
theorem Does.forest (h : s.Does op (.ok change)) (hop : op.Through s.Has)
    (hbetween : change.Between s s') (hs : s.Forest) : s'.Forest := by
  cases h with
  | @new parent isFunction =>
    refine Added.forest hbetween hs (fun p hp => hop p hp) fun hp => ?_
    rw [show parent = none from hp, Option.isNone_none, Bool.or_true]
  | @copy r =>
    exact Added.forest hbetween hs (fun p hp => hs.outward.has hp) fun hp => hs.root r hp
  | declareAgain => exact hbetween ▸ hs
  | _ => exact Wrote.forest hbetween hs

/-- A place reads what was written if its name leads there, and what it read before if not. -/
theorem Wrote.lookup_eq {b : Binding} (h : s.Wrote s' t name b) (hs : s.Forest) (he : s.Has e)
    (x : String) :
    s'.lookup e x =
      if x = name ∧ s'.find? e x = some t then .ok b.value else s.lookup e x := by
  have hs' := (h.forest hs).outward
  split
  · rename_i hleads
    obtain ⟨rfl, hfind⟩ := hleads
    have hresolve : s'.resolve? e x = some b := by
      rw [resolve?, hfind]
      exact h.written
    rw [lookup, hresolve]
  · rename_i hleads
    refine h.extends.lookup_eq hs.outward hs' he fun u hu => ?_
    by_cases hut : u = t
    · subst hut
      exact h.names x fun hx => hleads ⟨hx, (find?_eq_some_iff hs').mpr hu⟩
    · rw [binding?, binding?, h.others u hut]

/-- The same for every change. -/
theorem Change.lookup_eq (h : change.Between s s') (hs : s.Forest) (hs' : s'.Forest)
    (he : s.Has e) (x : String) :
    s'.lookup e x =
      match change.given? s' e x with
      | some v => .ok v
      | none => s.lookup e x := by
  cases change with
  | nothing => exact h ▸ rfl
  | write t name b =>
    rw [Wrote.lookup_eq h hs he x, given?]
    split <;> rfl
  | add c =>
    refine h.extends.lookup_eq hs.outward hs'.outward he fun u hu => ?_
    have hinside : s.Inside u e := (inside_iff hs.outward h.extends.parent he).mp hu.around
    rw [binding?, binding?, Added.others h u (hinside.has hs.outward he)]

/-! ## One operation after another -/

/-- What an operation does to scopes, if it does not leave them as they are. -/
theorem after_eq_or_does (hs : s.Forest) (hop : op.Through s.Has) :
    s.after op = s ∨ ∃ change, s.Does op (.ok change) ∧ change.Between s (s.after op) := by
  have hdoes := op.does_run hs hop
  rw [after]
  split at hdoes
  · exact .inr hdoes
  · exact .inl rfl

theorem Forest.after (hs : s.Forest) (hop : op.Through s.Has) : (s.after op).Forest := by
  obtain heq | ⟨change, hdoes, hbetween⟩ := after_eq_or_does hs hop
  · rwa [heq]
  · exact hdoes.forest hop hbetween hs

theorem extends_after (hs : s.Forest) (hop : op.Through s.Has) : s.Extends (s.after op) := by
  obtain heq | ⟨change, -, hbetween⟩ := after_eq_or_does hs hop
  · rw [heq]
    exact .refl s
  · exact hbetween.extends

/-- An operation changes only what is around its place. -/
theorem get_after (hs : s.Forest) (hop : op.Through s.Has) (hu : s.Has u)
    (hapart : op.Through fun r => ¬ s.Inside u r) : (s.after op).get u = s.get u := by
  obtain heq | ⟨change, hdoes, hbetween⟩ := after_eq_or_does hs hop
  · rw [heq]
  · cases change with
    | nothing => rw [show s.after op = s from hbetween]
    | add c => exact Added.others hbetween u hu
    | write t name b =>
      obtain ⟨r, hplace, hinside⟩ := hdoes.inside_place
      refine Wrote.others hbetween u ?_
      rintro rfl
      exact hapart r hplace hinside

/-- Operations leave a forest, and its scopes go on. -/
theorem Leads.forest {p : Scopes → Ref .scope → Prop} (h : Leads p s s') (hs : s.Forest) :
    s'.Forest ∧ s.Extends s' := by
  induction h with
  | refl => exact ⟨hs, .refl _⟩
  | step hop _ ih =>
    have hhas := fun r hr => (hop r hr).1
    obtain ⟨hforest, hextends⟩ := ih (hs.after hhas)
    exact ⟨hforest, (extends_after hs hhas).trans hextends⟩

/-! ## A scope and its copy -/

namespace Twins

theorem symm (h : s.Twins a b) : s.Twins b a :=
  ⟨h.right, h.left, h.ne.symm, h.parent.symm⟩

theorem mono (h : s.Twins a b) (hs : s.Extends s') : s'.Twins a b :=
  ⟨hs.has h.left, hs.has h.right, h.ne,
    (hs.parent a h.left).trans (h.parent.trans (hs.parent b h.right).symm)⟩

/-- Neither of two scopes inside the same one lies inside the other. -/
theorem not_inside (h : s.Twins a b) (hs : s.Outward) : ¬ s.Inside a b := by
  intro hin
  cases hin with
  | self => exact h.ne rfl
  | up hp hin =>
    have hlt := hs a _ (h.parent.trans hp)
    have hle := hin.le hs
    omega

/-- What lies inside one of them is not around what lies inside the other. -/
theorem not_around (h : s.Twins a b) (hs : s.Outward) (hr : s.Inside a r) (hu : s.Inside b u) :
    ¬ s.Inside u r := by
  intro hin
  obtain hau | hua := hr.total hin
  · obtain hab | hba := hau.total hu
    · exact h.not_inside hs hab
    · exact h.symm.not_inside hs hba
  · exact h.symm.not_inside hs (hu.trans hua)

/-- What is done through one of them is not seen through the other in a name that this binds. -/
theorem lookup_after (h : s.Twins a b) (hs : s.Forest) (hop : op.Through s.Has)
    (hplace : op.Through (s.Inside a)) (hx : (s.get b).Binds x) (he : s.Inside b e) :
    (s.after op).lookup e x = s.lookup e x := by
  have hs' := hs.after hop
  have hextends := extends_after hs hop
  have hhas : s.Has e := he.has_of_outer h.right
  refine hextends.lookup_eq hs.outward hs'.outward hhas fun u hu => ?_
  have hinside : ∀ {w u}, s.Has u → ((s.after op).Inside w u ↔ s.Inside w u) :=
    fun hu => inside_iff hs.outward hextends.parent hu
  have hue : s.Inside u e := (hinside hhas).mp hu.around
  have hhasu : s.Has u := hue.has hs.outward hhas
  -- the name is found no further out than in `b`
  have hbu : s.Inside b u :=
    (hinside hhasu).mp (hu.innermost b ((hinside hhas).mpr he) (hextends.binds b x hx))
  have hget : (s.after op).get u = s.get u :=
    get_after hs hop hhasu fun r hr => h.not_around hs.outward (hplace r hr) hbu
  rw [binding?, binding?, hget]

/-- Nor is what a sequence of operations does. -/
theorem lookup_leads (h : s.Twins a b) (hs : s.Forest)
    (hleads : Leads (fun s r => s.Inside a r) s s') (hx : (s.get b).Binds x)
    (he : s.Inside b e) : s'.lookup e x = s.lookup e x := by
  induction hleads with
  | refl => rfl
  | @step s s' op hop _ ih =>
    have hhas : op.Through s.Has := fun r hr => (hop r hr).1
    have hextends := extends_after hs hhas
    have he' : (s.after op).Inside b e :=
      (inside_iff hs.outward hextends.parent (he.has_of_outer h.right)).mpr he
    exact (ih (h.mono hextends) (hs.after hhas) (hextends.binds b x hx) he').trans
      (h.lookup_after hs hhas (fun r hr => (hop r hr).2) hx he)

end Twins

/-- A scope and its copy lie inside the same one. -/
theorem twins_copy (hr : s.Has r) : (s.copy r).2.Twins r (s.copy r).1 := by
  have hadded := added_push s (s.get r)
  refine ⟨hadded.extends.has hr, ?_, ?_, ?_⟩
  · simp [Scopes.copy, Has]
  · rintro heq
    exact absurd (congrArg Ref.index heq) (Nat.ne_of_lt hr)
  · simp only [Scopes.copy, hadded.others r hr, hadded.last]

/-- Every operation on a forest of scopes touches at most one binding. One that fails does so for
    the reason that is specified, and leaves the world as it is. One that succeeds makes the change
    that is specified and no other, so each place goes on to read what it read, unless its name
    leads to what was written. And a scope and its copy are apart: whatever came in between,
    operations through one of them, or through scopes inside it, are not seen from the other, or
    from scopes inside it, in the names that were bound when the copy was made. -/
theorem Forest.touches_one_binding (hs : s.Forest) :
    (∀ op : Operation, op.Through s.Has →
      (∀ (pos : Position) (w : World), w.heap.scopes = s →
        (op.effect pos).run w =
          match op.run s with
          | .ok s' => (.ok (), { w with heap := { w.heap with scopes := s' } })
          | .error cause => (.error (.fault ⟨cause, some pos, none⟩), w)) ∧
      match op.run s with
      | .error cause => s.Does op (.error cause)
      | .ok s' => s'.Forest ∧ ∃ change, s.Does op (.ok change) ∧ change.Between s s' ∧
        ∀ e x, s.Has e → s'.lookup e x =
          match change.given? s' e x with
          | some v => .ok v
          | none => s.lookup e x) ∧
    ∀ r c s₁ s₂ s₃, s.Has r → s.copy r = (c, s₁) → Leads (fun _ _ => True) s₁ s₂ →
      ∀ a b, (a = r ∧ b = c ∨ a = c ∧ b = r) → Leads (fun s r' => s.Inside a r') s₂ s₃ →
        ∀ e x, s₂.Inside b e → (s.binding? r x).isSome → s₃.lookup e x = s₂.lookup e x := by
  refine ⟨fun op hop => ⟨fun pos w hw => ?_, ?_⟩, ?_⟩
  · subst hw
    exact op.run_effect pos w
  · have hdoes := op.does_run hs hop
    split at hdoes
    · rename_i s' hrun
      obtain ⟨change, hdoes, hbetween⟩ := hdoes
      have hs' := hdoes.forest hop hbetween hs
      rw [hrun]
      exact ⟨hs', change, hdoes, hbetween, fun e x he => change.lookup_eq hbetween hs hs' he x⟩
    · rename_i cause hrun
      rw [hrun]
      exact hdoes
  · intro r c s₁ s₂ s₃ hr hcopy hleads a b hab hleads' e x he hx
    obtain ⟨rfl, rfl⟩ := Prod.ext_iff.mp hcopy
    have hadded := added_push s (s.get r)
    have hs₁ : (s.copy r).2.Forest :=
      Does.forest .copy (fun _ hplace => Option.some.inj hplace ▸ hr) hadded hs
    obtain ⟨hs₂, hextends⟩ := hleads.forest hs₁
    have htwins := (twins_copy hr).mono hextends
    obtain ⟨rfl, rfl⟩ | ⟨rfl, rfl⟩ := hab
    · have hcopied : ((s.copy a).2.get (s.copy a).1).Binds x := by
        rwa [show (s.copy a).2.get (s.copy a).1 = s.get a from hadded.last]
      exact htwins.lookup_leads hs₂ hleads' (hextends.binds _ x hcopied) he
    · have hkept : ((s.copy b).2.get b).Binds x := by
        rwa [show (s.copy b).2.get b = s.get b from hadded.others b hr]
      exact htwins.symm.lookup_leads hs₂ hleads' (hextends.binds _ x hkept) he

/-- A scope with a variable, a copy of it, and an assignment through the copy: the copy reads what
    was assigned, and the scope what it held. -/
theorem touches_one_binding_through_copy :
    ∃ s s₁ s₃ : Scopes, s.Forest ∧ s.copy ⟨0⟩ = (⟨1⟩, s₁) ∧
      Operation.run s₁ (.assign ⟨1⟩ "i" (.bool true)) = .ok s₃ ∧
      s₃.lookup ⟨1⟩ "i" = .ok (.bool true) ∧ s₃.lookup ⟨0⟩ "i" = .ok .null := by
  have hroot : (empty.after (.new none true)).Forest := forest_empty.after fun r hr => by cases hr
  have hs : ((empty.after (.new none true)).after (.hoist ⟨0⟩ "i" .null)).Forest :=
    hroot.after fun r hr => by cases hr; decide
  refine ⟨_, _, _, hs, rfl, rfl, rfl, ?_⟩
  refine (hs.touches_one_binding.2 ⟨0⟩ ⟨1⟩ _ _ _ (by decide) rfl .refl ⟨1⟩ ⟨0⟩ (.inr ⟨rfl, rfl⟩)
    (@Leads.step _ _ _ (.assign ⟨1⟩ "i" (.bool true)) ?_ .refl) ⟨0⟩ "i" .self rfl).trans rfl
  rintro r ⟨⟩
  exact ⟨by decide, .self⟩

end Scopes

end CoScript
