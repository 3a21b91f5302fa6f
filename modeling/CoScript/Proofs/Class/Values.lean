import CoScript.Proofs.Class.Chain
import CoScript.Proofs.Eval.Stable

/-!
# The classes among values

Classes are numbered as they are made, and a class can be declared over any value that is a class.
So each class is younger than the one above it as long as no value is a class that is yet to be
made: none in variables, arrays, objects and instances, and none that a thread works with.

Results:
* `Value.Within`: a value that is a class only if it is one of the first ones.
* `Heap.Within`: a heap with a number of classes, in order, and no other class among its values,
  with one lemma for each change of the heap.
* `Thread.Within`: a thread that works with no other class.
-/

namespace CoScript

/-! ## Specification -/

/-- A value that is a class only if it is one of the first `n`. -/
def Value.Within (n : ℕ) : Value → Prop
  | .cls r => r.index < n
  | _ => True

/-- A heap has `n` classes, each of them younger than the one above it, and no other class is among
    its values. -/
structure Heap.Within (n : ℕ) (h : Heap) : Prop where
  scopes : ∀ r, (h.scopes.get r).bindings.All (·.value.Within n)
  arrays : ∀ r, ∀ v ∈ h.array r, v.Within n
  objects : ∀ r, (h.object r).All (Value.Within n)
  instances : ∀ r, (h.instanceOf r).fields.All (Value.Within n)
  size : h.classes.size = n
  ranked : h.Ranked

section Threads

variable (n : ℕ)

/-- The value that a jump carries is within the first `n` classes. -/
def Abrupt.Within : Abrupt → Prop
  | .returned v | .thrown v _ => v.Within n
  | .breakOut | .continueOn => True

/-- The values that make a place are within the first `n` classes. -/
def Place.Within : Place → Prop
  | .variable .. => True
  | .member object _ _ => object.Within n
  | .element object key _ => object.Within n ∧ key.Within n

/-- The values that others are collected for are within the first `n` classes. -/
def Purpose.Within : Purpose → Prop
  | .call callee receiver _ _ => callee.Within n ∧ receiver.Within n
  | .construct cls _ _ => cls.Within n
  | .superCall _ receiver => receiver.Within n
  | .array => True

/-- The values that a thread is about to use are within the first `n` classes. -/
def Control.Within : Control → Prop
  | .invoke callee args _ => callee.Within n ∧ ∀ v ∈ args, v.Within n
  | .enter _ args receiver => receiver.Within n ∧ ∀ v ∈ args, v.Within n
  | .bind _ args _ _ => ∀ v ∈ args, v.Within n
  | .initialise k => ∀ v ∈ k.args, v.Within n
  | .ret v => v.Within n
  | .leave how => how.Within n
  | .program .. | .statements .. | .exec .. | .eval .. | .fail _ => True

/-- The values that a frame keeps are within the first `n` classes. -/
def Frame.Within : Frame → Prop
  | .switchTest value _ _ _ => value.Within n
  | .finalizerBody pending => ∀ how ∈ pending, how.Within n
  | .binaryApply _ left _ => left.Within n
  | .indexApply object _ | .placeElement object _ _ _ => object.Within n
  | .write place => place.Within n
  | .combine place _ old _ => place.Within n ∧ old.Within n
  | .property done _ _ _ => done.All (Value.Within n)
  | .collect purpose done _ _ => purpose.Within n ∧ ∀ v ∈ done, v.Within n
  | .parameter _ _ args _ _ => ∀ v ∈ args, v.Within n
  | .fieldValue _ k => ∀ v ∈ k.args, v.Within n
  | _ => True

/-- The values that frames keep are within the first `n` classes. -/
def StackWithin (stack : List Frame) : Prop :=
  ∀ f ∈ stack, f.Within n

/-- All values that a thread works with are within the first `n` classes. -/
structure Thread.Within (t : Thread) : Prop where
  control : t.control.Within n
  stack : StackWithin n t.stack

/-- All values in what a thread does next are within the first `n` classes. -/
def Move.Within : Move → Prop
  | .go control stack => control.Within n ∧ StackWithin n stack
  | .await v stack => v.Within n ∧ StackWithin n stack
  | .spawn _ child stack => child.Within n ∧ StackWithin n stack
  | .finish v | .throw v _ => v.Within n

end Threads

variable {n n' : ℕ}

/-! ## More classes -/

section Mono

variable (hn : n ≤ n')

include hn

theorem Value.Within.mono {v : Value} (hv : v.Within n) : v.Within n' := by
  cases v <;> first | exact Nat.lt_of_lt_of_le hv hn | trivial

theorem within_all_mono {vs : List Value} (h : ∀ v ∈ vs, v.Within n) : ∀ v ∈ vs, v.Within n' :=
  fun v hv => (h v hv).mono hn

theorem Abrupt.Within.mono {how : Abrupt} (h : how.Within n) : how.Within n' := by
  cases how <;> first | exact Value.Within.mono hn h | trivial

theorem Place.Within.mono {p : Place} (h : p.Within n) : p.Within n' := by
  cases p with
  | «variable» => trivial
  | member => exact Value.Within.mono hn h
  | element => exact ⟨h.1.mono hn, h.2.mono hn⟩

theorem Purpose.Within.mono {p : Purpose} (h : p.Within n) : p.Within n' := by
  cases p with
  | call => exact ⟨h.1.mono hn, h.2.mono hn⟩
  | construct => exact Value.Within.mono hn h
  | superCall => exact Value.Within.mono hn h
  | array => trivial

theorem Control.Within.mono {c : Control} (h : c.Within n) : c.Within n' := by
  cases c with
  | invoke => exact ⟨h.1.mono hn, within_all_mono hn h.2⟩
  | enter => exact ⟨h.1.mono hn, within_all_mono hn h.2⟩
  | bind => exact within_all_mono hn h
  | initialise => exact within_all_mono hn h
  | ret => exact Value.Within.mono hn h
  | leave => exact Abrupt.Within.mono hn h
  | _ => trivial

theorem Frame.Within.mono {f : Frame} (h : f.Within n) : f.Within n' := by
  cases f with
  | switchTest => exact Value.Within.mono hn h
  | finalizerBody => exact fun how hp => (h how hp).mono hn
  | binaryApply => exact Value.Within.mono hn h
  | indexApply => exact Value.Within.mono hn h
  | placeElement => exact Value.Within.mono hn h
  | write => exact Place.Within.mono hn h
  | combine => exact ⟨h.1.mono hn, h.2.mono hn⟩
  | property => exact Ordered.All.mono h fun _ hv => hv.mono hn
  | collect => exact ⟨h.1.mono hn, within_all_mono hn h.2⟩
  | parameter => exact within_all_mono hn h
  | fieldValue => exact within_all_mono hn h
  | _ => trivial

theorem StackWithin.mono {stack : List Frame} (h : StackWithin n stack) : StackWithin n' stack :=
  fun f hf => (h f hf).mono hn

theorem Thread.Within.mono {t : Thread} (h : t.Within n) : t.Within n' :=
  ⟨h.control.mono hn, h.stack.mono hn⟩

end Mono

/-! ## Stacks -/

section Stacks

variable {stack : List Frame} {f : Frame}

theorem StackWithin.cons (hf : f.Within n) (h : StackWithin n stack) : StackWithin n (f :: stack) :=
  List.forall_mem_cons.mpr ⟨hf, h⟩

theorem stackWithin_cons : StackWithin n (f :: stack) ↔ f.Within n ∧ StackWithin n stack :=
  List.forall_mem_cons

end Stacks

/-! ## Cells -/

section Cells

variable {α : Type} {P : α → Prop} {a : Array α} {d x : α}

theorem forall_getD_push (ha : ∀ i, P (a.getD i d)) (hx : P x) :
    ∀ i, P ((a.push x).getD i d) := by
  intro i
  have hi := ha i
  rw [Array.getD_eq_getD_getElem?] at hi ⊢
  rw [Array.getElem?_push]
  split
  · exact hx
  · exact hi

theorem forall_getD_modify (ha : ∀ i, P (a.getD i d)) {f : α → α} (hf : ∀ y, P y → P (f y))
    (j : Nat) : ∀ i, P ((a.modify j f).getD i d) := by
  intro i
  have hi := ha i
  rw [Array.getD_eq_getD_getElem?] at hi ⊢
  rw [Array.getElem?_modify]
  split
  · cases h : a[i]? with
    | none => simpa [h] using hi
    | some y => exact hf y (by simpa [h] using hi)
  · exact hi

end Cells

/-! ## Changes of the heap -/

namespace Heap.Within

variable {h : Heap} {v : Value}

/-- A class above another one exists. -/
theorem above (hh : h.Within n) {r s : Ref .cls} (hs : (h.cls r).superclass = some s) :
    s.index < n := by
  have hr : r.index < h.classes.size := by
    refine Nat.lt_of_not_le fun hr => ?_
    rw [cls, Array.getD_eq_getD_getElem?, Array.getElem?_eq_none hr] at hs
    cases hs
  exact Nat.lt_trans (hh.ranked r s hs) (hh.size ▸ hr)

/-- The class that `super` stands for. -/
theorem superOf (hh : h.Within n) (home : Option (Ref .cls)) : (superOf h home).Within n := by
  unfold CoScript.superOf
  split
  · rename_i s hs
    obtain ⟨r, -, hr⟩ := Option.bind_eq_some_iff.mp hs
    exact hh.above hr
  · trivial

theorem lookup (hh : h.Within n) {r : Ref .scope} {name : String}
    (hv : h.scopes.lookup r name = .ok v) : v.Within n := by
  unfold Scopes.lookup at hv
  split at hv
  · rename_i b hb
    cases hv
    obtain ⟨t, -, hb⟩ := Option.bind_eq_some_iff.mp hb
    exact (hh.scopes t).get? hb
  · cases hv

/-! ### Scopes -/

/-- A change of the scopes. -/
theorem withScopes (hh : h.Within n) {s : Scopes}
    (hs : ∀ r, (s.get r).bindings.All (·.value.Within n)) :
    Heap.Within n { h with scopes := s } :=
  { hh with scopes := hs }

theorem push (hh : h.Within n) {c : Scope} (hc : c.bindings.All (·.value.Within n)) :
    Heap.Within n { h with scopes := ⟨h.scopes.cells.push c⟩ } :=
  hh.withScopes fun r => forall_getD_push (P := fun c : Scope => c.bindings.All (·.value.Within n))
    (fun i => hh.scopes ⟨i⟩) hc r.index

theorem bind (hh : h.Within n) (r : Ref .scope) (name : String) {b : Binding}
    (hb : b.value.Within n) : Heap.Within n { h with scopes := h.scopes.bind r name b } :=
  hh.withScopes fun r' => forall_getD_modify
    (P := fun c : Scope => c.bindings.All (·.value.Within n)) (fun i => hh.scopes ⟨i⟩)
    (fun _ hc => hc.set hb) r.index r'.index

theorem declareVar (hh : h.Within n) (r : Ref .scope) (name : String) {v : Option Value}
    (hv : ∀ x ∈ v, x.Within n) :
    Heap.Within n { h with scopes := h.scopes.declareVar r name v } := by
  have hvalue : (v.getD .undefined).Within n := by
    cases v with
    | none => trivial
    | some x => exact hv x rfl
  unfold Scopes.declareVar
  dsimp only
  split
  · exact hh.bind _ name hvalue
  · exact hh.bind _ name (hv _ rfl)
  · exact hh

/-! ### Arrays, objects and instances -/

theorem newArray (hh : h.Within n) {items : Array Value} (hv : ∀ v ∈ items, v.Within n) :
    (h.newArray items).2.Within n :=
  { hh with
    arrays := fun r => forall_getD_push (P := fun a : Array Value => ∀ v ∈ a, v.Within n)
      (fun i => hh.arrays ⟨i⟩) hv r.index }

theorem modifyArray (hh : h.Within n) (r : Ref .array) {f : Array Value → Array Value}
    (hf : ∀ a : Array Value, (∀ v ∈ a, v.Within n) → ∀ v ∈ f a, v.Within n) :
    (h.modifyArray r f).Within n :=
  { hh with
    arrays := fun r' => forall_getD_modify (P := fun a : Array Value => ∀ v ∈ a, v.Within n)
      (fun i => hh.arrays ⟨i⟩) hf r.index r'.index }

theorem newObject (hh : h.Within n) {fields : Ordered Value} (hf : fields.All (Value.Within n)) :
    (h.newObject fields).2.Within n :=
  { hh with
    objects := fun r => forall_getD_push (P := fun o : Ordered Value => o.All (Value.Within n))
      (fun i => hh.objects ⟨i⟩) hf r.index }

theorem setProperty (hh : h.Within n) (r : Ref .object) (name : String) (hv : v.Within n) :
    (h.setProperty r name v).Within n :=
  { hh with
    objects := fun r' => forall_getD_modify
      (P := fun o : Ordered Value => o.All (Value.Within n)) (fun i => hh.objects ⟨i⟩)
      (fun _ ho => ho.set hv) r.index r'.index }

theorem newInstance (hh : h.Within n) (r : Ref .cls) : (h.newInstance ⟨r, .empty⟩).2.Within n :=
  { hh with
    instances := fun r' => forall_getD_push
      (P := fun i : Instance => i.fields.All (Value.Within n)) (fun i => hh.instances ⟨i⟩)
      Ordered.all_empty r'.index }

theorem setField (hh : h.Within n) (r : Ref .inst) (name : String) (hv : v.Within n) :
    (h.setField r name v).Within n :=
  { hh with
    instances := fun r' => forall_getD_modify
      (P := fun i : Instance => i.fields.All (Value.Within n)) (fun i => hh.instances ⟨i⟩)
      (fun _ hi => hi.set hv) r.index r'.index }

/-! ### Functions and classes -/

/-- Functions hold no values. -/
theorem withFunctions (hh : h.Within n) (functions : Array Function) :
    Heap.Within n { h with functions } :=
  { hh with }

theorem nameFunction (hh : h.Within n) (v : Value) (name : String) :
    (h.nameFunction v name).Within n := by
  cases v <;> exact hh.withFunctions _

/-- A new class is the next one, and what was there stays within those that there are. -/
theorem newClass (hh : h.Within n) {c : Class} (hc : ∀ s, c.superclass = some s → s.index < n) :
    (h.newClass c).1 = ⟨n⟩ ∧ (h.newClass c).2.Within (n + 1) := by
  have hmono {v : Value} (hv : v.Within n) : v.Within (n + 1) := hv.mono (Nat.le_succ n)
  refine ⟨by rw [← hh.size]; rfl, ?_⟩
  exact {
    scopes := fun r => (hh.scopes r).mono fun _ hv => hmono hv
    arrays := fun r v hv => hmono (hh.arrays r v hv)
    objects := fun r => (hh.objects r).mono fun _ hv => hmono hv
    instances := fun r => (hh.instances r).mono fun _ hv => hmono hv
    size := by simp [Heap.newClass, hh.size]
    ranked := hh.ranked.newClass (hh.size ▸ hc) }

/-- The methods of a class do not matter. -/
theorem setMethods (hh : h.Within n) (r : Ref .cls) (methods : Ordered (Ref .function)) :
    Heap.Within n { h with classes := h.classes.modify r.index fun c => { c with methods } } where
  scopes := hh.scopes
  arrays := hh.arrays
  objects := hh.objects
  instances := hh.instances
  size := (Array.size_modify ..).trans hh.size
  ranked r' s hs := by
    refine hh.ranked r' s ?_
    rw [← hs]
    simp only [cls, Array.getD_eq_getD_getElem?, Array.getElem?_modify]
    split
    · cases h.classes[r'.index]? <;> rfl
    · rfl

end Heap.Within

end CoScript
