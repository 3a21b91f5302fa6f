import CoScript.Eval.Call
import CoScript.Proofs.Class.Values
import CoScript.Proofs.Task.Values

/-!
# The classes that hosts bring in

A host passes values, lets modules be imported and has functions of its own. None of them brings in
a class that is yet to be made, if the host makes up no classes: values and modules hold classes
that exist, and functions give none but those and what they see.

Results:
* `HostValue.Within`: a host value without classes that do not exist yet.
* `within_toValue`: it becomes a value without such classes.
* `HostFunction.Within`: a function of the host that makes up no classes.
* `Resolvers.Within`, `Resolvers.Within.resolve`: modules without such classes, and what is imported
  from them.
* `World.Within`: a world into which no such class comes.
-/

namespace CoScript

/-! ## Specification -/

mutual

/-- The values in a host value are within the first `n` classes. -/
def HostValue.Within (n : ℕ) : HostValue → Prop
  | .value v => v.Within n
  | .array items => ItemsWithin n items
  | .object fields => FieldsWithin n fields
  | .function _ | .whole _ => True

/-- The values in host values are within the first `n` classes. -/
def ItemsWithin (n : ℕ) : List HostValue → Prop
  | [] => True
  | v :: r => v.Within n ∧ ItemsWithin n r

/-- The values in named host values are within the first `n` classes. -/
def FieldsWithin (n : ℕ) : List (String × HostValue) → Prop
  | [] => True
  | (_, v) :: r => v.Within n ∧ FieldsWithin n r

end

/-- The values that promises ended with are within the first `n` classes. -/
def Promises.Within (n : ℕ) (ps : Promises) : Prop :=
  ∀ id, (ps.state id).All (Value.Within n)

/-- The values that a change brings into the heap are within the first `n` classes. -/
def HeapChange.Within (n : ℕ) : HeapChange → Prop
  | .newArray items | .setItems _ items => ∀ v ∈ items, v.Within n
  | .newObject fields | .setProperties _ fields | .setFields _ fields =>
    fields.All (Value.Within n)

/-- All that a function of the host sees is within the first `n` classes. -/
structure HostCall.Within (n : ℕ) (c : HostCall) : Prop where
  args : ∀ v ∈ c.args, v.Within n
  heap : c.heap.Within n
  promises : c.promises.Within n
  memory : c.memory.Within n

/-- All that a function of the host gives is within the first `n` classes. -/
structure HostAnswer.Within (n : ℕ) (a : HostAnswer) : Prop where
  changes : ∀ c ∈ a.changes, c.Within n
  memory : a.memory.Within n
  result : ∀ v, a.result = .ok v → v.Within n

/-- A function of the host makes up no classes: from the first `n` on, whatever classes there are,
    it gives none that is yet to be made if it sees none. -/
def HostFunction.Within (n : ℕ) (f : HostFunction) : Prop :=
  ∀ m, n ≤ m → ∀ call : HostCall, call.Within m → (f call).Within m

/-- The exports that a resolver has at hand are within the first `n` classes. -/
def Resolver.Within (n : ℕ) : Resolver → Prop
  | .memory modules => modules.All (·.All (HostValue.Within n))
  | .json r => r.known.All (·.All (HostValue.Within n))
  | .chain _ => True

/-- The exports that resolvers have at hand are within the first `n` classes. -/
def Resolvers.Within (n : ℕ) (rs : Resolvers) : Prop :=
  ∀ i, (rs.cells.getD i default).Within n

/-- A world has `n` classes, in order, and no other class can come in. -/
structure World.Within (n : ℕ) (w : World) : Prop where
  heap : w.heap.Within n
  host : w.host.All (HostFunction.Within n)
  memory : w.memory.Within n
  resolvers : w.resolvers.Within n

variable {n n' : ℕ}

/-! ## More classes -/

mutual

theorem HostValue.Within.mono (hn : n ≤ n') : {v : HostValue} → v.Within n → v.Within n'
  | .value _, h => Value.Within.mono hn h
  | .array _, h => ItemsWithin.mono hn h
  | .object _, h => FieldsWithin.mono hn h
  | .function _, _ | .whole _, _ => trivial

theorem ItemsWithin.mono (hn : n ≤ n') :
    {vs : List HostValue} → ItemsWithin n vs → ItemsWithin n' vs
  | [], _ => trivial
  | _ :: _, h => ⟨h.1.mono hn, ItemsWithin.mono hn h.2⟩

theorem FieldsWithin.mono (hn : n ≤ n') :
    {vs : List (String × HostValue)} → FieldsWithin n vs → FieldsWithin n' vs
  | [], _ => trivial
  | _ :: _, h => ⟨h.1.mono hn, FieldsWithin.mono hn h.2⟩

end

section Mono

variable (hn : n ≤ n')

include hn

theorem HostFunction.Within.mono {f : HostFunction} (h : f.Within n) : f.Within n' :=
  fun m hm => h m (Nat.le_trans hn hm)

theorem exports_mono {m : Ordered Exports} (h : m.All (·.All (HostValue.Within n))) :
    m.All (·.All (HostValue.Within n')) :=
  h.mono fun _ he => he.mono fun _ hv => hv.mono hn

theorem Resolvers.Within.mono {rs : Resolvers} (h : rs.Within n) : rs.Within n' := by
  intro i
  have hi := h i
  cases hr : rs.cells.getD i default with
  | memory => exact exports_mono hn (by rw [hr] at hi; exact hi)
  | json => exact exports_mono hn (by rw [hr] at hi; exact hi)
  | chain => trivial

end Mono

/-! ## What functions do -/

theorem Promises.Within.of_tasks {β : Type} {tasks : Array (Task β Value)}
    (h : ∀ t ∈ tasks, t.state.All (Value.Within n)) : (Promises.ofTasks tasks).Within n := by
  intro id
  unfold Promises.ofTasks
  dsimp only
  split
  · rename_i t ht
    exact h t (Array.mem_of_getElem? ht)
  · trivial

theorem Heap.Within.change {h : Heap} (hh : h.Within n) {c : HeapChange} (hc : c.Within n) :
    (h.change c).Within n := by
  cases c with
  | newArray items => exact hh.newArray hc
  | newObject fields => exact hh.newObject hc
  | setItems r items => exact hh.modifyArray r fun _ _ => hc
  | setProperties r fields =>
    exact { hh with
      objects := fun r' => forall_getD_modify
        (P := fun o : Ordered Value => o.All (Value.Within n)) (fun i => hh.objects ⟨i⟩)
        (fun _ _ => hc) r.index r'.index }
  | setFields r fields =>
    exact { hh with
      instances := fun r' => forall_getD_modify
        (P := fun i : Instance => i.fields.All (Value.Within n)) (f := fun i => { i with fields })
        (fun i => hh.instances ⟨i⟩) (fun _ _ => hc) r.index r'.index }

theorem Heap.Within.changeAll {h : Heap} (hh : h.Within n) {changes : List HeapChange}
    (hc : ∀ c ∈ changes, c.Within n) : (h.changeAll changes).Within n := by
  unfold Heap.changeAll
  induction changes generalizing h with
  | nil => exact hh
  | cons c changes ih =>
    obtain ⟨hc, hrest⟩ := List.forall_mem_cons.mp hc
    exact ih (hh.change hc) hrest

theorem World.Within.after {w : World} (hw : w.Within n) {answer : HostAnswer}
    (ha : answer.Within n) : (w.after answer).Within n :=
  { hw with heap := hw.heap.changeAll ha.changes, memory := ha.memory }

/-! ## Host values in the heap -/

/-- A computation in the heap stays within the first `n` classes and gives something that satisfies
    `Q`. -/
def InHeap.Within {α : Type} (n : ℕ) (Q : α → Prop) (f : InHeap α) : Prop :=
  ∀ h a h', f.run h = .ok (a, h') → h.Within n → h'.Within n ∧ Q a

namespace InHeap.Within

variable {α β : Type} {P : α → Prop} {Q : β → Prop} {f : InHeap α} {g : α → InHeap β}

theorem pure {a : α} (ha : P a) : (Pure.pure a : InHeap α).Within n P := by
  rintro h _ _ ⟨⟩ hh
  exact ⟨hh, ha⟩

theorem bind (hf : f.Within n P) (hg : ∀ a, P a → (g a).Within n Q) : (f >>= g).Within n Q := by
  intro h b h' hrun hh
  rw [StateT.run_bind] at hrun
  cases hfr : f.run h with
  | error cause =>
    rw [hfr] at hrun
    cases hrun
  | ok r =>
    obtain ⟨a, h₁⟩ := r
    rw [hfr] at hrun
    obtain ⟨hh₁, ha⟩ := hf h a h₁ hfr hh
    exact hg a ha h₁ b h' hrun hh₁

theorem whole {k : Int} : (InHeap.whole k).Within n (Value.Within n) := by
  unfold InHeap.whole
  split
  · exact pure trivial
  · rintro h _ _ ⟨⟩

theorem get : (MonadState.get : InHeap Heap).Within n (Heap.Within n) := by
  rintro h _ _ ⟨⟩ hh
  exact ⟨hh, hh⟩

theorem mapM {items : List α} {g : α → InHeap β} (hg : ∀ a ∈ items, (g a).Within n Q) :
    (items.mapM g).Within n fun bs => ∀ b ∈ bs, Q b := by
  induction items with
  | nil => exact pure (by simp)
  | cons a items ih =>
    obtain ⟨ha, hrest⟩ := List.forall_mem_cons.mp hg
    rw [List.mapM_cons]
    exact bind ha fun b hb => bind (ih hrest) fun bs hbs =>
      pure (List.forall_mem_cons.mpr ⟨hb, hbs⟩)

theorem array {items : List Value} (hv : ∀ v ∈ items, v.Within n) :
    (InHeap.array items).Within n (Value.Within n) := by
  rintro h _ _ ⟨⟩ hh
  exact ⟨hh.newArray (by simpa using hv), trivial⟩

theorem object {fields : List (String × Value)} (hv : ∀ e ∈ fields, e.2.Within n) :
    (InHeap.object fields).Within n (Value.Within n) := by
  rintro h _ _ ⟨⟩ hh
  exact ⟨hh.newObject (Ordered.all_ofList hv), trivial⟩

theorem function {f : Function} : (InHeap.function f).Within n (Value.Within n) := by
  rintro h _ _ ⟨⟩ hh
  exact ⟨hh.withFunctions _, trivial⟩

/-- A copy holds no classes but those of the value and of what can be reached from it. -/
theorem copyFrom (fuel : ℕ) {v : Value} (hv : v.Within n) :
    (v.copyFrom fuel).Within n (Value.Within n) := by
  induction fuel generalizing v with
  | zero => rintro h _ _ ⟨⟩
  | succ fuel ih =>
    unfold Value.copyFrom
    split
    · rename_i r
      exact bind get fun h hh => bind
        (mapM fun v hv => ih (hh.arrays r v (Array.mem_toList_iff.mp hv))) fun _ hvs => array hvs
    · rename_i r
      exact bind get fun h hh => bind (Q := Value.Within n)
        (mapM (Q := fun e : String × Value => e.2.Within n) fun e he =>
          bind (ih (hh.objects r e he)) fun _ hw => pure hw) fun _ hes => object hes
    · exact pure hv

theorem copy {v : Value} (hv : v.Within n) : v.copy.Within n (Value.Within n) :=
  bind get fun _ _ => copyFrom _ hv

end InHeap.Within

mutual

theorem within_toValue : {v : HostValue} → v.Within n → v.toValue.Within n (Value.Within n)
  | .value _, h => .copy h
  | .whole _, _ => .whole
  | .array _, h => .bind (within_itemsToValues h) fun _ hvs => .array hvs
  | .object _, h => .bind (within_fieldsToValues h) fun _ hes => .object hes
  | .function _, _ => .function

theorem within_itemsToValues : {vs : List HostValue} → ItemsWithin n vs →
    (itemsToValues vs).Within n fun xs => ∀ x ∈ xs, x.Within n
  | [], _ => .pure (by simp)
  | _ :: _, h => .bind (within_toValue h.1) fun _ hx =>
    .bind (within_itemsToValues h.2) fun _ hxs =>
    .pure (List.forall_mem_cons.mpr ⟨hx, hxs⟩)

theorem within_fieldsToValues : {vs : List (String × HostValue)} → FieldsWithin n vs →
    (fieldsToValues vs).Within n fun es => ∀ e ∈ es, e.2.Within n
  | [], _ => .pure (by simp)
  | _ :: _, h => .bind (within_toValue h.1) fun _ hx =>
    .bind (within_fieldsToValues h.2) fun _ hes =>
    .pure (List.forall_mem_cons.mpr ⟨hx, hes⟩)

end

theorem fieldsWithin_iff {fields : List (String × HostValue)} :
    FieldsWithin n fields ↔ ∀ e ∈ fields, e.2.Within n := by
  induction fields with
  | nil => simp [FieldsWithin]
  | cons e fields ih => simp only [FieldsWithin, ih, List.forall_mem_cons]

/-! ## Modules -/

mutual

/-- A document holds no classes. -/
theorem within_toHost : (j : Json) → j.toHost.Within n
  | .null | .bool _ | .whole _ | .float _ | .string _ => trivial
  | .array items => within_jsonItems items
  | .object members => within_jsonMembers members

theorem within_jsonItems : (js : List Json) → ItemsWithin n (jsonItems js)
  | [] => trivial
  | j :: r => ⟨within_toHost j, within_jsonItems r⟩

theorem within_jsonMembers : (js : List (String × Json)) → FieldsWithin n (jsonMembers js)
  | [] => trivial
  | (_, j) :: r => ⟨within_toHost j, within_jsonMembers r⟩

end

/-- What a resolver comes to is within the first `n` classes. -/
def Resolution.Within (n : ℕ) (answer : Resolution) : Prop :=
  ∀ exports, answer = .ok (some exports) → exports.All (HostValue.Within n)

theorem Resolution.within_none : Resolution.Within n (.ok none) := by
  rintro _ ⟨⟩

/-- The exports in a file hold no classes. -/
theorem JsonResolver.within_read {fs : Files} {specifier path : String} {exports : Exports}
    (h : JsonResolver.read fs specifier path = .ok exports) :
    exports.All (HostValue.Within n) := by
  unfold JsonResolver.read at h
  split at h
  · cases h
  · split at h
    · cases h
    · cases h
      exact fieldsWithin_iff.mp (within_jsonMembers _)
    · cases h

theorem JsonResolver.within_resolve {r : JsonResolver}
    (hr : (Resolver.json r).Within n) (fs : Files)
    (specifier : String) :
    (r.resolve fs specifier).1.Within n ∧
    (Resolver.json (r.resolve fs specifier).2.2).Within n := by
  unfold JsonResolver.resolve
  split
  · rename_i exports hknown
    refine ⟨?_, hr⟩
    rintro _ ⟨⟩
    exact Ordered.All.get? hr hknown
  · split
    · exact ⟨Resolution.within_none, hr⟩
    · split
      · exact ⟨by rintro _ ⟨⟩, hr⟩
      · rename_i exports hread
        refine ⟨?_, Ordered.All.set hr (within_read hread)⟩
        rintro _ ⟨⟩
        exact within_read hread

namespace Resolvers.Within

variable {rs : Resolvers}

theorem set (h : rs.Within n) (id : ResolverId) {r : Resolver} (hr : r.Within n) :
    (rs.set id r).Within n := by
  intro i
  obtain hi | hi := rs.getD_set id r i <;> rw [hi]
  · exact hr
  · exact h i

theorem firstOf {ask : ResolverId → Resolvers → Resolution × List Loaded × Resolvers}
    (hask : ∀ id rs, rs.Within n → (ask id rs).1.Within n ∧ (ask id rs).2.2.Within n)
    (members : List ResolverId) (h : rs.Within n) :
    (Resolvers.firstOf ask members rs).1.Within n ∧
      (Resolvers.firstOf ask members rs).2.2.Within n := by
  induction members generalizing rs with
  | nil => exact ⟨Resolution.within_none, h⟩
  | cons id rest ih =>
    have hid := hask id rs h
    rw [Resolvers.firstOf]
    split
    · rename_i loaded rs' heq
      rw [heq] at hid
      exact ih hid.2
    · exact hid

theorem resolveIn (specifier : String) (depth : ℕ) (id : ResolverId) (h : rs.Within n) :
    (Resolvers.resolveIn specifier depth id rs).1.Within n ∧
      (Resolvers.resolveIn specifier depth id rs).2.2.Within n := by
  induction depth using Nat.strongRecOn generalizing id rs with
  | ind depth ih =>
    have hid := h id.index
    unfold Resolvers.resolveIn
    split
    · rename_i modules hr
      rw [hr] at hid
      exact ⟨fun exports he => Ordered.All.get? hid (Except.ok.inj he), h⟩
    · rename_i r hr
      rw [hr] at hid
      have hres := JsonResolver.within_resolve hid rs.files specifier
      exact ⟨hres.1, h.set id hres.2⟩
    · cases depth with
      | zero => exact ⟨Resolution.within_none, h⟩
      | succ depth => exact firstOf (fun id rs hrs => ih depth (Nat.lt_succ_self depth) id hrs) _ h

/-- What is imported holds no classes but those that the modules had at hand. -/
theorem resolve (h : rs.Within n) (id : ResolverId) (specifier : String) :
    (rs.resolve id specifier).1.Within n ∧ (rs.resolve id specifier).2.2.Within n :=
  h.resolveIn specifier id.index id

end Resolvers.Within

end CoScript
