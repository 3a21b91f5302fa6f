import CoScript.Proofs.Class.Host
import CoScript.Proofs.Try.Completion

/-!
# Computations that bring no class in

Most parts of the evaluation find values in variables, arrays, objects and instances, or make new
ones that are no classes. Whatever they do, the world has the classes that it had, and what they
give is within these.

Results:
* `Effect.Within`: computations that bring no class in, with a rule for each operation of the heap.
* `within_getMember`, `within_setMember`, ...: members and operators.
-/

namespace CoScript

open Effect

variable {α : Type} {n : ℕ}

/-- A computation in a world with `n` classes brings no other class in, and gives something that
    satisfies `Q`. -/
abbrev Effect.Within (n : ℕ) (Q : α → Prop) (x : Effect α) : Prop :=
  x.Keeps (World.Within n) Q

/-! ## The heap -/

section Heap

variable {P : α → Prop}

theorem World.Within.withHeap {w : World} (hw : w.Within n) {h : Heap} (hh : h.Within n) :
    World.Within n { w with heap := h } :=
  { hw with heap := hh }

theorem within_heap : heap.Within n (Heap.Within n) :=
  .bind .get fun _ hw => .pure hw.heap

theorem within_modifyHeap {f : Heap → Heap} (hf : ∀ h, h.Within n → (f h).Within n) :
    (modifyHeap f).Within n fun _ => True :=
  .modify fun w hw => hw.withHeap (hf w.heap hw.heap)

theorem within_inHeap {f : Heap → α × Heap}
    (hf : ∀ h, h.Within n → (f h).2.Within n ∧ P (f h).1) : (inHeap f).Within n P :=
  .modifyGet fun w hw => ⟨hw.withHeap (hf w.heap hw.heap).1, (hf w.heap hw.heap).2⟩

theorem within_ofHeap {f : InHeap α} (hf : f.Within n P) : (ofHeap f).Within n P := by
  refine .bind within_heap fun h hh => ?_
  cases hrun : f.run h with
  | error cause => exact .abort
  | ok r =>
    obtain ⟨a, h'⟩ := r
    obtain ⟨hh', ha⟩ := hf h a h' hrun hh
    exact .bind (within_modifyHeap fun _ _ => hh') fun _ _ => .pure ha

theorem within_record {level : Level} {message : String} :
    (Effect.record level message).Within n fun _ => True :=
  .modify fun _ hw => { hw with }

/-! ### Scopes -/

variable {scope : Ref .scope} {name : String} {value : Value}

theorem within_newScope {isFunction : Bool} :
    (newScope scope isFunction).Within n fun _ => True :=
  within_inHeap fun _ hh => ⟨hh.push Ordered.all_empty, trivial⟩

theorem within_copyScope : (inHeap (·.copyScope scope)).Within n fun _ => True :=
  within_inHeap fun _ hh => ⟨hh.push (hh.scopes scope), trivial⟩

theorem within_lookup {pos : Option Position} :
    (lookup scope name pos).Within n (Value.Within n) := by
  refine .bind within_heap fun h hh => ?_
  split
  · rename_i v hv
    exact .pure (hh.lookup hv)
  · exact .fault

theorem within_bind {b : Binding} (hb : b.value.Within n) :
    (bind scope name b).Within n fun _ => True :=
  within_modifyHeap fun _ hh => hh.bind scope name hb

theorem within_define (hv : value.Within n) {isConst : Bool} {pos : Option Position} :
    (define scope name value isConst pos).Within n fun _ => True := by
  refine .bind within_heap fun h _ => ?_
  split
  · exact .fault
  · exact within_bind hv

theorem within_declareVar {value : Option Value} (hv : ∀ v ∈ value, v.Within n) :
    (declareVar scope name value).Within n fun _ => True :=
  within_modifyHeap fun _ hh => hh.declareVar scope name hv

theorem within_assign (hv : value.Within n) {pos : Position} :
    (assign scope name value pos).Within n fun _ => True := by
  refine .bind within_heap fun h _ => ?_
  split
  · exact .fault
  · exact within_bind hv

theorem within_newFunction {f : Function} : (newFunction f).Within n (Value.Within n) :=
  .bind (P := fun _ => True) (within_inHeap fun _ hh => ⟨hh.withFunctions _, trivial⟩) fun _ _ =>
    .pure trivial

theorem within_nameFunction : (modifyHeap (·.nameFunction value name)).Within n fun _ => True :=
  within_modifyHeap fun _ hh => hh.nameFunction value name

end Heap

/-! ## Members and operators -/

theorem within_getD {o : Option Value} (h : ∀ v, o = some v → v.Within n) :
    (o.getD .undefined).Within n := by
  cases o with
  | none => trivial
  | some v => exact h v rfl

theorem within_headD {vs : List Value} (h : ∀ v ∈ vs, v.Within n) :
    (vs.headD .undefined).Within n := by
  cases vs with
  | nil => trivial
  | cons v vs => exact h v List.mem_cons_self

/-- An operator gives no class. -/
theorem within_binary {h : Heap} {ps : Promises} {op : BinaryOp} {l r v : Value} {pos : Position}
    (hv : l.binary h ps op r pos = .ok v) : v.Within n := by
  cases v with
  | cls c =>
    exfalso
    have hconcat : Value.concat h ps l r ≠ .ok (.cls c) := by
      unfold Value.concat
      split <;> simp
    have hnumbers (a b : Float) : Value.numbers? op a b ≠ some (.cls c) := by
      unfold Value.numbers?
      split
      · simp
      · split <;> simp
    unfold Value.binary at hv
    dsimp only at hv
    split at hv
    · cases hv
    · cases hv
    · cases hv
    · cases hv
    · split at hv
      · exact hconcat hv
      · split at hv
        · split at hv
          · rename_i hnum
            cases hv
            exact hnumbers _ _ hnum
          · cases hv
        · split at hv <;> cases hv
        · cases hv
  | _ => trivial

theorem within_unary {op : UnaryOp} {v v' : Value} {pos : Position}
    (h : v.unary op pos = .ok v') : v'.Within n := by
  unfold Value.unary at h
  split at h <;> cases h <;> trivial

section Members

variable {ps : Promises} {v key new : Value} {attr : String} {pos : Position}

theorem within_keyDisplay : (keyDisplay ps key).Within n fun _ => True :=
  .bind within_heap fun _ _ => .ofOption fun _ _ => trivial

theorem within_applyBinary {op : BinaryOp} {l r : Value} :
    (applyBinary ps op l r pos).Within n (Value.Within n) :=
  .bind within_heap fun _ _ => .ofExcept fun _ hv => within_binary hv

theorem within_arrayMember {r : Ref .array} :
    (arrayMember r attr).Within n (Value.Within n) := by
  unfold arrayMember
  split
  · exact .bind within_heap fun _ _ => .pure trivial
  · split
    · exact within_newFunction
    · exact .pure trivial

theorem within_stringMember {s : String} : (stringMember s attr).Within n := by
  unfold stringMember
  split <;> trivial

theorem within_instanceMember {r : Ref .inst} :
    (instanceMember r attr).Within n (Value.Within n) := by
  refine .bind within_heap fun h hh => ?_
  dsimp only
  split
  · rename_i v hv
    exact .pure ((hh.instances r).get? hv)
  · split
    · exact within_newFunction
    · exact .pure trivial

theorem within_getMember : (getMember v attr pos).Within n (Value.Within n) := by
  unfold getMember
  split
  · exact within_instanceMember
  · rename_i r
    exact .bind within_heap fun h hh => .pure (within_getD fun _ hv => (hh.objects r).get? hv)
  · exact .fault
  · exact .fault
  · refine .bind within_heap fun h _ => .pure ?_
    split <;> trivial
  · refine .bind within_heap fun h _ => .pure ?_
    split <;> trivial
  · exact within_arrayMember
  · exact .pure within_stringMember
  all_goals exact .pure trivial

theorem within_setMember (hnew : new.Within n) :
    (setMember v attr new pos).Within n fun _ => True := by
  unfold setMember
  split
  · exact within_modifyHeap fun _ hh => hh.setField _ attr hnew
  · exact within_modifyHeap fun _ hh => hh.setProperty _ attr hnew
  · exact .fault

theorem within_charAt {s : String} {k : ℕ} (h : charAt? s k = some v) : v.Within n := by
  obtain ⟨c, -, rfl⟩ := Option.map_eq_some_iff.mp h
  trivial

theorem within_getIndex : (getIndex ps v key pos).Within n (Value.Within n) := by
  unfold getIndex
  split
  · rename_i r x
    refine .bind within_heap fun h hh => .pure (within_getD fun v hv => ?_)
    obtain ⟨i, -, hi⟩ := Option.bind_eq_some_iff.mp hv
    exact hh.arrays r v (Array.mem_of_getElem? hi)
  · refine .pure (within_getD fun v hv => ?_)
    obtain ⟨i, -, hi⟩ := Option.bind_eq_some_iff.mp hv
    exact within_charAt hi
  · exact .bind within_keyDisplay fun _ _ => within_arrayMember
  · exact .bind within_keyDisplay fun _ _ => .pure within_stringMember
  · exact .bind within_keyDisplay fun _ _ => within_getMember
  · exact .bind within_keyDisplay fun _ _ => within_getMember
  · exact .fault

theorem within_putItem {k : ℕ} (hnew : new.Within n) {items : Array Value}
    (h : ∀ v ∈ items, v.Within n) : ∀ v ∈ putItem k new items, v.Within n := by
  intro v hv
  unfold putItem at hv
  split at hv
  · obtain hv | rfl := Array.mem_or_eq_of_mem_setIfInBounds hv
    · exact h v hv
    · exact hnew
  · obtain hv | rfl := Array.mem_push.mp hv
    · obtain hv | hv := Array.mem_append.mp hv
      · exact h v hv
      · obtain ⟨-, rfl⟩ := Array.mem_replicate.mp hv
        trivial
    · exact hnew

theorem within_setIndex (hnew : new.Within n) :
    (setIndex ps v key new pos).Within n fun _ => True := by
  unfold setIndex
  split
  · dsimp only
    split
    · exact within_modifyHeap fun _ hh => hh.modifyArray _ fun _ ha => within_putItem hnew ha
    · exact .bind within_heap fun _ _ => .bind (P := fun _ => True)
        (.ofOption fun _ _ => trivial) fun _ _ => .fault
  · exact .bind within_keyDisplay fun _ _ => within_setMember hnew
  · exact .bind within_keyDisplay fun _ _ => within_setMember hnew
  · exact .fault

theorem within_readPlace {place : Place} :
    (readPlace ps place).Within n (Value.Within n) := by
  cases place with
  | «variable» => exact within_lookup
  | member => exact within_getMember
  | element => exact within_getIndex

theorem within_writePlace (hv : v.Within n) {place : Place} :
    (writePlace ps v place).Within n fun _ => True := by
  cases place with
  | «variable» => exact within_assign hv
  | member => exact within_setMember hv
  | element => exact within_setIndex hv

theorem within_stepPlace {place : Place} {op : UpdateOp} {before : Bool} :
    (stepPlace ps place op before pos).Within n (Value.Within n) :=
  .bind within_readPlace fun _ _ => .bind (P := fun _ => True) (.ofExcept fun _ _ => trivial)
    fun _ _ => .bind (within_writePlace (v := .number _) trivial) fun _ _ => .pure trivial

end Members

end CoScript
