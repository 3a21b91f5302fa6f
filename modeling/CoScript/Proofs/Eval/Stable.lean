import CoScript.Proofs.Eval.Keeps
import CoScript.Proofs.Store.Constants

/-!
# What most of the evaluation leaves alone

Most parts of the evaluation make no function of the script and no class, and write a binding only
after a look at what is there. What such parts cannot break is stable, whatever else it says.

Results:
* `Inert`: an invariant of the heap that such parts cannot break if they write no binding.
* `Stable`: one that they cannot break at all.
* `Inert.getMember`, `Stable.define`, ...: one lemma for each such part.
-/

namespace CoScript

open Effect

variable {α β : Type} {J : Heap → Prop} {I : World → Prop}

/-- A computation that keeps an invariant of the world. -/
abbrev Effect.Upholds (I : World → Prop) (x : Effect α) : Prop :=
  x.Keeps I fun _ => True

/-- A computation that keeps an invariant of the heap. -/
abbrev Effect.Leaves (J : Heap → Prop) (x : Effect α) : Prop :=
  x.Upholds fun w => J w.heap

/-! ## Changes of the heap -/

theorem keeps_heap : heap.Keeps (fun w => J w.heap) J :=
  .bind .get fun _ hw => .pure hw

theorem leaves_heap : heap.Upholds I :=
  .bind .get fun _ _ => .pure trivial

/-- A computation that starts by looking at the heap. -/
theorem run_heap_bind (f : Heap → Effect α) (w : World) : (heap >>= f).run w = (f w.heap).run w :=
  rfl

theorem leaves_modifyHeap {f : Heap → Heap} (h : ∀ hp, J hp → J (f hp)) :
    (modifyHeap f).Leaves J :=
  .modify fun w hw => h w.heap hw

theorem leaves_inHeap {f : Heap → α × Heap} (h : ∀ hp, J hp → J (f hp).2) : (inHeap f).Leaves J :=
  .modifyGet fun w hw => ⟨h w.heap hw, trivial⟩

theorem keeps_modifyHeap {f : Heap → Heap} (h : ∀ w, I w → I { w with heap := f w.heap }) :
    (modifyHeap f).Upholds I :=
  .modify h

theorem leaves_ofOption {o : Option α} : (ofOption o).Upholds I :=
  .ofOption fun _ _ => trivial

theorem leaves_ofExcept {e : Except Halt α} : (liftM e : Effect α).Upholds I :=
  .ofExcept fun _ _ => trivial

theorem leaves_lookup {scope : Ref .scope} {name : String} {pos : Option Position} :
    (lookup scope name pos).Upholds I := by
  refine .bind leaves_heap fun h _ => ?_
  split
  · exact .pure trivial
  · exact .fault

/-! ## Invariants that most parts cannot break -/

/-- An invariant of the world that new functions which are not of the script cannot break, nor names
    for functions, nor any change of what is no function, no class and no scope. -/
structure Inert (I : World → Prop) : Prop where
  inert : ∀ {w w' : World}, I w → w'.globals = w.globals → w'.heap.functions = w.heap.functions →
    w'.heap.classes = w.heap.classes → w'.heap.scopes = w.heap.scopes → I w'
  native : ∀ {w : World} {f : Function}, (∀ c, f ≠ .closure c) → I w →
    I { w with heap := (w.heap.newFunction f).2 }
  named : ∀ {w : World} (v : Value) (name : String), I w →
    I { w with heap := w.heap.nameFunction v name }

/-- An invariant of the heap that writes of bindings that look at what is there cannot break
    either. -/
structure Stable (J : Heap → Prop) : Prop extends Inert fun w => J w.heap where
  scopes : ∀ {h : Heap}, Scopes.Sparing fun s => J { h with scopes := s }

namespace Inert

theorem newFunction (hI : Inert I) {f : Function} (hf : ∀ c, f ≠ .closure c) :
    (Effect.newFunction f).Upholds I :=
  .bind (P := fun _ => True) (.modifyGet fun _ hw => ⟨hI.native hf hw, trivial⟩) fun _ _ =>
    .pure trivial

theorem nameFunction (hI : Inert I) {v : Value} {name : String} :
    (modifyHeap (·.nameFunction v name)).Upholds I :=
  keeps_modifyHeap fun _ hw => hI.named v name hw

theorem record (hI : Inert I) {level : Level} {message : String} :
    (Effect.record level message).Upholds I :=
  .modify fun _ hw => hI.inert hw rfl rfl rfl rfl

end Inert

namespace Stable

/-! ### Scopes -/

section Scopes

variable {scope : Ref .scope} {name : String} {value : Value}

theorem newScope (hJ : Stable J) {isFunction : Bool} :
    (Effect.newScope scope isFunction).Leaves J :=
  leaves_inHeap fun h hh => hJ.scopes.new (s := h.scopes) (some scope) isFunction hh

theorem copyScope (hJ : Stable J) : (inHeap (·.copyScope scope)).Leaves J :=
  leaves_inHeap fun h hh => hJ.scopes.copy (s := h.scopes) scope hh

/-- A declaration looks whether its scope has the name. -/
theorem define (hJ : Stable J) {isConst : Bool} {pos : Option Position} :
    (Effect.define scope name value isConst pos).Leaves J := by
  intro w hw
  refine ⟨?_, fun _ _ => trivial⟩
  unfold Effect.define
  rw [run_heap_bind]
  cases hd : w.heap.scopes.defineFault? scope name with
  | some cause => exact hw
  | none => exact hJ.scopes.define (s := w.heap.scopes) _ hd hw

/-- An assignment looks whether the binding is constant. -/
theorem assign (hJ : Stable J) {pos : Position} :
    (Effect.assign scope name value pos).Leaves J := by
  intro w hw
  refine ⟨?_, fun _ _ => trivial⟩
  unfold Effect.assign
  rw [run_heap_bind]
  cases ht : w.heap.scopes.assignTarget scope name with
  | error cause => exact hw
  | ok target => exact hJ.scopes.assign (s := w.heap.scopes) value ht hw

theorem bindReceiver (hJ : Stable J) {receiver above : Value} :
    (bindReceiver scope receiver above).Leaves J :=
  .bind hJ.define fun _ _ => hJ.define

/-- A declaration that no `var` with a value makes. -/
theorem declare (hJ : Stable J) {kind : DeclKind} {value : Option Value} {pos : Option Position}
    (h : kind = .function → value = none) :
    (CoScript.declare kind name value scope pos).Leaves J := by
  cases kind with
  | function =>
    obtain rfl := h rfl
    exact leaves_modifyHeap fun h hh => hJ.scopes.declareVar (s := h.scopes) scope name hh
  | block => exact hJ.define
  | constant => exact hJ.define

end Scopes

end Stable

/-! ### Values of the host -/

/-- A computation in the heap that keeps an invariant of it. -/
def InHeap.Leaves (J : Heap → Prop) (f : InHeap α) : Prop :=
  ∀ h a h', f.run h = .ok (a, h') → J h → J h'

namespace InHeap.Leaves

variable {f : InHeap α} {g : α → InHeap β}

theorem pure {a : α} : (Pure.pure a : InHeap α).Leaves J := by
  rintro h _ _ ⟨⟩ hh
  exact hh

theorem bind (hf : f.Leaves J) (hg : ∀ a, (g a).Leaves J) : (f >>= g).Leaves J := by
  intro h b h' hrun hh
  rw [StateT.run_bind] at hrun
  cases hfr : f.run h with
  | error cause =>
    rw [hfr] at hrun
    cases hrun
  | ok r =>
    obtain ⟨a, h₁⟩ := r
    rw [hfr] at hrun
    exact hg a h₁ b h' hrun (hf h a h₁ hfr hh)

theorem whole {n : Int} : (InHeap.whole n).Leaves J := by
  unfold InHeap.whole
  split
  · exact pure
  · rintro h _ _ ⟨⟩

theorem get : (MonadState.get : InHeap Heap).Leaves J := by
  rintro h _ _ ⟨⟩ hh
  exact hh

theorem mapM {items : List α} {g : α → InHeap β} (hg : ∀ a, (g a).Leaves J) :
    (items.mapM g).Leaves J := by
  induction items with
  | nil => exact pure
  | cons a items ih =>
    rw [List.mapM_cons]
    exact bind (hg a) fun _ => bind ih fun _ => pure

section Inert

variable {w : World}

theorem array (hI : Inert I) {items : List Value} :
    (InHeap.array items).Leaves fun h => I { w with heap := h } := by
  rintro h _ _ ⟨⟩ hh
  exact hI.inert hh rfl rfl rfl rfl

theorem object (hI : Inert I) {fields : List (String × Value)} :
    (InHeap.object fields).Leaves fun h => I { w with heap := h } := by
  rintro h _ _ ⟨⟩ hh
  exact hI.inert hh rfl rfl rfl rfl

theorem host (hI : Inert I) {name : String} :
    (InHeap.function (.host name)).Leaves fun h => I { w with heap := h } := by
  rintro h _ _ ⟨⟩ hh
  exact hI.native (w := { w with heap := h }) (by simp) hh

theorem copyFrom (hI : Inert I) (fuel : ℕ) (v : Value) :
    (v.copyFrom fuel).Leaves fun h => I { w with heap := h } := by
  induction fuel generalizing v with
  | zero => rintro h _ _ ⟨⟩
  | succ fuel ih =>
    unfold Value.copyFrom
    split
    · exact bind get fun h => bind (mapM ih) fun _ => array hI
    · exact bind get fun h => bind (mapM fun e => bind (ih e.2) fun _ => pure) fun _ => object hI
    · exact pure

theorem copy (hI : Inert I) (v : Value) : v.copy.Leaves fun h => I { w with heap := h } :=
  bind get fun _ => copyFrom hI _ v

end Inert

end InHeap.Leaves

mutual

theorem leaves_toValue (hI : Inert I) (w : World) :
    (v : HostValue) → v.toValue.Leaves fun h => I { w with heap := h }
  | .value v => .copy hI v
  | .whole _ => .whole
  | .array items => .bind (leaves_itemsToValues hI w items) fun _ => .array hI
  | .object fields => .bind (leaves_fieldsToValues hI w fields) fun _ => .object hI
  | .function _ => .host hI

theorem leaves_itemsToValues (hI : Inert I) (w : World) :
    (vs : List HostValue) → (itemsToValues vs).Leaves fun h => I { w with heap := h }
  | [] => .pure
  | v :: r =>
    .bind (leaves_toValue hI w v) fun _ => .bind (leaves_itemsToValues hI w r) fun _ => .pure

theorem leaves_fieldsToValues (hI : Inert I) (w : World) :
    (vs : List (String × HostValue)) → (fieldsToValues vs).Leaves fun h => I { w with heap := h }
  | [] => .pure
  | (_, v) :: r =>
    .bind (leaves_toValue hI w v) fun _ => .bind (leaves_fieldsToValues hI w r) fun _ => .pure

end

/-! ### What changes nothing -/

namespace Stable

variable {ps : Promises} {pos : Position}

theorem keyDisplay {key : Value} : (keyDisplay ps key).Upholds I :=
  .bind leaves_heap fun _ _ => leaves_ofOption

theorem applyBinary {op : BinaryOp} {l r : Value} : (applyBinary ps op l r pos).Upholds I :=
  .bind leaves_heap fun _ _ => leaves_ofExcept

theorem checkDepth {t : Thread} : (checkDepth t).Upholds I := by
  refine .bind .get fun w _ => ?_
  split
  · exact .abort
  · exact .pure trivial

theorem superclassOf {d : ClassDecl} {scope : Ref .scope} : (superclassOf d scope).Upholds I := by
  unfold CoScript.superclassOf
  split
  · exact .pure trivial
  · refine .bind leaves_lookup fun v _ => ?_
    split
    · exact .pure trivial
    · exact .fault

end Stable

/-! ### Members and operators -/

namespace Inert

theorem ofHeap (hI : Inert I) (v : HostValue) : (ofHeap v.toValue).Upholds I := by
  intro w hw
  refine ⟨?_, fun _ _ => trivial⟩
  unfold Effect.ofHeap
  rw [run_heap_bind]
  cases hrun : v.toValue.run w.heap with
  | error cause => exact hw
  | ok r => exact leaves_toValue hI w v w.heap r.1 r.2 hrun hw

section Members

variable {ps : Promises} {v key new : Value} {attr : String} {pos : Position}

theorem arrayMember (hI : Inert I) {r : Ref .array} : (arrayMember r attr).Upholds I := by
  unfold CoScript.arrayMember
  split
  · exact .bind leaves_heap fun _ _ => .pure trivial
  · split
    · exact hI.newFunction (by simp)
    · exact .pure trivial

theorem instanceMember (hI : Inert I) {r : Ref .inst} : (instanceMember r attr).Upholds I := by
  refine .bind leaves_heap fun h _ => ?_
  dsimp only
  split
  · exact .pure trivial
  · split
    · exact hI.newFunction (by simp)
    · exact .pure trivial

theorem getMember (hI : Inert I) : (getMember v attr pos).Upholds I := by
  unfold CoScript.getMember
  split
  · exact hI.instanceMember
  · exact .bind leaves_heap fun _ _ => .pure trivial
  · exact .fault
  · exact .fault
  · exact .bind leaves_heap fun _ _ => .pure trivial
  · exact .bind leaves_heap fun _ _ => .pure trivial
  · exact hI.arrayMember
  · exact .pure trivial
  · exact .pure trivial
  · exact .pure trivial
  · exact .pure trivial

theorem setMember (hI : Inert I) : (setMember v attr new pos).Upholds I := by
  unfold CoScript.setMember
  split
  · exact keeps_modifyHeap fun _ hw => hI.inert hw rfl rfl rfl rfl
  · exact keeps_modifyHeap fun _ hw => hI.inert hw rfl rfl rfl rfl
  · exact .fault

theorem getIndex (hI : Inert I) : (getIndex ps v key pos).Upholds I := by
  unfold CoScript.getIndex
  split
  · exact .bind leaves_heap fun _ _ => .pure trivial
  · exact .pure trivial
  · exact .bind Stable.keyDisplay fun _ _ => hI.arrayMember
  · exact .bind Stable.keyDisplay fun _ _ => .pure trivial
  · exact .bind Stable.keyDisplay fun _ _ => hI.getMember
  · exact .bind Stable.keyDisplay fun _ _ => hI.getMember
  · exact .fault

theorem setIndex (hI : Inert I) : (setIndex ps v key new pos).Upholds I := by
  unfold CoScript.setIndex
  split
  · dsimp only
    split
    · exact keeps_modifyHeap fun _ hw => hI.inert hw rfl rfl rfl rfl
    · exact .bind leaves_heap fun _ _ => .bind leaves_ofOption fun _ _ => .fault
  · exact .bind Stable.keyDisplay fun _ _ => hI.setMember
  · exact .bind Stable.keyDisplay fun _ _ => hI.setMember
  · exact .fault

theorem readPlace (hI : Inert I) (place : Place) : (readPlace ps place).Upholds I := by
  cases place with
  | «variable» => exact leaves_lookup
  | member => exact hI.getMember
  | element => exact hI.getIndex

end Members

/-! ### Calls and imports -/

section Calls

variable {ps : Promises} {args : List Value}

theorem printValues (hI : Inert I) : (printValues ps args).Upholds I :=
  .bind leaves_heap fun _ _ => .bind leaves_ofOption fun _ _ =>
    .bind (.modify fun _ hw => hI.inert hw rfl rfl rfl rfl) fun _ _ => .pure trivial

theorem callArrayMethod (hI : Inert I) {m : ArrayMethod} {r : Ref .array} :
    (callArrayMethod ps m r args).Upholds I := by
  refine .bind leaves_heap fun h _ => ?_
  dsimp only
  split
  · exact .bind (keeps_modifyHeap fun _ hw => hI.inert hw rfl rfl rfl rfl) fun _ _ =>
      .bind leaves_heap fun _ _ => .pure trivial
  · exact .bind (keeps_modifyHeap fun _ hw => hI.inert hw rfl rfl rfl rfl) fun _ _ => .pure trivial
  · split
    · exact .bind (P := fun _ => True) (.pure trivial) fun _ _ =>
        .bind leaves_ofOption fun _ _ => .pure trivial
    · exact .bind leaves_ofOption fun _ _ => .bind leaves_ofOption fun _ _ => .pure trivial
  · exact .pure trivial
  · split
    · exact .pure trivial
    · exact .pure trivial

theorem takeAnswer (hI : Inert I) {answer : HostAnswer} {pos : Position} :
    (takeAnswer answer pos).Upholds I := by
  have hafter (w : World) (hw : I w) : I (w.after answer) := by
    obtain ⟨hf, hc, hs⟩ := w.heap.changeAll_code answer.changes
    exact hI.inert hw rfl hf hc hs
  refine .bind (.modify hafter) fun _ _ => ?_
  split
  · exact hI.ofHeap _
  · exact .throw

theorem callHost (hI : Inert I) {name : String} {pos : Position} :
    (callHost ps name args pos).Upholds I := by
  refine .bind .get fun w _ => ?_
  split
  · exact .pure trivial
  · exact hI.takeAnswer

end Calls

theorem checkInterfaces (hI : Inert I) {d : ClassDecl} {r : Ref .cls} :
    (checkInterfaces d r).Upholds I := by
  refine .bind leaves_heap fun h _ => .bind (.forIn (P := fun _ => True) trivial fun i _ _ _ => ?_)
    fun _ _ => .pure trivial
  refine .bind .get fun w _ => .bind (.forIn (P := fun _ => True) trivial fun m _ _ _ => ?_)
    fun _ _ => .pure trivial
  split
  · exact .bind hI.record fun _ _ => .pure trivial
  · exact .pure trivial

theorem declareInterface (hI : Inert I) {d : InterfaceDecl} : (declareInterface d).Upholds I :=
  .modify fun _ hw => hI.inert hw rfl rfl rfl rfl

theorem recordLoaded_eq (w : World) (loaded : List Loaded) :
    (recordLoaded w loaded).heap = w.heap ∧ (recordLoaded w loaded).globals = w.globals := by
  unfold recordLoaded
  induction loaded generalizing w with
  | nil => exact ⟨rfl, rfl⟩
  | cons l loaded ih =>
    rw [List.foldl_cons]
    exact ih _

theorem resolveModule (hI : Inert I) {d : ImportDecl} : (resolveModule d).Upholds I := by
  refine .bind .get fun w _ => ?_
  split
  · exact .pure trivial
  · refine .bind (.modifyGet (P := fun _ => True) fun w hw => ⟨?_, trivial⟩) fun answer _ => ?_
    · obtain ⟨hheap, hglobals⟩ := recordLoaded_eq
        { w with resolvers := (w.resolvers.resolve _ d.specifier).2.2 }
        (w.resolvers.resolve _ d.specifier).2.1
      exact hI.inert hw hglobals (by rw [hheap]) (by rw [hheap]) (by rw [hheap])
    · split
      · exact .pure trivial
      · exact .fault

theorem importedExports (hI : Inert I) {d : ImportDecl} : (importedExports d).Upholds I := by
  refine .bind hI.resolveModule fun o _ => ?_
  split
  · exact .bind hI.record fun _ _ => .pure trivial
  · refine .bind .get fun w _ => ?_
    split
    · exact .bind hI.record fun _ _ => .pure trivial
    · exact .fault

theorem importedValue (hI : Inert I) {d : ImportDecl} {exports : Exports} {b : ImportBinding} :
    (importedValue d exports b).Upholds I := by
  unfold CoScript.importedValue
  split
  · exact hI.ofHeap _
  · split
    · exact hI.ofHeap _
    · refine .bind .get fun w _ => ?_
      split
      · exact .pure trivial
      · exact .fault

end Inert

/-! ### Writes of bindings -/

namespace Stable

section Members

variable {ps : Promises} {pos : Position}

theorem writePlace (hJ : Stable J) (v : Value) (place : Place) :
    (writePlace ps v place).Leaves J := by
  cases place with
  | «variable» => exact hJ.assign
  | member => exact hJ.setMember
  | element => exact hJ.setIndex

theorem stepPlace (hJ : Stable J) {place : Place} {op : UpdateOp} {before : Bool} :
    (stepPlace ps place op before pos).Leaves J :=
  .bind (hJ.readPlace place) fun _ _ => .bind leaves_ofExcept fun _ _ =>
    .bind (hJ.writePlace _ place) fun _ _ => .pure trivial

end Members

theorem fieldScope (hJ : Stable J) {f : PendingField} {target : Ref .inst} :
    (fieldScope f target).Leaves J :=
  .bind leaves_heap fun _ _ => .bind hJ.newScope fun _ _ =>
    .bind hJ.bindReceiver fun _ _ => .pure trivial

theorem bindImport (hJ : Stable J) {d : ImportDecl} : (bindImport d).Leaves J :=
  .bind hJ.importedExports fun _ _ => .bind (.forIn (P := fun _ => True) trivial
    fun _ _ _ _ => .bind hJ.importedValue fun _ _ => .bind .get fun _ _ =>
      .bind hJ.define fun _ _ => .pure trivial) fun _ _ => .pure trivial

end Stable

end CoScript
