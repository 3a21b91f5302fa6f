import CoScript.Proofs.Class.Effect

/-!
# Classes come from declarations

A step of a thread brings no class in, but for the declaration of a class, which brings in the next
one, over a class that exists.

Results:
* `within_callFunction`, `within_evalExpr`, `within_execStmt`, `within_receive`, ...: one lemma for
  each part of the evaluation.
* `within_declareClass`: the declaration of a class.
* `Thread.Within.step`: a step of a thread.
-/

namespace CoScript

open Effect

variable {n : ℕ}

/-! ## Calls -/

section Calls

variable {ps : Promises} {stack : List Frame} {args : List Value} {receiver v : Value}
  {pos : Position} {scope : Ref .scope}

/-- A value reaches frames. -/
theorem Move.Within.ret (hv : v.Within n) (hst : StackWithin n stack) :
    (Move.ret v stack).Within n :=
  ⟨hv, hst⟩

theorem Move.Within.done (hst : StackWithin n stack) : (Move.done stack).Within n :=
  ⟨trivial, hst⟩

/-- A value that is found is handed on. -/
theorem within_ret {x : Effect Value} (hx : x.Within n (Value.Within n))
    (hst : StackWithin n stack) :
    (x >>= fun v => Pure.pure (Move.ret v stack)).Within n (Move.Within n) :=
  .bind hx fun _ hv => .pure (.ret hv hst)

theorem within_printValues : (printValues ps args).Within n (Value.Within n) :=
  .bind within_heap fun _ _ => .bind (P := fun _ => True) (.ofOption fun _ _ => trivial) fun _ _ =>
    .bind (.modify fun _ hw => { hw with }) fun _ _ => .pure trivial

theorem within_callArrayMethod {m : ArrayMethod} {r : Ref .array}
    (ha : ∀ v ∈ args, v.Within n) :
    (callArrayMethod ps m r args).Within n (Value.Within n) := by
  refine .bind within_heap fun h hh => ?_
  have hitems := hh.arrays r
  dsimp only
  split
  · refine .bind (within_modifyHeap fun _ hh => hh.modifyArray r fun items hi v hv => ?_) fun _ _ =>
      .bind within_heap fun _ _ => .pure trivial
    obtain hv | hv := Array.mem_append.mp hv
    · exact hi v hv
    · exact ha v (List.mem_toArray.mp hv)
  · have hpop {items : Array Value} (hi : ∀ v ∈ items, v.Within n) :
        ∀ v ∈ items.pop, v.Within n := fun v hv => hi v <| Array.mem_toList_iff.mp <|
      List.dropLast_subset _ (Array.toList_pop ▸ Array.mem_toList_iff.mpr hv)
    exact .bind (within_modifyHeap fun _ hh => hh.modifyArray r fun _ hi => hpop hi) fun _ _ =>
      .pure (within_getD fun v hv => hitems v (Array.mem_of_back? hv))
  · have hjoin {separator : String} : (do
        return .string (← ofOption (h.joinItems ps separator (h.array r))) :
          Effect Value).Within n (Value.Within n) :=
      .bind (P := fun _ => True) (.ofOption fun _ _ => trivial) fun _ _ => .pure trivial
    split
    · exact hjoin
    · exact .bind (P := fun _ => True) (.ofOption fun _ _ => trivial) fun _ _ => hjoin
  · exact .pure trivial
  · split <;> exact .pure trivial

theorem within_takeAnswer {answer : HostAnswer} (ha : answer.Within n) :
    (takeAnswer answer pos).Within n (Value.Within n) := by
  refine .bind (.modify fun _ hw => hw.after ha) fun _ _ => ?_
  split
  · rename_i v hv
    exact within_ofHeap (within_toValue (ha.result v hv))
  · exact .throw

/-- A function of the host makes up no class. -/
theorem within_callHost {name : String} (hps : ps.Within n) (ha : ∀ v ∈ args, v.Within n) :
    (callHost ps name args pos).Within n (Value.Within n) := by
  refine .bind .get fun w hw => ?_
  split
  · exact .pure trivial
  · rename_i f hf
    have hcall : HostCall.Within n ⟨args, w.heap, ps, w.memory⟩ := ⟨ha, hw.heap, hps, hw.memory⟩
    exact within_takeAnswer (hw.host.get? hf n (Nat.le_refl n) _ hcall)

theorem within_callClosure {c : Closure} (hr : receiver.Within n) (ha : ∀ v ∈ args, v.Within n)
    (hst : StackWithin n stack) : (callClosure c args receiver stack).Within n := by
  unfold callClosure
  split
  · exact ⟨⟨hr, ha⟩, hst⟩
  · exact ⟨⟨hr, ha⟩, hst.cons trivial⟩

theorem within_callFunction {r : Ref .function} (hps : ps.Within n) (hr : receiver.Within n)
    (ha : ∀ v ∈ args, v.Within n) (hst : StackWithin n stack) :
    (callFunction ps r args receiver pos stack).Within n (Move.Within n) := by
  refine .bind within_heap fun h _ => ?_
  split
  · exact within_ret within_printValues hst
  · exact within_ret (within_callArrayMethod ha) hst
  · exact within_ret (within_callHost hps ha) hst
  · exact .pure (within_callClosure hr ha hst)
  · split
    · exact .pure (within_callClosure trivial ha hst)
    · exact .pure (.ret trivial hst)

theorem within_invoke {callee : Value} (hps : ps.Within n) (ha : ∀ v ∈ args, v.Within n)
    (hst : StackWithin n stack) :
    (invoke ps callee args pos stack).Within n (Move.Within n) := by
  unfold invoke
  split
  · exact within_callFunction hps trivial ha hst
  · exact .fault

theorem within_bindReceiver {above : Value} (hr : receiver.Within n) (ha : above.Within n) :
    (bindReceiver scope receiver above).Within n fun _ => True :=
  .bind (within_define hr) fun _ _ => within_define ha

theorem within_enterFunction {c : Closure} (hr : receiver.Within n) (ha : ∀ v ∈ args, v.Within n)
    (hst : StackWithin n stack) :
    (enterFunction c args receiver stack).Within n (Move.Within n) := by
  refine .bind within_newScope fun own _ => ?_
  dsimp only
  split
  · exact .bind within_heap fun h hh => .bind (within_bindReceiver hr (hh.superOf c.home))
      fun _ _ => .pure ⟨ha, hst⟩
  · exact .pure ⟨ha, hst⟩

theorem within_bindParams {params : List Param} {body : FunctionBody}
    (ha : ∀ v ∈ args, v.Within n) (hst : StackWithin n stack) :
    (bindParams params args body scope stack).Within n (Move.Within n) := by
  have hrest : ∀ v ∈ args.drop 1, v.Within n := fun v hv => ha v (List.mem_of_mem_drop hv)
  unfold bindParams
  split
  · split <;> exact .pure ⟨trivial, hst⟩
  · split
    · exact .pure ⟨trivial, hst.cons hrest⟩
    · exact .bind (within_define (within_headD ha)) fun _ _ => .pure ⟨hrest, hst⟩

/-! ### Construction -/

theorem within_construct {r : Ref .cls} (ha : ∀ v ∈ args, v.Within n)
    (hst : StackWithin n stack) : (construct r args stack).Within n (Move.Within n) :=
  .bind (P := fun _ => True) (within_inHeap fun _ hh => ⟨hh.newInstance r, trivial⟩) fun _ _ =>
    .bind within_heap fun _ _ => .pure ⟨ha, hst⟩

theorem within_fieldScope {f : PendingField} {target : Ref .inst} :
    (fieldScope f target).Within n fun _ => True :=
  .bind within_heap fun _ hh => .bind within_newScope fun _ _ =>
    .bind (within_bindReceiver trivial (hh.superOf (some f.cls))) fun _ _ => .pure trivial

theorem within_initialise {k : Construction} (ha : ∀ v ∈ k.args, v.Within n)
    (hst : StackWithin n stack) : (initialise k stack).Within n (Move.Within n) := by
  unfold initialise
  split
  · refine .bind within_heap fun h _ => ?_
    split
    · exact .pure ⟨⟨trivial, ha⟩, StackWithin.cons trivial (.cons trivial hst)⟩
    · exact .pure (.ret trivial hst)
  · dsimp only
    split
    · exact .bind (within_modifyHeap fun _ hh => hh.setField _ _ trivial) fun _ _ => .pure ⟨ha, hst⟩
    · exact .bind within_fieldScope fun own _ => .pure ⟨trivial, hst.cons ha⟩

theorem within_callSuper {r : Ref .cls} (hr : receiver.Within n) (ha : ∀ v ∈ args, v.Within n)
    (hst : StackWithin n stack) :
    (callSuper r receiver args stack).Within n (Move.Within n) := by
  refine .bind within_heap fun h _ => ?_
  split
  · exact .pure ⟨⟨hr, ha⟩, StackWithin.cons trivial (.cons trivial hst)⟩
  · exact .pure (.ret trivial hst)

/-! ### Collected values -/

theorem within_applyPurpose {p : Purpose} (hps : ps.Within n) (hp : p.Within n)
    (ha : ∀ v ∈ args, v.Within n) (hst : StackWithin n stack) :
    (applyPurpose ps p args stack).Within n (Move.Within n) := by
  unfold applyPurpose
  split
  · split
    · exact within_callFunction hps hp.2 ha hst
    · exact .bind within_heap fun _ _ => .fault
    · exact .fault
  · split
    · exact within_construct ha hst
    · exact .fault
  · exact within_callSuper hp ha hst
  · exact .bind (P := fun _ => True)
      (within_inHeap fun _ hh => ⟨hh.newArray (by simpa using ha), trivial⟩) fun _ _ =>
      .pure (.ret trivial hst)

theorem within_collectArgs {p : Purpose} {done : List Value} {rest : List Expr}
    (hps : ps.Within n) (hp : p.Within n) (hd : ∀ v ∈ done, v.Within n)
    (hst : StackWithin n stack) :
    (collectArgs ps p done rest scope stack).Within n (Move.Within n) := by
  unfold collectArgs
  split
  · exact within_applyPurpose hps hp (fun v hv => hd v (List.mem_reverse.mp hv)) hst
  · exact .pure ⟨trivial, hst.cons ⟨hp, hd⟩⟩

end Calls

/-! ## Expressions -/

section Expressions

variable {ps : Promises} {stack : List Frame} {scope : Ref .scope}

theorem within_usePlace {place : Place} {use : PlaceUse} (hp : place.Within n)
    (hst : StackWithin n stack) :
    (usePlace ps place use scope stack).Within n (Move.Within n) := by
  unfold usePlace
  split
  · exact within_ret within_stepPlace hst
  · split
    · exact .pure ⟨trivial, hst.cons hp⟩
    · exact .bind within_readPlace fun _ hv => .pure ⟨trivial, hst.cons ⟨hp, hv⟩⟩

theorem within_evalTarget {target : Expr} {use : PlaceUse} (hst : StackWithin n stack) :
    (evalTarget ps target use scope stack).Within n (Move.Within n) := by
  unfold evalTarget
  split
  · exact within_usePlace trivial hst
  · exact .pure ⟨trivial, hst.cons trivial⟩
  · exact .pure ⟨trivial, hst.cons trivial⟩
  · exact .abort

theorem within_evalCall {callee : Expr} {args : List Expr} {pos : Position}
    (hst : StackWithin n stack) : (evalCall callee args pos scope stack).Within n := by
  unfold evalCall
  dsimp only
  split <;> exact ⟨trivial, hst.cons trivial⟩

theorem within_evalFunction {name : Option String} {params : List Param} {body : Block}
    {isAsync : Bool} :
    (evalFunction name params body isAsync scope).Within n (Value.Within n) := by
  unfold evalFunction
  split
  · exact within_newFunction
  · exact .bind within_newScope fun own _ => .bind within_newFunction fun f hf =>
      .bind (within_define hf) fun _ _ => .pure hf

theorem within_evalSuperCall {args : List Expr} {pos : Position} (hps : ps.Within n)
    (hst : StackWithin n stack) :
    (evalSuperCall ps args pos scope stack).Within n (Move.Within n) := by
  refine .bind within_lookup fun v _ => ?_
  split
  · exact .bind within_lookup fun receiver hr => within_collectArgs hps hr (by simp) hst
  · exact .fault

theorem within_evalProperties {done : Ordered Value} {rest : List Property}
    (hd : done.All (Value.Within n)) (hst : StackWithin n stack) :
    (evalProperties done rest scope stack).Within n (Move.Within n) := by
  unfold evalProperties
  split
  · exact .bind (P := fun _ => True)
      (within_inHeap fun _ hh => ⟨hh.newObject hd, trivial⟩) fun _ _ =>
      .pure (.ret trivial hst)
  · exact .pure ⟨trivial, hst.cons hd⟩

theorem within_literal {l : Literal} : l.value.Within n := by
  cases l <;> trivial

theorem within_evalExpr {e : Expr} (hps : ps.Within n) (hst : StackWithin n stack) :
    (evalExpr ps e scope stack).Within n (Move.Within n) := by
  have hgo {e : Expr} {f : Frame} (hf : f.Within n) :
      (Pure.pure (.go (.eval e scope) (f :: stack)) : Effect Move).Within n (Move.Within n) :=
    .pure ⟨trivial, hst.cons hf⟩
  cases e with
  | literal => exact .pure (.ret within_literal hst)
  | name => exact within_ret within_lookup hst
  | this => exact within_ret within_lookup hst
  | array => exact within_collectArgs hps trivial (by simp) hst
  | object => exact within_evalProperties Ordered.all_empty hst
  | update => exact within_evalTarget hst
  | assign => exact within_evalTarget hst
  | call => exact .pure (within_evalCall hst)
  | superCall => exact within_evalSuperCall hps hst
  | arrow => exact within_ret within_newFunction hst
  | function => exact within_ret within_evalFunction hst
  | _ => exact hgo trivial

end Expressions

/-! ## Statements -/

section Statements

variable {stack : List Frame} {scope : Ref .scope}

theorem within_declare {kind : DeclKind} {name : String} {value : Option Value}
    {pos : Option Position} (hv : ∀ v ∈ value, v.Within n) :
    (CoScript.declare kind name value scope pos).Within n fun _ => True := by
  cases kind with
  | function => exact within_declareVar hv
  | block => exact within_define (within_getD hv)
  | constant => exact within_define (within_getD hv)

theorem within_execVarDecl {d : VarDecl} (hst : StackWithin n stack) :
    (execVarDecl d scope stack).Within n (Move.Within n) := by
  unfold execVarDecl
  split
  · exact .pure ⟨trivial, hst.cons trivial⟩
  · exact .bind (within_declare (by simp)) fun _ _ => .pure (.done hst)

theorem within_hoistFunctions {ss : List Stmt} :
    (hoistFunctions scope ss).Within n fun _ => True := by
  induction ss with
  | nil => exact .pure trivial
  | cons s rest ih =>
    cases s with
    | functionDecl d =>
      exact .bind within_newFunction fun f hf =>
        .bind (within_modifyHeap fun _ hh => hh.bind scope d.name hf) fun _ _ => ih
    | _ => exact ih

theorem within_nextStatement {ss : List Stmt} (hst : StackWithin n stack) :
    (nextStatement ss scope stack).Within n := by
  cases ss with
  | nil => exact .done hst
  | cons s rest => exact ⟨trivial, hst.cons trivial⟩

theorem within_runStatements {ss : List Stmt} (hst : StackWithin n stack) :
    (runStatements ss scope stack).Within n (Move.Within n) :=
  .bind within_hoistFunctions fun _ _ => .pure (within_nextStatement hst)

theorem within_runBlock {b : Block} (hst : StackWithin n stack) :
    (runBlock b scope stack).Within n (Move.Within n) :=
  .bind within_newScope fun _ _ => .pure ⟨trivial, hst⟩

theorem within_declareInterface {d : InterfaceDecl} :
    (declareInterface d).Within n fun _ => True :=
  .modify fun _ hw => { hw with }

/-! ### Imports -/

theorem World.Within.recordLoaded {w : World} (hw : w.Within n) (loaded : List Loaded) :
    (recordLoaded w loaded).Within n := by
  unfold CoScript.recordLoaded
  induction loaded generalizing w with
  | nil => exact hw
  | cons l loaded ih =>
    rw [List.foldl_cons]
    exact ih { hw with }

theorem within_resolveModule {d : ImportDecl} :
    (resolveModule d).Within n fun e => ∀ exports ∈ e, exports.All (HostValue.Within n) := by
  refine .bind .get fun w _ => ?_
  split
  · exact .pure (by simp)
  · rename_i id _
    refine .bind (.modifyGet (P := Resolution.Within n) fun w hw => ?_) fun answer ha => ?_
    · obtain ⟨hanswer, hresolvers⟩ := hw.resolvers.resolve id d.specifier
      have hnew : World.Within n
          { w with resolvers := (w.resolvers.resolve id d.specifier).2.2 } :=
        { hw with resolvers := hresolvers }
      exact ⟨hnew.recordLoaded _, hanswer⟩
    · split
      · exact .pure fun exports he => ha exports (by rw [he])
      · exact .fault

theorem within_importedExports {d : ImportDecl} :
    (importedExports d).Within n (·.All (HostValue.Within n)) := by
  refine .bind within_resolveModule fun o ho => ?_
  split
  · exact .bind within_record fun _ _ => .pure (ho _ rfl)
  · refine .bind .get fun w _ => ?_
    split
    · exact .bind within_record fun _ _ => .pure Ordered.all_empty
    · exact .fault

theorem within_importedValue {d : ImportDecl} {exports : Exports} {b : ImportBinding}
    (he : exports.All (HostValue.Within n)) :
    (importedValue d exports b).Within n (Value.Within n) := by
  unfold importedValue
  split
  · exact within_ofHeap (within_toValue (fieldsWithin_iff.mpr he))
  · split
    · rename_i v hv
      exact within_ofHeap (within_toValue (he.get? hv))
    · refine .bind .get fun w _ => ?_
      split
      · exact .pure trivial
      · exact .fault

theorem within_bindImport {d : ImportDecl} : (bindImport d).Within n fun _ => True :=
  .bind within_importedExports fun _ he => .bind (.forIn (P := fun _ => True) trivial
    fun _ _ _ _ => .bind (within_importedValue he) fun _ hv => .bind .get fun _ _ =>
      .bind (within_define hv) fun _ _ => .pure trivial) fun _ _ => .pure trivial

theorem within_runProgram {imports : List ImportDecl} {ss : List Stmt}
    (hst : StackWithin n stack) : (runProgram imports ss stack).Within n (Move.Within n) := by
  unfold runProgram
  split
  · exact .bind within_bindImport fun _ _ => .pure ⟨trivial, hst⟩
  · exact .bind .get fun _ _ => .pure ⟨trivial, hst⟩

/-! ### Loops -/

theorem within_testFor {loop : ForLoop} (hst : StackWithin n stack) :
    (testFor loop scope stack).Within n := by
  unfold testFor
  split <;> exact ⟨trivial, hst.cons trivial⟩

theorem within_startFor {loop : ForLoop} (hst : StackWithin n stack) :
    (startFor loop scope stack).Within n (Move.Within n) :=
  .bind within_copyScope fun _ _ => .pure (within_testFor hst)

theorem within_nextFor {loop : ForLoop} (hst : StackWithin n stack) :
    (nextFor loop scope stack).Within n (Move.Within n) := by
  refine .bind within_copyScope fun own _ => ?_
  split
  · exact .pure ⟨trivial, hst.cons trivial⟩
  · exact .pure (within_testFor hst)

theorem within_execFor {init : Option ForInit} {loop : ForLoop} (hst : StackWithin n stack) :
    (execFor init loop scope stack).Within n (Move.Within n) := by
  refine .bind within_newScope fun own _ => ?_
  split
  · exact within_startFor hst
  · exact .pure ⟨trivial, hst.cons trivial⟩
  · exact .pure ⟨trivial, hst.cons trivial⟩

/-- The next item is one of the array, or a character. -/
theorem within_next {items items' : Items} {h : Heap} (hh : h.Within n) {v : Value}
    (hv : items.next? h = some (v, items')) : v.Within n := by
  cases items with
  | array r i =>
    obtain ⟨x, hx, hpair⟩ := Option.map_eq_some_iff.mp hv
    cases hpair
    exact hh.arrays r _ (Array.mem_of_getElem? hx)
  | chars cs =>
    cases cs with
    | nil => cases hv
    | cons c cs =>
      cases hv
      trivial

theorem within_nextItem {loop : ItemLoop} {items : Items} (hst : StackWithin n stack) :
    (nextItem loop items stack).Within n (Move.Within n) := by
  refine .bind within_heap fun h hh => ?_
  split
  · exact .pure (.done hst)
  · rename_i v items' hnext
    have hv : ∀ x ∈ some v, x.Within n := by
      rintro _ ⟨⟩
      exact within_next hh hnext
    exact .bind within_newScope fun own _ => .bind (within_declare hv) fun _ _ =>
      .pure ⟨trivial, hst.cons trivial⟩

/-! ### Switches and finalizers -/

theorem within_runCases {cases : List SwitchCase} (hst : StackWithin n stack) :
    (runCases cases scope stack).Within n := by
  cases cases with
  | nil => exact .done hst
  | cons c rest => exact ⟨trivial, hst.cons trivial⟩

theorem within_testCases {value : Value} {todo all : List SwitchCase} (hv : value.Within n)
    (hst : StackWithin n stack) : (testCases value todo all scope stack).Within n := by
  induction todo with
  | nil => exact within_runCases hst
  | cons c rest ih =>
    unfold testCases
    split
    · exact ih
    · exact ⟨trivial, hst.cons hv⟩

theorem within_resumePending {pending : Option Abrupt} (hp : ∀ how ∈ pending, how.Within n)
    (hst : StackWithin n stack) : (resumePending pending stack).Within n := by
  cases pending with
  | none => exact .done hst
  | some how => exact ⟨hp how rfl, hst⟩

theorem within_finalize {pending : Option Abrupt} {finalizer : Option Block}
    (hp : ∀ how ∈ pending, how.Within n) (hst : StackWithin n stack) :
    (finalize pending finalizer scope stack).Within n (Move.Within n) := by
  unfold finalize
  split
  · exact .pure (within_resumePending hp hst)
  · exact within_runBlock (hst.cons hp)

/-! ### All statements -/

/-- Each statement but the declaration of a class. -/
theorem within_execStmt {s : Stmt} (hs : ∀ d, s ≠ .classDecl d) (hst : StackWithin n stack) :
    (execStmt s scope stack).Within n (Move.Within n) := by
  cases s with
  | expr => exact .pure ⟨trivial, hst.cons trivial⟩
  | varDecl => exact within_execVarDecl hst
  | block => exact within_runBlock hst
  | branch => exact .pure ⟨trivial, hst.cons trivial⟩
  | forLoop => exact within_execFor hst
  | forOf => exact .pure ⟨trivial, hst.cons trivial⟩
  | whileLoop => exact .pure ⟨trivial, hst.cons trivial⟩
  | switchStmt => exact .pure ⟨trivial, hst.cons trivial⟩
  | returnStmt pos value =>
    cases value with
    | none => exact .pure ⟨trivial, hst⟩
    | some e => exact .pure ⟨trivial, hst.cons trivial⟩
  | breakStmt => exact .pure ⟨trivial, hst⟩
  | continueStmt => exact .pure ⟨trivial, hst⟩
  | throwStmt => exact .pure ⟨trivial, hst.cons trivial⟩
  | tryStmt => exact within_runBlock (hst.cons trivial)
  | classDecl d => exact absurd rfl (hs d)
  | interfaceDecl => exact .bind within_declareInterface fun _ _ => .pure (.done hst)
  | _ => exact .pure (.done hst)

/-! ### Classes -/

/-- A class is declared over a class that exists. -/
theorem within_superclassOf {d : ClassDecl} :
    (superclassOf d scope).Within n fun above => ∀ s, above = some s → s.index < n := by
  unfold superclassOf
  split
  · exact .pure (by simp)
  · refine .bind within_lookup fun v hv => ?_
    split
    · refine .pure ?_
      rintro _ ⟨⟩
      exact hv
    · exact .fault

theorem within_newMethods {home : Ref .cls} {ds : List FunctionDecl}
    {done : Ordered (Ref .function)} : (newMethods home scope ds done).Within n fun _ => True := by
  induction ds generalizing done with
  | nil => exact .pure trivial
  | cons d rest ih =>
    exact .bind (P := fun _ => True) (within_inHeap fun _ hh => ⟨hh.withFunctions _, trivial⟩)
      fun _ _ => ih

theorem within_checkInterfaces {d : ClassDecl} {r : Ref .cls} :
    (checkInterfaces d r).Within n fun _ => True := by
  refine .bind within_heap fun h _ => .bind (.forIn (P := fun _ => True) trivial fun i _ _ _ => ?_)
    fun _ _ => .pure trivial
  refine .bind .get fun w _ => .bind (.forIn (P := fun _ => True) trivial fun m _ _ _ => ?_)
    fun _ _ => .pure trivial
  split
  · exact .bind within_record fun _ _ => .pure trivial
  · exact .pure trivial

/-- What follows once a class is made. -/
theorem within_afterClass {d : ClassDecl} {r : Ref .cls} (hr : r.index < n) :
    (do
      let methods ← newMethods r scope d.methods .empty
      modifyHeap fun h =>
        { h with classes := h.classes.modify r.index fun c => { c with methods } }
      checkInterfaces d r
      define scope d.name (.cls r) false (some d.pos) : Effect Unit).Within n fun _ => True := by
  have hclass : (Value.cls r).Within n := hr
  exact .bind within_newMethods fun methods _ =>
    .bind (within_modifyHeap fun _ hh => hh.setMethods r methods) fun _ _ =>
    .bind within_checkInterfaces fun _ _ => within_define hclass

/-- The declaration of a class brings in the next class, unless there is nothing to declare it
    over. -/
theorem within_declareClass (d : ClassDecl) (scope : Ref .scope) {w : World} (hw : w.Within n) :
    ∃ n', n ≤ n' ∧ ((declareClass d scope).run w).2.Within n' := by
  have hsuper : (superclassOf d scope).Within n _ := within_superclassOf
  obtain ⟨hw₁, habove⟩ := hsuper w hw
  generalize hrun : (superclassOf d scope).run w = out at hw₁ habove
  unfold declareClass
  obtain ⟨e | above, w₁⟩ := out <;> dsimp only at hw₁
  · rw [run_bind_error hrun]
    exact ⟨n, Nat.le_refl n, hw₁⟩
  · rw [run_bind_ok hrun]
    have hn : n ≤ n + 1 := Nat.le_succ n
    let c : Class := ⟨d.name, above, d.interfaces, d.fields, .empty, scope⟩
    obtain ⟨hr, hheap⟩ := hw₁.heap.newClass (c := c) (habove above rfl)
    have hw₂ : World.Within (n + 1) { w₁ with heap := (w₁.heap.newClass c).2 } :=
      ⟨hheap, hw₁.host.mono fun _ hf => hf.mono hn, hw₁.memory.mono hn, hw₁.resolvers.mono hn⟩
    have hafter : (w₁.heap.newClass c).1.index < n + 1 := by
      rw [hr]
      exact Nat.lt_succ_self n
    exact ⟨n + 1, hn, (within_afterClass hafter _ hw₂).1⟩

end Statements

/-! ## Frames -/

section Frames

variable {ps : Promises} {stack : List Frame} {v : Value}

theorem within_receive {f : Frame} (hps : ps.Within n) (hf : f.Within n) (hv : v.Within n)
    (hst : StackWithin n stack) : (f.receive ps v stack).Within n (Move.Within n) := by
  have hgo {c : Control} {g : Frame} (hc : c.Within n) (hg : g.Within n) :
      (Pure.pure (.go c (g :: stack)) : Effect Move).Within n (Move.Within n) :=
    .pure ⟨hc, hst.cons hg⟩
  have hdone : (Pure.pure (Move.done stack) : Effect Move).Within n (Move.Within n) :=
    .pure (.done hst)
  have hsome : ∀ x ∈ some v, x.Within n := by
    rintro _ ⟨⟩
    exact hv
  cases f with
  | sequence => exact .pure (within_nextStatement hst)
  | discard => exact hdone
  | declare =>
    exact .bind within_nameFunction fun _ _ => .bind (within_declare hsome) fun _ _ => hdone
  | branch thenBranch elseBranch scope =>
    refine .pure ?_
    unfold chooseBranch
    split
    · exact ⟨trivial, hst⟩
    · split
      · exact ⟨trivial, hst⟩
      · exact .done hst
  | forStart => exact within_startFor hst
  | forTest =>
    dsimp only [Frame.receive]
    split
    · exact hgo trivial trivial
    · exact hdone
  | forBody => exact within_nextFor hst
  | forUpdate => exact .pure (within_testFor hst)
  | whileTest =>
    dsimp only [Frame.receive]
    split
    · exact hgo trivial trivial
    · exact hdone
  | whileBody => exact hgo trivial trivial
  | itemsOf =>
    dsimp only [Frame.receive]
    split
    · exact within_nextItem hst
    · exact .fault
  | itemBody => exact within_nextItem hst
  | switchOn => exact .bind within_newScope fun _ _ => .pure (within_testCases hv hst)
  | switchTest =>
    dsimp only [Frame.receive]
    split
    · exact .pure (within_runCases hst)
    · exact .pure (within_testCases hf hst)
  | switchBody => exact .pure (within_runCases hst)
  | giveBack => exact .pure ⟨hv, hst⟩
  | throwIt => exact .pure ⟨hv, hst⟩
  | tryBody => exact within_finalize (by simp) hst
  | handlerBody => exact within_finalize (by simp) hst
  | finalizerBody => exact .pure (within_resumePending hf hst)
  | binaryRight op right pos scope =>
    refine .pure ?_
    unfold afterLeft
    split
    · split
      · exact ⟨trivial, hst⟩
      · exact .ret hv hst
    · split
      · exact .ret hv hst
      · exact ⟨trivial, hst⟩
    · exact ⟨trivial, hst.cons hv⟩
  | binaryApply => exact within_ret within_applyBinary hst
  | unaryApply => exact within_ret (.ofExcept fun _ hu => within_unary hu) hst
  | choose => exact .pure ⟨trivial, hst⟩
  | memberOf => exact within_ret within_getMember hst
  | indexKey => exact hgo trivial hv
  | indexApply => exact within_ret within_getIndex hst
  | placeMember => exact within_usePlace hv hst
  | placeKey => exact hgo trivial hv
  | placeElement => exact within_usePlace ⟨hf, hv⟩ hst
  | write => exact .bind (within_writePlace hv) fun _ _ => .pure (.ret hv hst)
  | combine =>
    exact .bind within_applyBinary fun _ hnew => .bind (within_writePlace hnew) fun _ _ =>
      .pure (.ret hnew hst)
  | property => exact .bind within_nameFunction fun _ _ => within_evalProperties (hf.set hv) hst
  | awaiting => exact .pure ⟨hv, hst⟩
  | calleeOf => exact within_collectArgs hps ⟨hv, trivial⟩ (by simp) hst
  | methodOf =>
    exact .bind within_getMember fun _ hc => within_collectArgs hps ⟨hc, hv⟩ (by simp) hst
  | classOf => exact within_collectArgs hps hv (by simp) hst
  | collect => exact within_collectArgs hps hf.1 (List.forall_mem_cons.mpr ⟨hv, hf.2⟩) hst
  | call => exact .pure (.ret hv hst)
  | parameter => exact .bind (within_define hv) fun _ _ => .pure ⟨hf, hst⟩
  | fieldValue =>
    exact .bind (within_modifyHeap fun _ hh => hh.setField _ _ hv) fun _ _ => .pure ⟨hf, hst⟩
  | constructed => exact .pure (.ret trivial hst)
  | superDone => exact hdone

theorem within_handle {name : Option String} {handler : Block} {finalizer : Option Block}
    {scope : Ref .scope} (hv : v.Within n) (hst : StackWithin n stack) :
    (handle name handler v finalizer scope stack).Within n (Move.Within n) := by
  refine .bind within_newScope fun own _ => ?_
  have hrun : (Pure.pure (.go (.statements handler.statements own)
      (.handlerBody finalizer scope :: stack)) : Effect Move).Within n (Move.Within n) :=
    .pure ⟨trivial, hst.cons trivial⟩
  split
  · exact .bind (within_define hv) fun _ _ => hrun
  · exact hrun

theorem within_unwind {f : Frame} {how : Abrupt} (hhow : how.Within n)
    (hst : StackWithin n stack) : (f.unwind how stack).Within n (Move.Within n) := by
  have hpending : ∀ how' ∈ some how, how'.Within n := by
    rintro _ ⟨⟩
    exact hhow
  unfold Frame.unwind
  split
  · exact .pure (.done hst)
  · exact .pure (.done hst)
  · exact .pure (.done hst)
  · exact .pure (.done hst)
  · exact within_nextFor hst
  · exact .pure ⟨trivial, hst.cons trivial⟩
  · exact within_nextItem hst
  · exact .pure (.ret hhow hst)
  · exact within_handle hhow hst
  · exact within_finalize hpending hst
  · exact within_finalize hpending hst
  · exact .pure ⟨hhow, hst⟩

end Frames

/-! ## Threads -/

/-- A step of a thread other than the declaration of a class brings no class in. -/
theorem Thread.Within.step_plain {t : Thread} (h : t.Within n) {ps : Promises}
    (hps : ps.Within n)
    (hc : ∀ d scope, t.control ≠ .exec (.classDecl d) scope) :
    (t.step ps).Within n (Move.Within n) := by
  obtain ⟨control, stack, base⟩ := t
  obtain ⟨hcontrol, hst⟩ := h
  dsimp only at hcontrol hst hc
  cases control with
  | program => exact within_runProgram hst
  | statements => exact within_runStatements hst
  | exec s scope => exact within_execStmt (fun d hs => hc d scope (by rw [hs])) hst
  | eval => exact within_evalExpr hps hst
  | invoke => exact within_invoke hps hcontrol.2 hst
  | enter =>
    exact .bind (P := fun _ => True) Stable.checkDepth fun _ _ =>
      within_enterFunction hcontrol.1 hcontrol.2 hst
  | bind => exact within_bindParams hcontrol hst
  | initialise => exact .bind (P := fun _ => True) Stable.checkDepth fun _ _ =>
      within_initialise hcontrol hst
  | ret v =>
    cases stack with
    | nil => exact .pure hcontrol
    | cons f below =>
      obtain ⟨hf, hbelow⟩ := stackWithin_cons.mp hst
      exact within_receive hps hf hcontrol hbelow
  | leave how =>
    cases stack with
    | nil =>
      cases how with
      | thrown v pos => exact .pure hcontrol
      | _ => exact .abort
    | cons f below => exact within_unwind hcontrol (stackWithin_cons.mp hst).2
  | fail f => exact .throw

/-- A step of a thread brings in no class but one that it declares, and the thread goes on within
    the classes that there are then. -/
theorem Thread.Within.step {t : Thread} (h : t.Within n) {ps : Promises} (hps : ps.Within n)
    {w : World} (hw : w.Within n) :
    ∃ n', n ≤ n' ∧ ((t.step ps).run w).2.Within n' ∧
      ∀ m, ((t.step ps).run w).1 = .ok m → m.Within n' := by
  by_cases hc : ∃ d scope, t.control = .exec (.classDecl d) scope
  · obtain ⟨d, scope, hc⟩ := hc
    obtain ⟨n', hn, hw'⟩ := within_declareClass d scope hw
    have hstep : t.step ps = (do declareClass d scope; return .done t.stack) := by
      unfold Thread.step
      rw [hc]
      rfl
    rw [hstep]
    generalize hrun : (declareClass d scope).run w = out at hw'
    obtain ⟨e | u, w'⟩ := out
    · rw [run_bind_error hrun]
      exact ⟨n', hn, hw', by rintro _ ⟨⟩⟩
    · rw [run_bind_ok hrun]
      refine ⟨n', hn, hw', ?_⟩
      rintro _ ⟨⟩
      exact .done (h.stack.mono hn)
  · obtain ⟨hw', hmove⟩ := h.step_plain hps (fun d scope hd => hc ⟨d, scope, hd⟩) w hw
    exact ⟨n, Nat.le_refl n, hw', hmove⟩

end CoScript
