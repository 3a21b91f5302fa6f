import CoScript.Eval.Script
import CoScript.Proofs.Reach.Effect

/-!
# Evaluation stays clear of scopes

A thread that works only in scopes from which some others cannot be reached does so after its next
step too, and the step leaves these others alone, unless it enters code that reaches them: a
function or a field of a class that was made inside.

Results:
* `avoids_evalExpr`, `avoids_execStmt`, `avoids_receive`, `avoids_unwind`: one lemma for each part
  of the evaluation.
* `Thread.Clear.step`: a step of a thread that stays clear of scopes.
-/

namespace CoScript

open Effect

variable {K : Ref .scope → Prop} {w : World} {ps : Promises} {stack : List Frame}
  {args : List Value} {scope : Ref .scope}

namespace Effect.Avoids

variable {α : Type} {P : World → α → Prop} {x : Effect α}

/-- The scopes to stay clear of exist. -/
theorem keeping (h : w.Keeping K → x.Avoids K w P) : x.Avoids K w P :=
  fun hw => h hw hw

/-- A value is handed on that is found without reaching a scope. -/
theorem ret {x : Effect Value} (hx : ∀ {I : World → Prop}, Inert I → x.Upholds I)
    (hst : StackClear K w stack) :
    (x >>= fun v => Pure.pure (Move.ret v stack)).Avoids K w (Move.Clear K) :=
  bind (of_upholds hx) fun _ _ hl _ => pure (.ret (hl.stackClear hst))

end Effect.Avoids

/-! ## Calls -/

theorem clear_callClosure {c : Closure} {receiver : Value} (hc : w.heap.scopes.Has c.scope)
    (hst : StackClear K w stack) : (callClosure c args receiver stack).Clear K w := by
  have henter (K' : Ref .scope → Prop) : (Control.enter c args receiver).Clear K' w :=
    ⟨by simp [Control.scopes], by simpa [Control.target?] using hc⟩
  unfold callClosure
  split
  · exact ⟨henter, hst⟩
  · exact ⟨henter K, by simpa using hst⟩

theorem avoids_callFunction {r : Ref .function} {receiver : Value} {pos : Position}
    (hst : StackClear K w stack) :
    (callFunction ps r args receiver pos stack).Avoids K w (Move.Clear K) := by
  refine .keeping fun hw => .heap_bind ?_
  split
  · exact .ret (fun hI => hI.printValues) hst
  · exact .ret (fun hI => hI.callArrayMethod) hst
  · exact .ret (fun hI => hI.callHost) hst
  · rename_i c hc
    exact .pure (clear_callClosure (hw.heap.functions r _ (by rw [hc]; rfl)) hst)
  · rename_i m target _
    split
    · rename_i c hc
      exact .pure (clear_callClosure (hw.heap.functions m _ (by rw [hc]; rfl)) hst)
    · exact .pure (.ret hst)

theorem avoids_invoke {callee : Value} {pos : Position} (hst : StackClear K w stack) :
    (invoke ps callee args pos stack).Avoids K w (Move.Clear K) := by
  unfold invoke
  split
  · exact avoids_callFunction hst
  · exact .fault

theorem avoids_enterFunction {c : Closure} {receiver : Value} (hc : w.heap.Clear K c.scope)
    (hst : StackClear K w stack) :
    (enterFunction c args receiver stack).Avoids K w (Move.Clear K) := by
  refine .bind (.newScope hc) fun w₁ own hl hown => ?_
  have hst₁ := hl.stackClear hst
  dsimp only
  split
  · exact .heap_bind (.bind (.bindReceiver hown) fun w₂ _ hl' _ =>
      .pure (.at rfl rfl (hl'.clear hown) (hl'.stackClear hst₁)))
  · exact .pure (.at rfl rfl hown hst₁)

theorem avoids_bindParams {params : List Param} {body : FunctionBody}
    (hs : w.heap.Clear K scope) (hst : StackClear K w stack) :
    (bindParams params args body scope stack).Avoids K w (Move.Clear K) := by
  unfold bindParams
  split
  · split <;> exact .pure (.at rfl rfl hs hst)
  · split
    · exact .pure (.at rfl rfl hs (by simpa using ⟨hs, hst⟩))
    · exact .bind (.define hs) fun _ _ hl _ =>
        .pure (.at rfl rfl (hl.clear hs) (hl.stackClear hst))

/-! ### Construction -/

theorem clear_initialise {k : Construction} (hst : StackClear K w stack) :
    Move.Clear K w (.go (.initialise k) stack) :=
  ⟨.nowhere rfl rfl, hst⟩

theorem avoids_construct {r : Ref .cls} (hst : StackClear K w stack) :
    (construct r args stack).Avoids K w (Move.Clear K) := by
  refine .bind (P := fun _ _ => True) (.inHeap fun hw =>
    ⟨.of_eq rfl rfl rfl, hw.heap.toScoped.of_eq rfl rfl rfl, trivial⟩) fun w₁ target hl _ => ?_
  exact .heap_bind (.pure (clear_initialise (hl.stackClear hst)))

/-- A constructor lies in a scope that exists. -/
theorem has_constructorOf {h : Heap} (hh : h.Scoped) {r : Ref .cls} {c : Closure}
    (hc : constructorOf? h r = some c) : h.scopes.Has c.scope := by
  unfold constructorOf? at hc
  obtain ⟨m, -, hc⟩ := Option.bind_eq_some_iff.mp hc
  split at hc
  · rename_i c' hc'
    cases hc
    exact hh.functions m _ (by rw [hc']; rfl)
  · cases hc

theorem clear_enter {c : Closure} {receiver : Value} (hc : w.heap.scopes.Has c.scope)
    (hst : StackClear K w stack) : Move.Clear K w (.go (.enter c args receiver) stack) :=
  ⟨⟨by simp [Control.scopes], by simpa [Control.target?] using hc⟩, hst⟩

/-- The value of a field is computed inside the scope of the class that declares it. -/
theorem avoids_initialise {k : Construction}
    (hk : ∀ f ∈ k.fields.head?, f.field.value.isSome = true →
      w.heap.Clear K (w.heap.cls f.cls).scope)
    (hst : StackClear K w stack) : (initialise k stack).Avoids K w (Move.Clear K) := by
  unfold initialise
  split
  · refine .keeping fun hw => .heap_bind ?_
    split
    · rename_i c hc
      exact .pure (clear_enter (has_constructorOf hw.heap.toScoped hc) (by simpa using hst))
    · exact .pure (.ret hst)
  · rename_i f rest hfields
    have hf := hk f (by rw [hfields]; rfl)
    dsimp only
    split <;> rename_i hvalue
    · exact .bind (.modifyHeap fun hw =>
        ⟨.of_eq rfl rfl rfl, hw.heap.toScoped.of_eq rfl rfl rfl⟩) fun _ _ hl _ =>
        .pure (clear_initialise (hl.stackClear hst))
    · have hscope : (fieldScope f k.target).Avoids K w fun w' r => w'.heap.Clear K r :=
        .heap_bind (.bind (.newScope (hf (by rw [hvalue]; rfl))) fun _ own _ hown =>
          .bind (.bindReceiver hown) fun _ _ hl _ => .pure (hl.clear hown))
      exact .bind hscope fun _ own hl hown =>
        .pure (.at rfl rfl hown (by simpa using hl.stackClear hst))

theorem avoids_callSuper {r : Ref .cls} {receiver : Value} (hst : StackClear K w stack) :
    (callSuper r receiver args stack).Avoids K w (Move.Clear K) := by
  refine .keeping fun hw => .heap_bind ?_
  split
  · rename_i c hc
    exact .pure (clear_enter (has_constructorOf hw.heap.toScoped hc) (by simpa using hst))
  · exact .pure (.ret hst)

/-! ### Collected values -/

theorem avoids_newArray {items : Array Value} :
    (inHeap (·.newArray items)).Avoids K w fun _ _ => True :=
  .inHeap fun hw => ⟨.of_eq rfl rfl rfl, hw.heap.toScoped.of_eq rfl rfl rfl, trivial⟩

theorem avoids_applyPurpose {p : Purpose} (hst : StackClear K w stack) :
    (applyPurpose ps p args stack).Avoids K w (Move.Clear K) := by
  unfold applyPurpose
  split
  · split
    · exact avoids_callFunction hst
    · exact .heap_bind .fault
    · exact .fault
  · split
    · exact avoids_construct hst
    · exact .fault
  · exact avoids_callSuper hst
  · exact .bind avoids_newArray fun _ _ hl _ => .pure (.ret (hl.stackClear hst))

theorem avoids_collectArgs {p : Purpose} {done : List Value} {rest : List Expr}
    (hs : w.heap.Clear K scope) (hst : StackClear K w stack) :
    (collectArgs ps p done rest scope stack).Avoids K w (Move.Clear K) := by
  unfold collectArgs
  split
  · exact avoids_applyPurpose hst
  · exact .pure (.at rfl rfl hs (by simpa using ⟨hs, hst⟩))

/-! ## Expressions -/

theorem avoids_writePlace {place : Place} {v : Value} (hp : ∀ r ∈ place.scopes, w.heap.Clear K r) :
    (writePlace ps v place).Avoids K w fun _ _ => True := by
  cases place with
  | «variable» name scope pos => exact .assign (hp scope (by simp [Place.scopes]))
  | member => exact .of_upholds fun hI => hI.setMember
  | element => exact .of_upholds fun hI => hI.setIndex

theorem avoids_usePlace {place : Place} {use : PlaceUse}
    (hp : ∀ r ∈ place.scopes, w.heap.Clear K r) (hs : w.heap.Clear K scope)
    (hst : StackClear K w stack) :
    (usePlace ps place use scope stack).Avoids K w (Move.Clear K) := by
  unfold usePlace
  split
  · refine .bind (P := fun _ _ => True) (.bind (.of_upholds fun hI => hI.readPlace place)
      fun w₁ _ hl _ => .bind (.of_upholds fun _ => leaves_ofExcept) fun w₂ _ hl' _ =>
      .bind (avoids_writePlace fun r hr => hl'.clear (hl.clear (hp r hr))) fun _ _ _ _ =>
      .pure trivial) fun _ _ hl _ => .pure (.ret (hl.stackClear hst))
  · split
    · exact .pure (.at rfl rfl hs (by simpa using ⟨hp, hst⟩))
    · exact .bind (.of_upholds fun hI => hI.readPlace place) fun _ _ hl _ =>
        .pure (.at rfl rfl (hl.clear hs)
          (by simpa using ⟨fun r hr => hl.clear (hp r hr), hl.stackClear hst⟩))

theorem avoids_evalTarget {target : Expr} {use : PlaceUse} (hs : w.heap.Clear K scope)
    (hst : StackClear K w stack) :
    (evalTarget ps target use scope stack).Avoids K w (Move.Clear K) := by
  unfold evalTarget
  split
  · exact avoids_usePlace (by simpa [Place.scopes] using hs) hs hst
  · exact .pure (.at rfl rfl hs (by simpa using ⟨hs, hst⟩))
  · exact .pure (.at rfl rfl hs (by simpa using ⟨hs, hst⟩))
  · exact .abort

theorem clear_evalCall {callee : Expr} {args : List Expr} {pos : Position}
    (hs : w.heap.Clear K scope) (hst : StackClear K w stack) :
    (evalCall callee args pos scope stack).Clear K w := by
  unfold evalCall
  dsimp only
  split <;> exact .at rfl rfl hs (by simpa using ⟨hs, hst⟩)

theorem avoids_evalFunction {name : Option String} {params : List Param} {body : Block}
    {isAsync : Bool} (hs : w.heap.Clear K scope) :
    (evalFunction name params body isAsync scope).Avoids K w fun _ _ => True := by
  unfold evalFunction
  split
  · exact .newClosure hs
  · exact .bind (.newScope hs) fun w₁ own _ hown => .bind (.newClosure hown) fun w₂ _ hl _ =>
      .bind (.define (hl.clear hown)) fun _ _ _ _ => .pure trivial

theorem avoids_evalSuperCall {args : List Expr} {pos : Position} (hs : w.heap.Clear K scope)
    (hst : StackClear K w stack) :
    (evalSuperCall ps args pos scope stack).Avoids K w (Move.Clear K) := by
  refine .bind .lookup fun w₁ v hl _ => ?_
  split
  · exact .bind .lookup fun w₂ _ hl' _ =>
      avoids_collectArgs (hl'.clear (hl.clear hs)) (hl'.stackClear (hl.stackClear hst))
  · exact .fault

theorem avoids_evalProperties {done : Ordered Value} {rest : List Property}
    (hs : w.heap.Clear K scope) (hst : StackClear K w stack) :
    (evalProperties done rest scope stack).Avoids K w (Move.Clear K) := by
  unfold evalProperties
  split
  · exact .bind (P := fun _ _ => True) (.inHeap fun hw =>
      ⟨.of_eq rfl rfl rfl, hw.heap.toScoped.of_eq rfl rfl rfl, trivial⟩) fun _ _ hl _ =>
      .pure (.ret (hl.stackClear hst))
  · exact .pure (.at rfl rfl hs (by simpa using ⟨hs, hst⟩))

theorem avoids_evalExpr {e : Expr} (hs : w.heap.Clear K scope) (hst : StackClear K w stack) :
    (evalExpr ps e scope stack).Avoids K w (Move.Clear K) := by
  have hgo {e : Expr} {f : Frame} (hf : f.scopes = [scope] ∨ f.scopes = []) :
      (Pure.pure (.go (.eval e scope) (f :: stack)) : Effect Move).Avoids K w (Move.Clear K) := by
    refine .pure (.at rfl rfl hs (stackClear_cons.mpr ⟨fun r hr => ?_, hst⟩))
    rcases hf with hf | hf <;> rw [hf] at hr
    · exact List.mem_singleton.mp hr ▸ hs
    · exact absurd hr List.not_mem_nil
  cases e with
  | literal => exact .pure (.ret hst)
  | name => exact .ret (fun _ => leaves_lookup) hst
  | this => exact .ret (fun _ => leaves_lookup) hst
  | array => exact avoids_collectArgs hs hst
  | object => exact avoids_evalProperties hs hst
  | binary => exact hgo (.inl rfl)
  | unary => exact hgo (.inr rfl)
  | update => exact avoids_evalTarget hs hst
  | assign => exact avoids_evalTarget hs hst
  | conditional => exact hgo (.inl rfl)
  | call => exact .pure (clear_evalCall hs hst)
  | member => exact hgo (.inr rfl)
  | index => exact hgo (.inl rfl)
  | construct => exact hgo (.inl rfl)
  | superCall => exact avoids_evalSuperCall hs hst
  | await => exact hgo (.inr rfl)
  | arrow =>
    exact .bind (.newClosure hs) fun _ _ hl _ => .pure (.ret (hl.stackClear hst))
  | function =>
    exact .bind (avoids_evalFunction hs) fun _ _ hl _ => .pure (.ret (hl.stackClear hst))

/-! ## Statements -/

theorem avoids_declare {kind : DeclKind} {name : String} {value : Option Value}
    {pos : Option Position} (hs : w.heap.Clear K scope) :
    (CoScript.declare kind name value scope pos).Avoids K w fun _ _ => True := by
  cases kind with
  | function => exact .declareVar hs
  | block => exact .define hs
  | constant => exact .define hs

theorem avoids_execVarDecl {d : VarDecl} (hs : w.heap.Clear K scope)
    (hst : StackClear K w stack) : (execVarDecl d scope stack).Avoids K w (Move.Clear K) := by
  unfold execVarDecl
  split
  · exact .pure (.at rfl rfl hs (by simpa using ⟨hs, hst⟩))
  · exact .bind (avoids_declare hs) fun _ _ hl _ => .pure (.done (hl.stackClear hst))

theorem avoids_hoistFunctions {ss : List Stmt} (hs : w.heap.Clear K scope) :
    (hoistFunctions scope ss).Avoids K w fun _ _ => True := by
  induction ss generalizing w with
  | nil => exact .pure trivial
  | cons s rest ih =>
    cases s with
    | functionDecl d =>
      refine .bind (.newClosure hs) fun w₁ _ hl _ => .bind (.modifyHeap fun hw => ?_)
        fun w₂ _ hl' _ => ih (hl'.clear (hl.clear hs))
      exact Heap.grows_bind hw.heap.toScoped (hl.clear hs) d.name _
    | _ => exact ih hs

theorem clear_nextStatement {ss : List Stmt} (hs : w.heap.Clear K scope)
    (hst : StackClear K w stack) : (nextStatement ss scope stack).Clear K w := by
  cases ss with
  | nil => exact .done hst
  | cons s rest => exact .at rfl rfl hs (by simpa using ⟨hs, hst⟩)

theorem avoids_runStatements {ss : List Stmt} (hs : w.heap.Clear K scope)
    (hst : StackClear K w stack) :
    (runStatements ss scope stack).Avoids K w (Move.Clear K) :=
  .bind (avoids_hoistFunctions hs) fun _ _ hl _ =>
    .pure (clear_nextStatement (hl.clear hs) (hl.stackClear hst))

theorem avoids_runBlock {b : Block} (hs : w.heap.Clear K scope) (hst : StackClear K w stack) :
    (runBlock b scope stack).Avoids K w (Move.Clear K) :=
  .bind (.newScope hs) fun _ _ hl hown => .pure (.at rfl rfl hown (hl.stackClear hst))

/-! ### Classes -/

theorem avoids_newMethods {home : Ref .cls} {ds : List FunctionDecl}
    {done : Ordered (Ref .function)} (hs : w.heap.Clear K scope) :
    (newMethods home scope ds done).Avoids K w fun _ _ => True := by
  induction ds generalizing w done with
  | nil => exact .pure trivial
  | cons d rest ih =>
    refine .bind (P := fun _ _ => True) (.inHeap fun hw => ?_) fun _ _ hl _ => ih (hl.clear hs)
    obtain ⟨hg, hscoped⟩ := Heap.grows_newFunction hw.heap.toScoped
      (f := .closure ⟨some d.name, d.params, .block d.body, scope, d.isAsync, false,
        some home⟩) <| by
        rintro _ ⟨⟩
        exact hs
    exact ⟨hg, hscoped, trivial⟩

theorem avoids_declareClass {d : ClassDecl} (hs : w.heap.Clear K scope) :
    (declareClass d scope).Avoids K w fun _ _ => True := by
  refine .bind (.of_upholds fun _ => Stable.superclassOf) fun w₁ above hl₁ _ => ?_
  have hs₁ := hl₁.clear hs
  refine .bind (P := fun _ _ => True) (.inHeap fun hw => ?_) fun w₂ r hl₂ _ => ?_
  · obtain ⟨hg, hscoped⟩ := Heap.grows_newClass hw.heap.toScoped
      (c := ⟨d.name, above, d.interfaces, d.fields, .empty, scope⟩) hs₁
    exact ⟨hg, hscoped, trivial⟩
  · have hs₂ := hl₂.clear hs₁
    refine .bind (avoids_newMethods hs₂) fun w₃ methods hl₃ _ => ?_
    refine .bind (.modifyHeap fun hw => Heap.grows_setMethods hw.heap.toScoped r methods)
      fun w₄ _ hl₄ _ => ?_
    exact .bind (.of_upholds fun hI => hI.checkInterfaces) fun _ _ hl₅ _ =>
      .define (hl₅.clear (hl₄.clear (hl₃.clear hs₂)))

/-! ### Imports -/

theorem avoids_bindImport {d : ImportDecl} : (bindImport d).Avoids K w fun _ _ => True := by
  refine .keeping fun hw =>
    .bind (.of_upholds fun hI => hI.importedExports) fun w₁ exports hl _ => ?_
  refine .bind (.forIn hl fun w₂ b _ hl₂ => ?_) fun _ _ _ _ => .pure trivial
  refine .bind (.of_upholds fun hI => hI.importedValue) fun w₃ v hl₃ _ => .get_bind ?_
  have hglobals : w₃.heap.Clear K w₃.globals := hl₃.after.globals
  exact .bind (.define hglobals) fun _ _ _ _ => .pure trivial

theorem avoids_runProgram {imports : List ImportDecl} {ss : List Stmt}
    (hst : StackClear K w stack) :
    (runProgram imports ss stack).Avoids K w (Move.Clear K) := by
  unfold runProgram
  split
  · exact .bind avoids_bindImport fun _ _ hl _ => .pure ⟨.nowhere rfl rfl, hl.stackClear hst⟩
  · exact .keeping fun hw => .get_bind (.pure (.at rfl rfl hw.globals hst))

/-! ### Loops -/

theorem clear_testFor {loop : ForLoop} (hs : w.heap.Clear K scope) (hst : StackClear K w stack) :
    (testFor loop scope stack).Clear K w := by
  unfold testFor
  split <;> exact .at rfl rfl hs (by simpa using ⟨hs, hst⟩)

theorem avoids_startFor {loop : ForLoop} (hs : w.heap.Clear K scope)
    (hst : StackClear K w stack) : (startFor loop scope stack).Avoids K w (Move.Clear K) :=
  .keeping fun hw => .bind (.copyScope fun _ hp => hs.parent hw.heap.toScoped hp)
    fun _ _ hl hown => .pure (clear_testFor hown (hl.stackClear hst))

/-- The next round of a loop does not reach the round before. -/
theorem avoids_nextFor {loop : ForLoop}
    (hs : ∀ p, (w.heap.scopes.get scope).parent = some p → w.heap.Clear K p)
    (hst : StackClear K w stack) : (nextFor loop scope stack).Avoids K w (Move.Clear K) := by
  refine .bind (.copyScope hs) fun _ _ hl hown => ?_
  have hst := hl.stackClear hst
  split
  · exact .pure (.at rfl rfl hown (by simpa using ⟨hown, hst⟩))
  · exact .pure (clear_testFor hown hst)

theorem avoids_execFor {init : Option ForInit} {loop : ForLoop} (hs : w.heap.Clear K scope)
    (hst : StackClear K w stack) : (execFor init loop scope stack).Avoids K w (Move.Clear K) := by
  refine .bind (.newScope hs) fun _ own hl hown => ?_
  have hst := hl.stackClear hst
  split
  · exact avoids_startFor hown hst
  · exact .pure (.at rfl rfl hown (by simpa using ⟨hown, hst⟩))
  · exact .pure (.at rfl rfl hown (by simpa using ⟨hown, hst⟩))

theorem avoids_nextItem {loop : ItemLoop} {items : Items} (hs : w.heap.Clear K loop.scope)
    (hst : StackClear K w stack) : (nextItem loop items stack).Avoids K w (Move.Clear K) := by
  refine .heap_bind ?_
  split
  · exact .pure (.done hst)
  · refine .bind (.newScope hs) fun w₁ own hl hown => .bind (avoids_declare hown)
      fun w₂ _ hl' _ => .pure (.at rfl rfl (hl'.clear hown) ?_)
    simpa using ⟨hl'.clear (hl.clear hs), hl'.stackClear (hl.stackClear hst)⟩

/-! ### Switches and finalizers -/

theorem clear_runCases {cases : List SwitchCase} (hs : w.heap.Clear K scope)
    (hst : StackClear K w stack) : (runCases cases scope stack).Clear K w := by
  cases cases with
  | nil => exact .done hst
  | cons c rest => exact .at rfl rfl hs (by simpa using ⟨hs, hst⟩)

theorem clear_testCases {value : Value} {todo all : List SwitchCase}
    (hs : w.heap.Clear K scope) (hst : StackClear K w stack) :
    (testCases value todo all scope stack).Clear K w := by
  induction todo with
  | nil => exact clear_runCases hs hst
  | cons c rest ih =>
    unfold testCases
    split
    · exact ih
    · exact .at rfl rfl hs (by simpa using ⟨hs, hst⟩)

theorem clear_resumePending {pending : Option Abrupt} (hst : StackClear K w stack) :
    (resumePending pending stack).Clear K w := by
  cases pending with
  | none => exact .done hst
  | some how => exact .leave hst

theorem avoids_finalize {pending : Option Abrupt} {finalizer : Option Block}
    (hs : w.heap.Clear K scope) (hst : StackClear K w stack) :
    (finalize pending finalizer scope stack).Avoids K w (Move.Clear K) := by
  unfold finalize
  split
  · exact .pure (clear_resumePending hst)
  · exact avoids_runBlock hs (by simpa using hst)

/-! ### All statements -/

theorem avoids_execStmt {s : Stmt} (hs : w.heap.Clear K scope) (hst : StackClear K w stack) :
    (execStmt s scope stack).Avoids K w (Move.Clear K) := by
  have hgo {e : Expr} {f : Frame} (hf : f.scopes = [scope] ∨ f.scopes = []) :
      (Pure.pure (.go (.eval e scope) (f :: stack)) : Effect Move).Avoids K w (Move.Clear K) := by
    refine .pure (.at rfl rfl hs (stackClear_cons.mpr ⟨fun r hr => ?_, hst⟩))
    rcases hf with hf | hf <;> rw [hf] at hr
    · exact List.mem_singleton.mp hr ▸ hs
    · exact absurd hr List.not_mem_nil
  unfold execStmt
  split
  · exact hgo (.inr rfl)
  · exact avoids_execVarDecl hs hst
  · exact avoids_runBlock hs hst
  · exact hgo (.inl rfl)
  · exact avoids_execFor hs hst
  · exact hgo (.inl rfl)
  · exact hgo (.inl rfl)
  · exact hgo (.inl rfl)
  · exact .pure (.leave hst)
  · exact hgo (.inr rfl)
  · exact .pure (.leave hst)
  · exact .pure (.leave hst)
  · exact hgo (.inr rfl)
  · exact avoids_runBlock hs (by simpa using ⟨hs, hst⟩)
  · exact .bind (avoids_declareClass hs) fun _ _ hl _ => .pure (.done (hl.stackClear hst))
  · exact .bind (.of_upholds fun hI => hI.declareInterface) fun _ _ hl _ =>
      .pure (.done (hl.stackClear hst))
  all_goals exact .pure (.done hst)

/-! ## Frames -/

theorem avoids_receive {f : Frame} {v : Value} (hf : ∀ r ∈ f.scopes, w.heap.Clear K r)
    (hst : StackClear K w stack) : (f.receive ps v stack).Avoids K w (Move.Clear K) := by
  cases f with
  | sequence rest scope => exact .pure (clear_nextStatement (by simpa using hf) hst)
  | discard => exact .pure (.done hst)
  | declare kind name pos scope =>
    have hs : w.heap.Clear K scope := by simpa using hf
    refine .bind (.modifyHeap fun hw => Heap.grows_nameFunction hw.heap.toScoped v name)
      fun w₁ _ hl _ => .bind (avoids_declare (hl.clear hs)) fun _ _ hl' _ => ?_
    exact .pure (.done (hl'.stackClear (hl.stackClear hst)))
  | branch thenBranch elseBranch scope =>
    have hs : w.heap.Clear K scope := by simpa using hf
    refine .pure ?_
    unfold chooseBranch
    split
    · exact .at rfl rfl hs hst
    · split
      · exact .at rfl rfl hs hst
      · exact .done hst
  | forStart loop scope => exact avoids_startFor (by simpa using hf) hst
  | forTest loop scope =>
    unfold Frame.receive
    dsimp only
    split
    · exact .pure (.at rfl rfl (by simpa using hf) (stackClear_cons.mpr ⟨hf, hst⟩))
    · exact .pure (.done hst)
  | forBody loop scope =>
    exact .keeping fun hw => avoids_nextFor
      (fun _ hp => (hf scope (by simp)).parent hw.heap.toScoped hp) hst
  | forUpdate loop scope => exact .pure (clear_testFor (by simpa using hf) hst)
  | whileTest condition body scope =>
    unfold Frame.receive
    dsimp only
    split
    · exact .pure (.at rfl rfl (by simpa using hf) (stackClear_cons.mpr ⟨hf, hst⟩))
    · exact .pure (.done hst)
  | whileBody condition body scope =>
    exact .pure (.at rfl rfl (by simpa using hf) (stackClear_cons.mpr ⟨hf, hst⟩))
  | itemsOf loop pos =>
    unfold Frame.receive
    dsimp only
    split
    · exact avoids_nextItem (by simpa using hf) hst
    · exact .fault
  | itemBody loop items => exact avoids_nextItem (by simpa using hf) hst
  | switchOn cases scope =>
    exact .bind (.newScope (by simpa using hf)) fun _ _ hl hown =>
      .pure (clear_testCases hown (hl.stackClear hst))
  | switchTest value todo all scope =>
    unfold Frame.receive
    dsimp only
    split
    · exact .pure (clear_runCases (by simpa using hf) hst)
    · exact .pure (clear_testCases (by simpa using hf) hst)
  | switchBody rest scope => exact .pure (clear_runCases (by simpa using hf) hst)
  | giveBack => exact .pure (.leave hst)
  | throwIt pos => exact .pure (.leave hst)
  | tryBody name handler finalizer scope => exact avoids_finalize (by simpa using hf) hst
  | handlerBody finalizer scope => exact avoids_finalize (by simpa using hf) hst
  | finalizerBody pending => exact .pure (clear_resumePending hst)
  | binaryRight op right pos scope =>
    have hs : w.heap.Clear K scope := by simpa using hf
    refine .pure ?_
    unfold afterLeft
    split
    · split
      · exact .at rfl rfl hs hst
      · exact .ret hst
    · split
      · exact .ret hst
      · exact .at rfl rfl hs hst
    · exact .at rfl rfl hs (by simpa using hst)
  | binaryApply op left pos => exact .ret (fun _ => Stable.applyBinary) hst
  | unaryApply op pos => exact .ret (fun _ => leaves_ofExcept) hst
  | choose thenValue elseValue scope => exact .pure (.at rfl rfl (by simpa using hf) hst)
  | memberOf attr pos => exact .ret (fun hI => hI.getMember) hst
  | indexKey key pos scope =>
    exact .pure (.at rfl rfl (by simpa using hf) (by simpa using hst))
  | indexApply object pos => exact .ret (fun hI => hI.getIndex) hst
  | placeMember attr pos use scope =>
    exact avoids_usePlace (by simp [Place.scopes]) (by simpa using hf) hst
  | placeKey key pos use scope =>
    exact .pure (.at rfl rfl (by simpa using hf) (stackClear_cons.mpr ⟨hf, hst⟩))
  | placeElement object pos use scope =>
    exact avoids_usePlace (by simp [Place.scopes]) (by simpa using hf) hst
  | write place =>
    exact .bind (avoids_writePlace hf) fun _ _ hl _ => .pure (.ret (hl.stackClear hst))
  | combine place op old pos =>
    refine .bind (.of_upholds fun _ => Stable.applyBinary) fun w₁ new hl _ => ?_
    exact .bind (avoids_writePlace fun r hr => hl.clear (hf r hr)) fun _ _ hl' _ =>
      .pure (.ret (hl'.stackClear (hl.stackClear hst)))
  | property done key rest scope =>
    have hs : w.heap.Clear K scope := by simpa using hf
    exact .bind (.modifyHeap fun hw => Heap.grows_nameFunction hw.heap.toScoped v key)
      fun _ _ hl _ => avoids_evalProperties (hl.clear hs) (hl.stackClear hst)
  | awaiting => exact .pure hst
  | calleeOf args what pos scope => exact avoids_collectArgs (by simpa using hf) hst
  | methodOf attr attrPos args what pos scope =>
    have hs : w.heap.Clear K scope := by simpa using hf
    exact .bind (.of_upholds fun hI => hI.getMember) fun _ _ hl _ =>
      avoids_collectArgs (hl.clear hs) (hl.stackClear hst)
  | classOf args what pos scope => exact avoids_collectArgs (by simpa using hf) hst
  | collect purpose done rest scope => exact avoids_collectArgs (by simpa using hf) hst
  | call => exact .pure (.ret hst)
  | parameter name rest args body scope =>
    have hs : w.heap.Clear K scope := by simpa using hf
    exact .bind (.define hs) fun _ _ hl _ =>
      .pure (.at rfl rfl (hl.clear hs) (hl.stackClear hst))
  | fieldValue name k =>
    exact .bind (.modifyHeap fun hw => ⟨.of_eq rfl rfl rfl, hw.heap.toScoped.of_eq rfl rfl rfl⟩)
      fun _ _ hl _ => .pure (clear_initialise (hl.stackClear hst))
  | constructed target => exact .pure (.ret hst)
  | superDone => exact .pure (.done hst)

theorem avoids_handle {name : Option String} {handler : Block} {v : Value}
    {finalizer : Option Block} (hs : w.heap.Clear K scope) (hst : StackClear K w stack) :
    (handle name handler v finalizer scope stack).Avoids K w (Move.Clear K) := by
  refine .bind (.newScope hs) fun w₁ own hl hown => ?_
  have hst₁ : StackClear K w₁ (.handlerBody finalizer scope :: stack) := by
    simpa using ⟨hl.clear hs, hl.stackClear hst⟩
  split
  · exact .bind (.define hown) fun _ _ hl' _ =>
      .pure (.at rfl rfl (hl'.clear hown) (hl'.stackClear hst₁))
  · exact .pure (.at rfl rfl hown hst₁)

theorem avoids_unwind {f : Frame} {how : Abrupt} (hf : ∀ r ∈ f.scopes, w.heap.Clear K r)
    (hst : StackClear K w stack) : (f.unwind how stack).Avoids K w (Move.Clear K) := by
  unfold Frame.unwind
  split
  · exact .pure (.done hst)
  · exact .pure (.done hst)
  · exact .pure (.done hst)
  · exact .pure (.done hst)
  · rename_i loop scope
    exact .keeping fun hw => avoids_nextFor
      (fun _ hp => (hf scope (by simp)).parent hw.heap.toScoped hp) hst
  · exact .pure (.at rfl rfl (by simpa using hf) (stackClear_cons.mpr ⟨hf, hst⟩))
  · exact avoids_nextItem (by simpa using hf) hst
  · exact .pure (.ret hst)
  · exact avoids_handle (by simpa using hf) hst
  · exact avoids_finalize (by simpa using hf) hst
  · exact avoids_finalize (by simpa using hf) hst
  · exact .pure (.leave hst)

/-! ## Steps -/

namespace Thread

variable {t : Thread}

/-- Code that is not about to be entered inside `K` lies clear of it. -/
theorem clear_of_not_enters {s : Ref .scope} (ht : ¬ t.Enters K w) (hs : t.target? w = some s)
    (hhas : w.heap.scopes.Has s) : w.heap.Clear K s :=
  ⟨hhas, fun k hk hin => ht ⟨s, hs, k, hk, hin⟩⟩

theorem avoids_checkDepth : (checkDepth t).Avoids K w fun w' _ => w' = w := by
  intro hw
  rw [run_checkDepth]
  exact ⟨.refl hw, fun _ _ => rfl⟩

/-- A thread that works clear of some scopes does so after a step, unless it enters code from which
    one of them can be reached. -/
theorem Clear.step (ht : t.Clear K w) (hent : ¬ t.Enters K w) :
    (t.step ps).Avoids K w (Move.Clear K) := by
  obtain ⟨control, stack, base⟩ := t
  obtain ⟨⟨hscopes, htarget⟩, hst⟩ := ht
  unfold Thread.step
  cases control with
  | program imports ss => exact avoids_runProgram hst
  | statements ss scope => exact avoids_runStatements (hscopes scope (by simp [Control.scopes])) hst
  | exec s scope => exact avoids_execStmt (hscopes scope (by simp [Control.scopes])) hst
  | eval e scope => exact avoids_evalExpr (hscopes scope (by simp [Control.scopes])) hst
  | invoke callee args pos => exact avoids_invoke hst
  | enter c args receiver =>
    have hc := clear_of_not_enters hent rfl (htarget c.scope (by simp [Control.target?]))
    refine .bind avoids_checkDepth fun w₁ _ _ hw => ?_
    subst hw
    exact avoids_enterFunction hc hst
  | bind params args body scope =>
    exact avoids_bindParams (hscopes scope (by simp [Control.scopes])) hst
  | initialise k =>
    refine .keeping fun hw => .bind avoids_checkDepth fun w₁ _ _ hw₁ => ?_
    subst hw₁
    refine avoids_initialise (fun f hf hvalue => ?_) hst
    obtain ⟨e, he⟩ := Option.isSome_iff_exists.mp hvalue
    refine clear_of_not_enters hent ?_ (hw.heap.has_cls f.cls)
    simp [target?, Option.mem_def.mp hf, he]
  | ret v =>
    cases stack with
    | nil => exact .pure trivial
    | cons f below => exact avoids_receive (hst f (by simp)) (stackClear_cons.mp hst).2
  | leave how =>
    cases stack with
    | nil =>
      cases how with
      | thrown v pos => exact .pure trivial
      | _ => exact .abort
    | cons f below => exact avoids_unwind (hst f (by simp)) (stackClear_cons.mp hst).2
  | fail f => exact .throw

end Thread

end CoScript
