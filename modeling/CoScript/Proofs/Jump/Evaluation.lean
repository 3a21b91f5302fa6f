import CoScript.Proofs.Eval.Stable
import CoScript.Proofs.Jump.Stack

/-!
# Evaluation keeps jumps confined

Each step of a thread takes a confined thread to a confined one and leaves all functions in the heap
confined.

Results:
* `World.Confined`: the invariant of the world.
* `Thread.Confined.step`: a step of a confined thread.
-/

namespace CoScript

open Effect

/-- All functions that the world holds are confined. -/
def World.Confined (w : World) : Prop :=
  w.heap.Confined

/-- A computation that keeps all functions confined and gives no code. -/
abbrev Effect.Quiet {α : Type} (x : Effect α) : Prop :=
  x.Keeps World.Confined fun _ => True

/-! ## Changes of the heap -/

/-- A change of neither functions nor classes. -/
theorem Heap.Confined.congr {h h' : Heap} (hh : h.Confined) (hf : h'.functions = h.functions)
    (hc : h'.classes = h.classes) : h'.Confined :=
  ⟨by rw [hf]; exact hh.functions, by rw [hc]; exact hh.classes⟩

/-- Whatever makes no function of the script and no class leaves all functions confined. -/
theorem stable_confined : Stable Heap.Confined where
  inert hh _ hf hc _ := hh.congr hf hc
  native {w f} hf hh := hh.newFunction (by
    cases f with
    | closure c => exact absurd rfl (hf c)
    | _ => trivial)
  named v name hh := hh.nameFunction v name
  scopes := ⟨fun _ _ hh => hh.congr rfl rfl, fun _ hh => hh.congr rfl rfl,
    fun _ _ hh => hh.congr rfl rfl, fun _ _ hh => hh.congr rfl rfl,
    fun _ _ hh => hh.congr rfl rfl⟩

theorem keeps_newFunction {f : Function} (hf : f.Confined) : (newFunction f).Quiet :=
  .bind (leaves_inHeap fun _ hh => hh.newFunction hf) fun _ _ => .pure trivial

theorem quiet_declareVar {scope : Ref .scope} {name : String} {value : Option Value} :
    (declareVar scope name value).Quiet :=
  leaves_modifyHeap fun _ hh => hh.congr rfl rfl

/-! ## Calls -/

section Calls

variable {ps : Promises} {stack : List Frame} {args : List Value} {scope : Ref .scope}

/-- A value reaches a confined stack. -/
theorem Move.Confined.ret {v : Value} (hs : StackConfined stack) : (Move.ret v stack).Confined :=
  ⟨trivial, hs⟩

theorem Move.Confined.done (hs : StackConfined stack) : (Move.done stack).Confined :=
  ⟨trivial, hs⟩

theorem confined_callClosure {c : Closure} {receiver : Value} (hc : c.Confined)
    (hs : StackConfined stack) : (callClosure c args receiver stack).Confined := by
  unfold callClosure
  split
  · exact ⟨⟨hc, _, rfl⟩, hs⟩
  · exact ⟨⟨hc, _, rfl⟩, trivial, hs⟩

theorem keeps_callFunction {r : Ref .function} {receiver : Value} {pos : Position}
    (hs : StackConfined stack) :
    (callFunction ps r args receiver pos stack).Keeps World.Confined Move.Confined := by
  refine .bind keeps_heap fun h hh => ?_
  split
  · exact .bind stable_confined.printValues fun _ _ => .pure (.ret hs)
  · exact .bind stable_confined.callArrayMethod fun _ _ => .pure (.ret hs)
  · exact .bind stable_confined.callHost fun _ _ => .pure (.ret hs)
  · rename_i c hc
    have hf := hh.function r
    rw [hc] at hf
    exact .pure (confined_callClosure hf hs)
  · rename_i m target hr
    split
    · rename_i c hc
      have hf := hh.function m
      rw [hc] at hf
      exact .pure (confined_callClosure hf hs)
    · exact .pure (.ret hs)

theorem keeps_invoke {callee : Value} {pos : Position} (hs : StackConfined stack) :
    (invoke ps callee args pos stack).Keeps World.Confined Move.Confined := by
  unfold invoke
  split
  · exact keeps_callFunction hs
  · exact .fault

theorem keeps_enterFunction {c : Closure} {receiver : Value} (hc : c.Confined)
    (hb : StartsBody stack) (hs : StackConfined stack) :
    (enterFunction c args receiver stack).Keeps World.Confined Move.Confined := by
  refine .bind stable_confined.newScope fun scope _ => ?_
  have hbind : (Pure.pure (.go (.bind c.params args c.body scope) stack) : Effect Move).Keeps
      World.Confined Move.Confined := .pure ⟨⟨hc.1, hc.2, hb⟩, hs⟩
  dsimp only
  split
  · exact .bind keeps_heap fun _ _ => .bind stable_confined.bindReceiver fun _ _ => hbind
  · exact hbind

theorem keeps_bindParams {params : List Param} {body : FunctionBody}
    (hps : ParamsConfined params) (hbody : body.Confined) (hb : StartsBody stack)
    (hs : StackConfined stack) :
    (bindParams params args body scope stack).Keeps World.Confined Move.Confined := by
  unfold bindParams
  split
  · split
    · refine .pure ⟨?_, hs⟩
      rw [Control.Confined, hb.jumpsOn_eq]
      exact Block.confined_iff.mp hbody
    · exact .pure ⟨hbody, hs⟩
  · obtain ⟨hp, hrest⟩ := hps
    split
    · rename_i hd
      have he := optionConfined_iff.mp (Param.confined_iff.mp hp) _ hd
      exact .pure ⟨he, ⟨hrest, hbody, hb⟩, hs⟩
    · exact .bind stable_confined.define fun _ _ => .pure ⟨⟨hrest, hbody, hb⟩, hs⟩

/-! ### Construction -/

theorem confined_pendingFields {h : Heap} (hh : h.Confined) (r : Ref .cls) :
    ∀ f ∈ pendingFields h r, f.field.Confined := by
  intro f hf
  obtain ⟨c, -, hf⟩ := List.mem_flatMap.mp hf
  obtain ⟨d, hd, rfl⟩ := List.mem_map.mp hf
  exact fieldsConfined_iff.mp (hh.fields c) d hd

theorem keeps_construct {r : Ref .cls} (hs : StackConfined stack) :
    (construct r args stack).Keeps World.Confined Move.Confined :=
  .bind (leaves_inHeap fun _ hh => hh.congr rfl rfl) fun _ _ => .bind keeps_heap fun _ hh =>
    .pure ⟨confined_pendingFields hh r, hs⟩

theorem confined_constructorOf {h : Heap} (hh : h.Confined) {r : Ref .cls} {c : Closure}
    (hc : constructorOf? h r = some c) : c.Confined := by
  unfold constructorOf? at hc
  cases hm : h.method? r "constructor" with
  | none => simp [hm] at hc
  | some m =>
    have hf := hh.function m
    simp only [hm, Option.bind_eq_bind, Option.bind_some] at hc
    split at hc
    · rename_i c' hc'
      rw [hc'] at hf
      obtain rfl := Option.some.inj hc
      exact hf
    · simp at hc

theorem keeps_initialise {k : Construction} (hk : k.Confined) (hs : StackConfined stack) :
    (initialise k stack).Keeps World.Confined Move.Confined := by
  unfold initialise
  split
  · refine .bind keeps_heap fun h hh => ?_
    split
    · rename_i c hc
      exact .pure ⟨⟨confined_constructorOf hh hc, _, rfl⟩, trivial, trivial, hs⟩
    · exact .pure (.ret hs)
  · rename_i f rest hfields
    have hf : f.field.Confined := hk f (by rw [hfields]; simp)
    have hrest : Construction.Confined { k with fields := rest } := fun g hg =>
      hk g (by rw [hfields]; exact List.mem_cons_of_mem _ hg)
    dsimp only
    split
    · exact .bind (leaves_modifyHeap fun _ hh => hh.congr rfl rfl) fun _ _ => .pure ⟨hrest, hs⟩
    · rename_i e he
      have he := optionConfined_iff.mp (FieldDecl.confined_iff.mp hf) e he
      exact .bind stable_confined.fieldScope fun _ _ => .pure ⟨he, hrest, hs⟩

theorem keeps_callSuper {r : Ref .cls} {receiver : Value} (hs : StackConfined stack) :
    (callSuper r receiver args stack).Keeps World.Confined Move.Confined := by
  refine .bind keeps_heap fun h hh => ?_
  split
  · rename_i c hc
    exact .pure ⟨⟨confined_constructorOf hh hc, _, rfl⟩, trivial, trivial, hs⟩
  · exact .pure (.ret hs)

theorem keeps_applyPurpose {p : Purpose} (hs : StackConfined stack) :
    (applyPurpose ps p args stack).Keeps World.Confined Move.Confined := by
  unfold applyPurpose
  split
  · split
    · exact keeps_callFunction hs
    · exact .bind keeps_heap fun _ _ => .fault
    · exact .fault
  · split
    · exact keeps_construct hs
    · exact .fault
  · exact keeps_callSuper hs
  · exact .bind (leaves_inHeap fun _ hh => hh.congr rfl rfl) fun _ _ => .pure (.ret hs)

theorem keeps_collectArgs {p : Purpose} {done : List Value} {rest : List Expr}
    (hrest : ExprsConfined rest) (hs : StackConfined stack) :
    (collectArgs ps p done rest scope stack).Keeps World.Confined Move.Confined := by
  unfold collectArgs
  split
  · exact keeps_applyPurpose hs
  · exact .pure ⟨hrest.1, hrest.2, hs⟩

end Calls

/-! ## Expressions -/

section Expressions

variable {ps : Promises} {stack : List Frame} {scope : Ref .scope}

theorem keeps_usePlace {place : Place} {use : PlaceUse} (hu : use.Confined)
    (hs : StackConfined stack) :
    (usePlace ps place use scope stack).Keeps World.Confined Move.Confined := by
  unfold usePlace
  split
  · exact .bind stable_confined.stepPlace fun _ _ => .pure (.ret hs)
  · split
    · exact .pure ⟨hu, trivial, hs⟩
    · exact .bind (stable_confined.readPlace place) fun _ _ => .pure ⟨hu, trivial, hs⟩

theorem keeps_evalTarget {target : Expr} {use : PlaceUse} (ht : target.Confined)
    (hu : use.Confined) (hs : StackConfined stack) :
    (evalTarget ps target use scope stack).Keeps World.Confined Move.Confined := by
  unfold evalTarget
  split
  · exact keeps_usePlace hu hs
  · exact .pure ⟨ht, hu, hs⟩
  · exact .pure ⟨ht.1, ⟨ht.2, hu⟩, hs⟩
  · exact .abort

theorem confined_evalCall {callee : Expr} {args : List Expr} {pos : Position}
    (hc : callee.Confined) (ha : ExprsConfined args) (hs : StackConfined stack) :
    (evalCall callee args pos scope stack).Confined := by
  unfold evalCall
  dsimp only
  split
  · exact ⟨hc, ha, hs⟩
  · exact ⟨hc, ha, hs⟩

theorem quiet_evalFunction {name : Option String} {params : List Param} {body : Block}
    {isAsync : Bool} (hp : ParamsConfined params) (hb : body.Confined .ofFunction) :
    (evalFunction name params body isAsync scope).Quiet := by
  unfold evalFunction
  split
  · exact keeps_newFunction ⟨hp, hb⟩
  · exact .bind stable_confined.newScope fun _ _ => .bind (keeps_newFunction ⟨hp, hb⟩) fun _ _ =>
      .bind stable_confined.define fun _ _ => .pure trivial

theorem keeps_evalSuperCall {args : List Expr} {pos : Position} (ha : ExprsConfined args)
    (hs : StackConfined stack) :
    (evalSuperCall ps args pos scope stack).Keeps World.Confined Move.Confined := by
  refine .bind leaves_lookup fun v _ => ?_
  split
  · exact .bind leaves_lookup fun _ _ => keeps_collectArgs ha hs
  · exact .fault

theorem keeps_evalProperties {done : Ordered Value} {rest : List Property}
    (hr : PropertiesConfined rest) (hs : StackConfined stack) :
    (evalProperties done rest scope stack).Keeps World.Confined Move.Confined := by
  unfold evalProperties
  split
  · exact .bind (leaves_inHeap fun _ hh => hh.congr rfl rfl) fun _ _ => .pure (.ret hs)
  · exact .pure ⟨Property.confined_iff.mp hr.1, hr.2, hs⟩

theorem keeps_evalExpr {e : Expr} (he : e.Confined) (hs : StackConfined stack) :
    (evalExpr ps e scope stack).Keeps World.Confined Move.Confined := by
  cases e with
  | literal => exact .pure (.ret hs)
  | name => exact .bind leaves_lookup fun _ _ => .pure (.ret hs)
  | this => exact .bind leaves_lookup fun _ _ => .pure (.ret hs)
  | array => exact keeps_collectArgs he hs
  | object => exact keeps_evalProperties he hs
  | binary => exact .pure ⟨he.1, he.2, hs⟩
  | unary => exact .pure ⟨he, trivial, hs⟩
  | update => exact keeps_evalTarget he trivial hs
  | assign => exact keeps_evalTarget he.1 he.2 hs
  | conditional => exact .pure ⟨he.1, he.2, hs⟩
  | call => exact .pure (confined_evalCall he.1 he.2 hs)
  | member => exact .pure ⟨he, trivial, hs⟩
  | index => exact .pure ⟨he.1, he.2, hs⟩
  | construct => exact .pure ⟨he.1, he.2, hs⟩
  | superCall => exact keeps_evalSuperCall he hs
  | await => exact .pure ⟨he, trivial, hs⟩
  | arrow => exact .bind (keeps_newFunction ⟨he.1, he.2⟩) fun _ _ => .pure (.ret hs)
  | function => exact .bind (quiet_evalFunction he.1 he.2) fun _ _ => .pure (.ret hs)

end Expressions

/-! ## Statements -/

section Statements

variable {stack : List Frame} {scope : Ref .scope}

theorem quiet_declare {kind : DeclKind} {name : String} {value : Option Value}
    {pos : Option Position} : (CoScript.declare kind name value scope pos).Quiet := by
  cases kind with
  | function => exact quiet_declareVar
  | block => exact stable_confined.define
  | constant => exact stable_confined.define

theorem keeps_execVarDecl {d : VarDecl} (hd : d.Confined) (hs : StackConfined stack) :
    (execVarDecl d scope stack).Keeps World.Confined Move.Confined := by
  unfold execVarDecl
  split
  · rename_i e he
    have he := optionConfined_iff.mp (VarDecl.confined_iff.mp hd) e he
    exact .pure ⟨he, trivial, hs⟩
  · exact .bind quiet_declare fun _ _ => .pure (.done hs)

theorem quiet_hoistFunctions {ss : List Stmt} {j : Jumps} (hss : StmtsConfined ss j) :
    (hoistFunctions scope ss).Quiet := by
  induction ss with
  | nil => exact .pure trivial
  | cons s rest ih =>
    obtain ⟨hs, hrest⟩ := hss
    cases s with
    | functionDecl d =>
      have hd := FunctionDecl.confined_iff.mp hs
      exact .bind (keeps_newFunction ⟨hd.1, hd.2⟩) fun _ _ =>
        .bind (leaves_modifyHeap fun _ hh => hh.congr rfl rfl) fun _ _ => ih hrest
    | _ => exact ih hrest

theorem confined_nextStatement {ss : List Stmt} (hss : StmtsConfined ss (jumpsOn stack))
    (hs : StackConfined stack) : (nextStatement ss scope stack).Confined := by
  cases ss with
  | nil => exact .done hs
  | cons s rest => exact ⟨hss.1, hss.2, hs⟩

theorem keeps_runStatements {ss : List Stmt} (hss : StmtsConfined ss (jumpsOn stack))
    (hs : StackConfined stack) :
    (runStatements ss scope stack).Keeps World.Confined Move.Confined :=
  .bind (quiet_hoistFunctions hss) fun _ _ => .pure (confined_nextStatement hss hs)

theorem keeps_runBlock {b : Block} (hb : b.Confined (jumpsOn stack)) (hs : StackConfined stack) :
    (runBlock b scope stack).Keeps World.Confined Move.Confined :=
  .bind stable_confined.newScope fun _ _ => .pure ⟨Block.confined_iff.mp hb, hs⟩

theorem quiet_newMethods {home : Ref .cls} {ds : List FunctionDecl}
    {done : Ordered (Ref .function)} (hd : FunctionDeclsConfined ds) :
    (newMethods home scope ds done).Quiet := by
  induction ds generalizing done with
  | nil => exact .pure trivial
  | cons d rest ih =>
    have hf := FunctionDecl.confined_iff.mp hd.1
    exact .bind (leaves_inHeap fun _ hh => hh.newFunction ⟨hf.1, hf.2⟩) fun _ _ => ih hd.2

/-- The methods of a class hold no code but that of functions. -/
theorem Heap.Confined.setMethods {h : Heap} (hh : h.Confined) (r : Ref .cls)
    (methods : Ordered (Ref .function)) :
    ({ h with classes := h.classes.modify r.index fun c => { c with methods } } :
      Heap).Confined := by
  refine ⟨hh.functions, fun c hc => ?_⟩
  obtain ⟨i, hi⟩ := Array.getElem?_of_mem hc
  rw [Array.getElem?_modify] at hi
  split at hi
  · obtain ⟨d, hd, rfl⟩ := Option.map_eq_some_iff.mp hi
    exact hh.classes d (Array.mem_of_getElem? hd)
  · exact hh.classes c (Array.mem_of_getElem? hi)

theorem quiet_declareClass {d : ClassDecl} (hd : d.Confined) : (declareClass d scope).Quiet := by
  obtain ⟨hfields, hmethods⟩ := ClassDecl.confined_iff.mp hd
  exact .bind Stable.superclassOf fun _ _ =>
    .bind (leaves_inHeap fun _ hh => hh.newClass hfields) fun _ _ =>
    .bind (quiet_newMethods hmethods) fun _ _ =>
    .bind (leaves_modifyHeap fun _ hh => hh.setMethods _ _) fun _ _ =>
    .bind stable_confined.checkInterfaces fun _ _ => stable_confined.define

/-! ### Imports -/

theorem keeps_runProgram {imports : List ImportDecl} {ss : List Stmt}
    (hss : StmtsConfined ss (jumpsOn stack)) (hs : StackConfined stack) :
    (runProgram imports ss stack).Keeps World.Confined Move.Confined := by
  unfold runProgram
  split
  · exact .bind stable_confined.bindImport fun _ _ => .pure ⟨hss, hs⟩
  · exact .bind .get fun _ _ => .pure ⟨hss, hs⟩

/-! ### Loops -/

theorem confined_testFor {loop : ForLoop} (hl : loop.Confined (jumpsOn stack))
    (hs : StackConfined stack) : (testFor loop scope stack).Confined := by
  unfold testFor
  split
  · rename_i e he
    exact ⟨optionConfined_iff.mp hl.1 e he, hl, hs⟩
  · exact ⟨hl.2.2, hl, hs⟩

theorem keeps_startFor {loop : ForLoop} (hl : loop.Confined (jumpsOn stack))
    (hs : StackConfined stack) :
    (startFor loop scope stack).Keeps World.Confined Move.Confined :=
  .bind stable_confined.copyScope fun _ _ => .pure (confined_testFor hl hs)

theorem keeps_nextFor {loop : ForLoop} (hl : loop.Confined (jumpsOn stack))
    (hs : StackConfined stack) :
    (nextFor loop scope stack).Keeps World.Confined Move.Confined := by
  refine .bind stable_confined.copyScope fun scope _ => ?_
  split
  · rename_i e he
    exact .pure ⟨optionConfined_iff.mp hl.2.1 e he, hl, hs⟩
  · exact .pure (confined_testFor hl hs)

theorem keeps_execFor {init : Option ForInit} {loop : ForLoop} (hi : InitConfined init)
    (hl : loop.Confined (jumpsOn stack)) (hs : StackConfined stack) :
    (execFor init loop scope stack).Keeps World.Confined Move.Confined := by
  refine .bind stable_confined.newScope fun own _ => ?_
  split
  · exact keeps_startFor hl hs
  · exact .pure ⟨hi, hl, hs⟩
  · exact .pure ⟨hi, hl, hs⟩

theorem keeps_nextItem {loop : ItemLoop} {items : Items} (hl : loop.Confined (jumpsOn stack))
    (hs : StackConfined stack) :
    (nextItem loop items stack).Keeps World.Confined Move.Confined := by
  refine .bind keeps_heap fun h _ => ?_
  split
  · exact .pure (.done hs)
  · exact .bind stable_confined.newScope fun _ _ => .bind quiet_declare fun _ _ =>
      .pure ⟨hl, hl, hs⟩

/-! ### Switches and finalizers -/

theorem confined_runCases {cases : List SwitchCase}
    (hc : CasesConfined cases (jumpsOn stack).inSwitch) (hs : StackConfined stack) :
    (runCases cases scope stack).Confined := by
  cases cases with
  | nil => exact .done hs
  | cons c rest => exact ⟨(SwitchCase.confined_iff.mp hc.1).2, hc.2, hs⟩

theorem confined_testCases {value : Value} {todo all : List SwitchCase}
    (ht : CasesConfined todo (jumpsOn stack).inSwitch)
    (ha : CasesConfined all (jumpsOn stack).inSwitch) (hs : StackConfined stack) :
    (testCases value todo all scope stack).Confined := by
  induction todo with
  | nil =>
    refine confined_runCases (casesConfined_iff.mpr fun c hc => ?_) hs
    exact casesConfined_iff.mp ha c (List.dropWhile_sublist _ |>.subset hc)
  | cons c rest ih =>
    unfold testCases
    split
    · exact ih ht.2
    · rename_i e he
      exact ⟨optionConfined_iff.mp (SwitchCase.confined_iff.mp ht.1).1 e he, ⟨ht, ha⟩, hs⟩

theorem confined_resumePending {pending : Option Abrupt}
    (hp : ∀ how ∈ pending, how.Confined (jumpsOn stack)) (hs : StackConfined stack) :
    (resumePending pending stack).Confined := by
  cases pending with
  | none => exact .done hs
  | some how => exact ⟨hp how rfl, hs⟩

theorem keeps_finalize {pending : Option Abrupt} {finalizer : Option Block}
    (hp : ∀ how ∈ pending, how.Confined (jumpsOn stack))
    (hf : BlockOptionConfined finalizer (jumpsOn stack)) (hs : StackConfined stack) :
    (finalize pending finalizer scope stack).Keeps World.Confined Move.Confined := by
  unfold finalize
  split
  · exact .pure (confined_resumePending hp hs)
  · have hstack : StackConfined (.finalizerBody pending :: stack) := ⟨hp, hs⟩
    exact keeps_runBlock hf hstack

/-! ### All statements -/

theorem keeps_execStmt {s : Stmt} (h : s.Confined (jumpsOn stack)) (hs : StackConfined stack) :
    (execStmt s scope stack).Keeps World.Confined Move.Confined := by
  unfold execStmt
  split
  · exact .pure ⟨h, trivial, hs⟩
  · exact keeps_execVarDecl h hs
  · exact keeps_runBlock h hs
  · exact .pure ⟨h.1, h.2, hs⟩
  · exact keeps_execFor h.1 h.2 hs
  · exact .pure ⟨h.1, h.2, hs⟩
  · exact .pure ⟨h.1, h, hs⟩
  · exact .pure ⟨h.1, h.2, hs⟩
  · exact .pure ⟨h.1, hs⟩
  · exact .pure ⟨h.2, h.1, hs⟩
  · exact .pure ⟨h, hs⟩
  · exact .pure ⟨h, hs⟩
  · exact .pure ⟨h, trivial, hs⟩
  · rename_i body name handler finalizer
    have hstack : StackConfined (.tryBody name handler finalizer scope :: stack) := ⟨h.2, hs⟩
    exact keeps_runBlock h.1 hstack
  · exact .bind (quiet_declareClass h) fun _ _ => .pure (.done hs)
  · exact .bind stable_confined.declareInterface fun _ _ => .pure (.done hs)
  all_goals exact .pure (.done hs)

end Statements

/-! ## Frames -/

section Frames

variable {ps : Promises} {stack : List Frame}

theorem keeps_receive {f : Frame} {v : Value} (hf : f.Confined stack)
    (hs : StackConfined stack) :
    (f.receive ps v stack).Keeps World.Confined Move.Confined := by
  cases f with
  | sequence rest scope => exact .pure (confined_nextStatement hf hs)
  | discard => exact .pure (.done hs)
  | declare kind name pos scope =>
    exact .bind (leaves_modifyHeap fun _ hh => hh.nameFunction _ _) fun _ _ =>
      .bind quiet_declare fun _ _ => .pure (.done hs)
  | branch thenBranch elseBranch scope =>
    refine .pure ?_
    unfold chooseBranch
    split
    · exact ⟨hf.1, hs⟩
    · split
      · exact ⟨hf.2, hs⟩
      · exact .done hs
  | forStart loop scope => exact keeps_startFor hf hs
  | forTest loop scope =>
    unfold Frame.receive
    dsimp only
    split
    · exact .pure ⟨hf.2.2, hf, hs⟩
    · exact .pure (.done hs)
  | forBody loop scope => exact keeps_nextFor hf hs
  | forUpdate loop scope => exact .pure (confined_testFor hf hs)
  | whileTest condition body scope =>
    unfold Frame.receive
    dsimp only
    split
    · exact .pure ⟨hf.2, hf, hs⟩
    · exact .pure (.done hs)
  | whileBody condition body scope => exact .pure ⟨hf.1, hf, hs⟩
  | itemsOf loop pos =>
    unfold Frame.receive
    dsimp only
    split
    · exact keeps_nextItem hf hs
    · exact .fault
  | itemBody loop items => exact keeps_nextItem hf hs
  | switchOn cases scope =>
    exact .bind stable_confined.newScope fun _ _ => .pure (confined_testCases hf hf hs)
  | switchTest value todo all scope =>
    unfold Frame.receive
    dsimp only
    split
    · exact .pure (confined_runCases hf.1 hs)
    · refine .pure (confined_testCases ?_ hf.2 hs)
      exact casesConfined_iff.mpr fun c hc =>
        casesConfined_iff.mp hf.1 c (List.mem_of_mem_drop hc)
  | switchBody rest scope => exact .pure (confined_runCases hf hs)
  | giveBack => exact .pure ⟨hf, hs⟩
  | throwIt pos => exact .pure ⟨trivial, hs⟩
  | tryBody name handler finalizer scope => exact keeps_finalize (by simp) hf.2 hs
  | handlerBody finalizer scope => exact keeps_finalize (by simp) hf hs
  | finalizerBody pending => exact .pure (confined_resumePending hf hs)
  | binaryRight op right pos scope =>
    refine .pure ?_
    unfold afterLeft
    split
    · split
      · exact ⟨hf, hs⟩
      · exact .ret hs
    · split
      · exact .ret hs
      · exact ⟨hf, hs⟩
    · exact ⟨hf, trivial, hs⟩
  | binaryApply op left pos => exact .bind Stable.applyBinary fun _ _ => .pure (.ret hs)
  | unaryApply op pos => exact .bind leaves_ofExcept fun _ _ => .pure (.ret hs)
  | choose thenValue elseValue scope =>
    refine .pure ⟨?_, hs⟩
    cases v.isTruthy
    · exact hf.2
    · exact hf.1
  | memberOf attr pos => exact .bind stable_confined.getMember fun _ _ => .pure (.ret hs)
  | indexKey key pos scope => exact .pure ⟨hf, trivial, hs⟩
  | indexApply object pos => exact .bind stable_confined.getIndex fun _ _ => .pure (.ret hs)
  | placeMember attr pos use scope => exact keeps_usePlace hf hs
  | placeKey key pos use scope => exact .pure ⟨hf.1, hf.2, hs⟩
  | placeElement object pos use scope => exact keeps_usePlace hf hs
  | write place => exact .bind (stable_confined.writePlace _ _) fun _ _ => .pure (.ret hs)
  | combine place op old pos =>
    exact .bind Stable.applyBinary fun _ _ => .bind (stable_confined.writePlace _ _) fun _ _ =>
      .pure (.ret hs)
  | property done key rest scope =>
    exact .bind (leaves_modifyHeap fun _ hh => hh.nameFunction _ _) fun _ _ =>
      keeps_evalProperties hf hs
  | awaiting => exact .pure hs
  | calleeOf args what pos scope => exact keeps_collectArgs hf hs
  | methodOf attr attrPos args what pos scope =>
    exact .bind stable_confined.getMember fun _ _ => keeps_collectArgs hf hs
  | classOf args what pos scope => exact keeps_collectArgs hf hs
  | collect purpose done rest scope => exact keeps_collectArgs hf hs
  | call => exact .pure (.ret hs)
  | parameter name rest args body scope =>
    exact .bind stable_confined.define fun _ _ => .pure ⟨hf, hs⟩
  | fieldValue name k =>
    exact .bind (leaves_modifyHeap fun _ hh => hh.congr rfl rfl) fun _ _ => .pure ⟨hf, hs⟩
  | constructed target => exact .pure (.ret hs)
  | superDone => exact .pure (.done hs)

theorem keeps_handle {name : Option String} {handler : Block} {v : Value}
    {finalizer : Option Block} {scope : Ref .scope} (hh : handler.Confined (jumpsOn stack))
    (hf : BlockOptionConfined finalizer (jumpsOn stack)) (hs : StackConfined stack) :
    (handle name handler v finalizer scope stack).Keeps World.Confined Move.Confined := by
  refine .bind stable_confined.newScope fun own _ => ?_
  have hrun : (Pure.pure (.go (.statements handler.statements own)
      (.handlerBody finalizer scope :: stack)) : Effect Move).Keeps World.Confined
      Move.Confined := .pure ⟨Block.confined_iff.mp hh, hf, hs⟩
  split
  · exact .bind stable_confined.define fun _ _ => hrun
  · exact hrun

/-- What a frame does not catch goes on to the frames below. -/
theorem confined_below {f : Frame} {how : Abrupt} (hf : ¬ f.catches how = true)
    (hj : how.Confined (jumpsOn (f :: stack))) : how.Confined (jumpsOn stack) := by
  cases how with
  | thrown v pos => trivial
  | _ => exact (passes_of_not_catches hf hj (by simp)).2

theorem confined_pending {how : Abrupt} {j : Jumps} (h : how.Confined j) :
    ∀ how' ∈ some how, how'.Confined j := by
  rintro _ ⟨⟩
  exact h

theorem keeps_unwind {f : Frame} {how : Abrupt} (hf : f.Confined stack)
    (hs : StackConfined stack) (hj : how.Confined (jumpsOn (f :: stack))) :
    (f.unwind how stack).Keeps World.Confined Move.Confined := by
  have hpass : ¬ f.catches how = true →
      (Pure.pure (.go (.leave how) stack) : Effect Move).Keeps World.Confined Move.Confined :=
    fun hc => .pure ⟨confined_below hc hj, hs⟩
  cases f with
  | forBody loop scope =>
    cases how with
    | breakOut => exact .pure (.done hs)
    | continueOn => exact keeps_nextFor hf hs
    | _ => exact hpass (by simp [Frame.catches])
  | whileBody condition body scope =>
    cases how with
    | breakOut => exact .pure (.done hs)
    | continueOn => exact .pure ⟨hf.1, hf, hs⟩
    | _ => exact hpass (by simp [Frame.catches])
  | itemBody loop items =>
    cases how with
    | breakOut => exact .pure (.done hs)
    | continueOn => exact keeps_nextItem hf hs
    | _ => exact hpass (by simp [Frame.catches])
  | switchBody rest scope =>
    cases how with
    | breakOut => exact .pure (.done hs)
    | _ => exact hpass (by simp [Frame.catches])
  | call =>
    cases how with
    | returned v => exact .pure (.ret hs)
    | _ => exact hpass (by simp [Frame.catches])
  | tryBody name handler finalizer scope =>
    have hfinal : (finalize (some how) finalizer scope stack).Keeps World.Confined
        Move.Confined := keeps_finalize (confined_pending hj) hf.2 hs
    cases how with
    | thrown v pos =>
      cases handler with
      | none => exact hfinal
      | some handler => exact keeps_handle hf.1 hf.2 hs
    | _ => cases handler <;> exact hfinal
  | handlerBody finalizer scope =>
    have hfinal : (finalize (some how) finalizer scope stack).Keeps World.Confined
        Move.Confined := keeps_finalize (confined_pending hj) hf hs
    cases how <;> exact hfinal
  | _ => cases how <;> exact hpass (by simp [Frame.catches])

/-- A jump ends where it is caught: the evaluation goes on with something else. -/
theorem unwind_of_catches {f : Frame} {how : Abrupt} (h : f.catches how = true) :
    (f.unwind how stack).Keeps (fun _ => True) fun m =>
      ∀ how' below, m ≠ .go (.leave how') below := by
  cases f with
  | forBody loop scope =>
    cases how with
    | breakOut => exact .pure (by simp [Move.done, Move.ret])
    | continueOn =>
      refine .bind .trivially fun scope _ => ?_
      split
      · exact .pure (by simp)
      · refine .pure ?_
        unfold testFor
        split <;> simp
    | _ => simp [Frame.catches] at h
  | whileBody condition body scope =>
    cases how with
    | breakOut => exact .pure (by simp [Move.done, Move.ret])
    | continueOn => exact .pure (by simp)
    | _ => simp [Frame.catches] at h
  | itemBody loop items =>
    cases how with
    | breakOut => exact .pure (by simp [Move.done, Move.ret])
    | continueOn =>
      refine .bind .trivially fun h _ => ?_
      split
      · exact .pure (by simp [Move.done, Move.ret])
      · exact .bind .trivially fun _ _ => .bind .trivially fun _ _ => .pure (by simp)
    | _ => simp [Frame.catches] at h
  | switchBody rest scope =>
    cases how with
    | breakOut => exact .pure (by simp [Move.done, Move.ret])
    | _ => simp [Frame.catches] at h
  | call =>
    cases how with
    | returned v => exact .pure (by simp [Move.ret])
    | _ => simp [Frame.catches] at h
  | _ => simp [Frame.catches] at h

end Frames

/-! ## Threads -/

section Threads

variable {t : Thread}

/-- A step of a confined thread leads to a confined thread, and all functions stay confined. In
    particular no jump gets to the end of a stack. -/
theorem Thread.Confined.step (h : t.Confined) (ps : Promises) :
    (t.step ps).Keeps World.Confined Move.Confined := by
  obtain ⟨hc, hs⟩ := h
  obtain ⟨control, stack, base⟩ := t
  cases control with
  | program imports ss => exact keeps_runProgram hc hs
  | statements ss scope => exact keeps_runStatements hc hs
  | exec s scope => exact keeps_execStmt hc hs
  | eval e scope => exact keeps_evalExpr hc hs
  | invoke callee args pos => exact keeps_invoke hs
  | enter f args receiver =>
    exact .bind Stable.checkDepth fun _ _ => keeps_enterFunction hc.1 hc.2 hs
  | bind params args body scope => exact keeps_bindParams hc.1 hc.2.1 hc.2.2 hs
  | initialise k => exact .bind Stable.checkDepth fun _ _ => keeps_initialise hc hs
  | ret v =>
    cases stack with
    | nil => exact .pure trivial
    | cons f below => exact keeps_receive hs.1 hs.2
  | leave how =>
    cases stack with
    | nil =>
      cases how with
      | thrown v pos => exact .pure trivial
      | _ => exact .abort
    | cons f below => exact keeps_unwind hs.1 hs.2 hc
  | fail f => exact .throw

end Threads

end CoScript
