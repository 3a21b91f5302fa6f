import CoScript.Proofs.Moved.Effect
import CoScript.Proofs.Moved.Thread

/-!
# The evaluation looks at no position

Each step of a thread whose positions are moved is the step of the thread itself, with the positions
of its result moved.

Results:
* `moves_evalExpr`, `moves_execStmt`, `moves_receive`, `moves_unwind`: the parts of a step.
* `Thread.moves_step`: a step of a thread.
-/

namespace CoScript

open Effect

variable {f : Position → Position} {ps : Promises} {args : List Value} {scope : Ref .scope}
  {stack : List Frame}

/-- Two computations of what a thread does that do the same up to positions. -/
abbrev Effect.SameMove (f : Position → Position) (x x' : Effect Move) : Prop :=
  Moves f (Move.mapPos f) x x'

/-- A value reaches the same frame. -/
theorem moves_ret {x x' : Effect Value} (h : SameValue f x x') :
    SameMove f (x >>= fun v => pure (.ret v stack))
      (x' >>= fun v => pure (.ret v (mapPosFrames f stack))) :=
  .bind h fun _ => .pure rfl

/-- A statement comes to the same end. -/
theorem moves_done {x x' : Effect Unit} (h : SameValue f x x') :
    SameMove f (x >>= fun _ => pure (.done stack))
      (x' >>= fun _ => pure (.done (mapPosFrames f stack))) :=
  .bind h fun _ => .pure rfl

/-! ## Members and operators -/

theorem moves_keyDisplay {key : Value} :
    SameValue f (keyDisplay ps key) (keyDisplay (ps.mapPos f) key) := by
  refine .bind .heap fun h => ?_
  rw [h.display_mapPos]
  exact .ofOption

theorem moves_arrayMember {r : Ref .array} {attr : String} :
    SameValue f (arrayMember r attr) (arrayMember r attr) := by
  unfold arrayMember
  split
  · exact .bind .heap fun h => .pure rfl
  · split
    · exact .newFunction rfl
    · exact .pure rfl

theorem moves_instanceMember {r : Ref .inst} {attr : String} :
    SameValue f (instanceMember r attr) (instanceMember r attr) := by
  refine .bind .heap fun h => ?_
  simp only [Heap.instanceOf_mapPos, Heap.method?_mapPos]
  cases (h.instanceOf r).fields.get? attr with
  | some v => exact .pure rfl
  | none =>
    cases h.method? (h.instanceOf r).cls attr with
    | some m => exact .newFunction rfl
    | none => exact .pure rfl

theorem moves_getMember {v : Value} {attr : String} {pos : Position} :
    SameValue f (getMember v attr pos) (getMember v attr (f pos)) := by
  cases v with
  | inst r => exact moves_instanceMember
  | object r => exact .bind .heap fun h => .pure rfl
  | undefined => exact .fault rfl
  | null => exact .fault rfl
  | cls r =>
    refine .bind .heap fun h => .pure ?_
    rw [h.cls_mapPos]
    rfl
  | function r =>
    refine .bind .heap fun h => .pure ?_
    rw [h.functionName_mapPos]
    rfl
  | array r => exact moves_arrayMember
  | _ => exact .pure rfl

theorem moves_setMember {v new : Value} {attr : String} {pos : Position} :
    SameValue f (setMember v attr new pos) (setMember v attr new (f pos)) := by
  cases v with
  | inst r => exact .modifyHeap fun _ => rfl
  | object r => exact .modifyHeap fun _ => rfl
  | _ => exact .fault rfl

theorem moves_getIndex {v key : Value} {pos : Position} :
    SameValue f (getIndex ps v key pos) (getIndex (ps.mapPos f) v key (f pos)) := by
  cases v with
  | array r =>
    cases key with
    | number x => exact .bind .heap fun h => .pure rfl
    | _ => exact .bind moves_keyDisplay fun _ => moves_arrayMember
  | string s =>
    cases key with
    | number x => exact .pure rfl
    | _ => exact .bind moves_keyDisplay fun _ => .pure rfl
  | object r => exact .bind moves_keyDisplay fun _ => moves_getMember
  | inst r => exact .bind moves_keyDisplay fun _ => moves_getMember
  | _ => exact .fault rfl

theorem moves_setIndex {v key new : Value} {pos : Position} :
    SameValue f (setIndex ps v key new pos) (setIndex (ps.mapPos f) v key new (f pos)) := by
  cases v with
  | array r =>
    -- a key that is no index is shown in the fault
    have hfault : SameValue f
        (heap >>= fun h => ofOption (h.render ps key true) >>= fun shown =>
          (fault (.arrayIndex shown) (some pos) : Effect Unit))
        (heap >>= fun h => ofOption (h.render (ps.mapPos f) key true) >>= fun shown =>
          (fault (.arrayIndex shown) (some (f pos)) : Effect Unit)) := by
      refine .bind .heap fun h => ?_
      rw [h.render_mapPos]
      exact .bind .ofOption fun _ => .fault rfl
    cases key with
    | number x =>
      unfold setIndex
      dsimp only
      cases indexOf? x with
      | some n => exact .modifyHeap fun _ => rfl
      | none => exact hfault
    | _ => exact hfault
  | object r => exact .bind moves_keyDisplay fun _ => moves_setMember
  | inst r => exact .bind moves_keyDisplay fun _ => moves_setMember
  | _ => exact .fault rfl

theorem concat_mapPos (h : Heap) (l r : Value) :
    Value.concat (h.mapPos f) (ps.mapPos f) l r =
      moveResult (Halt.mapPos f) id (Value.concat h ps l r) := by
  simp only [Value.concat, Heap.display_mapPos]
  split <;> rfl

theorem binary_mapPos (h : Heap) (op : BinaryOp) (l r : Value) (pos : Position) :
    Value.binary (h.mapPos f) (ps.mapPos f) op l r (f pos) =
      moveResult (Halt.mapPos f) id (Value.binary h ps op l r pos) := by
  have hmismatch : (.error (.fault (.located (.binaryOperands op l.type r.type) (f pos))) :
      Except Halt Value) = moveResult (Halt.mapPos f) id
        (.error (.fault (.located (.binaryOperands op l.type r.type) pos))) := rfl
  unfold Value.binary
  dsimp only
  rw [hmismatch, concat_mapPos]
  split
  · rfl
  · rfl
  · rfl
  · rfl
  · split
    · rfl
    · split
      · split
        · rfl
        · rfl
      · split
        · rfl
        · rfl
      · rfl

theorem moves_applyBinary {op : BinaryOp} {l r : Value} {pos : Position} :
    SameValue f (applyBinary ps op l r pos) (applyBinary (ps.mapPos f) op l r (f pos)) :=
  .bind .heap fun h => .ofExcept (binary_mapPos h op l r pos)

theorem unary_mapPos (op : UnaryOp) (v : Value) (pos : Position) :
    v.unary op (f pos) = moveResult (Halt.mapPos f) id (v.unary op pos) := by
  cases op <;> cases v <;> rfl

theorem step_mapPos (op : UpdateOp) (v : Value) (pos : Position) :
    v.step op (f pos) = moveResult (Halt.mapPos f) id (v.step op pos) := by
  cases v <;> rfl

/-! ## Calls -/

theorem moves_printValues : SameValue f (printValues ps args) (printValues (ps.mapPos f) args) := by
  refine .bind .heap fun h => ?_
  simp only [Heap.render_mapPos]
  exact .bind .ofOption fun _ => .bind .print fun _ => .pure rfl

theorem moves_callArrayMethod {m : ArrayMethod} {r : Ref .array} :
    SameValue f (callArrayMethod ps m r args) (callArrayMethod (ps.mapPos f) m r args) := by
  refine .bind .heap fun h => ?_
  simp only [Heap.array_mapPos, Heap.display_mapPos, Heap.joinItems_mapPos]
  cases m with
  | push => exact .bind (.modifyHeap fun _ => rfl) fun _ => .bind .heap fun _ => .pure rfl
  | pop => exact .bind (.modifyHeap fun _ => rfl) fun _ => .pure rfl
  | join =>
    cases args.headD .undefined with
    | undefined => exact .bind (.pure rfl) fun _ => .bind .ofOption fun _ => .pure rfl
    | _ => exact .bind .ofOption fun _ => .bind .ofOption fun _ => .pure rfl
  | includes => exact .pure rfl
  | indexOf =>
    dsimp only
    cases itemIndex? (h.array r) (args.headD .undefined) <;> exact .pure rfl

theorem moves_takeAnswer {answer : HostAnswer} {pos : Position} :
    SameValue f (takeAnswer answer pos) (takeAnswer (answer.mapPos f) (f pos)) := by
  obtain ⟨changes, printed, memory, result⟩ := answer
  refine .bind (.modify fun w w' hw => hw.after ⟨changes, printed, memory, result⟩) fun _ => ?_
  cases result with
  | ok v => exact .ofHeap (moves_toValue v)
  | error why => exact .throw (why.orAt_mapPos pos)

theorem moves_callHost {name : String} {pos : Position} :
    SameValue f (callHost ps name args pos) (callHost (ps.mapPos f) name args (f pos)) := by
  refine .get_bind ?_
  rintro w _ ⟨hblind, log, rfl⟩
  have hhost : (w.mapPos f).host.get? name = (w.host.get? name).map (HostFunction.mapPos f) :=
    Ordered.get?_mapWithKey _ _ _
  simp only [hhost]
  cases hg : w.host.get? name with
  | none => exact .pure rfl
  | some g =>
    have hcall : g.mapPos f ⟨args, w.heap.mapPos f, ps.mapPos f, w.memory⟩ =
        (g ⟨args, w.heap, ps, w.memory⟩).mapPos f :=
      congrArg (·.mapPos f) (hblind.get? hg f ⟨args, w.heap, ps, w.memory⟩)
    change SameValue f (takeAnswer _ pos)
      (takeAnswer (g.mapPos f ⟨args, w.heap.mapPos f, ps.mapPos f, w.memory⟩) (f pos))
    rw [hcall]
    exact moves_takeAnswer

theorem mapPos_callClosure (c : Closure) (receiver : Value) :
    (callClosure c args receiver stack).mapPos f =
      callClosure (c.mapPos f) args receiver (mapPosFrames f stack) := by
  unfold callClosure
  change _ = if c.isAsync then _ else _
  split <;> rfl

theorem moves_callFunction {r : Ref .function} {receiver : Value} {pos : Position} :
    SameMove f (callFunction ps r args receiver pos stack)
      (callFunction (ps.mapPos f) r args receiver (f pos) (mapPosFrames f stack)) := by
  refine .bind .heap fun h => ?_
  simp only [Heap.function_mapPos]
  cases h.function r with
  | print => exact moves_ret moves_printValues
  | arrayMethod m items => exact moves_ret moves_callArrayMethod
  | host name => exact moves_ret moves_callHost
  | closure c => exact .pure (mapPos_callClosure c receiver)
  | bound m target =>
    dsimp only [Function.mapPos]
    cases h.function m with
    | closure c => exact .pure (mapPos_callClosure c (.inst target))
    | _ => exact .pure rfl

theorem moves_invoke {callee : Value} {pos : Position} :
    SameMove f (invoke ps callee args pos stack)
      (invoke (ps.mapPos f) callee args (f pos) (mapPosFrames f stack)) := by
  cases callee with
  | function r => exact moves_callFunction
  | _ => exact .fault rfl

theorem superOf_mapPos (h : Heap) (home : Option (Ref .cls)) :
    superOf (h.mapPos f) home = superOf h home := by
  simp only [superOf, Heap.cls_mapPos]
  rfl

theorem moves_bindReceiver {receiver above : Value} :
    SameValue f (bindReceiver scope receiver above) (bindReceiver scope receiver above) :=
  .bind (.define rfl) fun _ => .define rfl

theorem moves_enterFunction {c : Closure} {receiver : Value} :
    SameMove f (enterFunction c args receiver stack)
      (enterFunction (c.mapPos f) args receiver (mapPosFrames f stack)) := by
  refine .bind .newScope fun scope => ?_
  change Moves f _ (if !c.isArrow then _ else _) (if !c.isArrow then _ else _)
  split
  · refine .bind .heap fun h => ?_
    rw [superOf_mapPos]
    exact .bind moves_bindReceiver fun _ => .pure rfl
  · exact .pure rfl

theorem moves_bindParams {params : List Param} {body : FunctionBody} :
    SameMove f (bindParams params args body scope stack)
      (bindParams (mapPosParams f params) args (body.mapPos f) scope (mapPosFrames f stack)) := by
  cases params with
  | nil =>
    cases body with
    | block b =>
      obtain ⟨pos, ss⟩ := b
      exact .pure rfl
    | expr e => exact .pure rfl
  | cons p rest =>
    obtain ⟨name, default⟩ := p
    unfold bindParams
    dsimp only [mapPosParams, Param.mapPos]
    cases default with
    | none =>
      dsimp only [mapPosOption]
      split
      · simp_all
      · exact .bind (.define rfl) fun _ => .pure rfl
    | some e =>
      dsimp only [mapPosOption]
      cases args.headD .undefined with
      | undefined => exact .pure rfl
      | _ => exact .bind (.define rfl) fun _ => .pure rfl

/-! ### Construction -/

theorem pendingFields_mapPos (h : Heap) (r : Ref .cls) :
    pendingFields (h.mapPos f) r = (pendingFields h r).map (·.mapPos f) := by
  simp only [pendingFields, Heap.classChain_mapPos, Heap.cls_mapPos, Class.mapPos,
    mapPosFields_eq, List.map_flatMap, List.map_map]
  rfl

theorem moves_construct {r : Ref .cls} :
    SameMove f (construct r args stack) (construct r args (mapPosFrames f stack)) := by
  refine .bind (.inHeap fun _ => rfl) fun target => .bind .heap fun h => .pure ?_
  rw [pendingFields_mapPos]
  rfl

theorem constructorOf?_mapPos (h : Heap) (r : Ref .cls) :
    constructorOf? (h.mapPos f) r = (constructorOf? h r).map (·.mapPos f) := by
  simp only [constructorOf?, Heap.method?_mapPos, Heap.function_mapPos]
  cases h.method? r "constructor" with
  | none => rfl
  | some m =>
    dsimp only [Option.bind_eq_bind, Option.bind_some]
    cases h.function m <;> rfl

theorem moves_fieldScope {p : PendingField} {target : Ref .inst} :
    SameValue f (fieldScope p target) (fieldScope (p.mapPos f) target) := by
  refine .bind .heap fun h => ?_
  simp only [Heap.cls_mapPos, superOf_mapPos]
  exact .bind .newScope fun _ => .bind moves_bindReceiver fun _ => .pure rfl

theorem moves_initialise {k : Construction} :
    SameMove f (initialise k stack) (initialise (k.mapPos f) (mapPosFrames f stack)) := by
  obtain ⟨target, cls, fields, args⟩ := k
  cases fields with
  | nil =>
    refine .bind .heap fun h => ?_
    simp only [Construction.mapPos, constructorOf?_mapPos]
    cases constructorOf? h cls <;> exact .pure rfl
  | cons p rest =>
    obtain ⟨home, pos, name, value⟩ := p
    cases value with
    | none => exact .bind (.modifyHeap fun _ => rfl) fun _ => .pure rfl
    | some e => exact .bind moves_fieldScope fun _ => .pure rfl

theorem moves_callSuper {r : Ref .cls} {receiver : Value} :
    SameMove f (callSuper r receiver args stack)
      (callSuper r receiver args (mapPosFrames f stack)) := by
  refine .bind .heap fun h => ?_
  simp only [constructorOf?_mapPos]
  cases constructorOf? h r <;> exact .pure rfl

theorem moves_applyPurpose {p : Purpose} :
    SameMove f (applyPurpose ps p args stack)
      (applyPurpose (ps.mapPos f) (p.mapPos f) args (mapPosFrames f stack)) := by
  cases p with
  | call callee receiver what pos =>
    cases callee with
    | function r => exact moves_callFunction
    | cls r =>
      refine .bind .heap fun h => ?_
      rw [h.cls_mapPos]
      exact .fault rfl
    | _ => exact .fault rfl
  | construct cls what pos =>
    cases cls with
    | cls r => exact moves_construct
    | _ => exact .fault rfl
  | superCall cls receiver => exact moves_callSuper
  | array => exact .bind (.inHeap fun _ => rfl) fun _ => .pure rfl

theorem moves_collectArgs {p : Purpose} {done : List Value} {rest : List Expr} :
    SameMove f (collectArgs ps p done rest scope stack)
      (collectArgs (ps.mapPos f) (p.mapPos f) done (mapPosExprs f rest) scope
        (mapPosFrames f stack)) := by
  cases rest with
  | nil => exact moves_applyPurpose
  | cons e rest => exact .pure rfl

/-! ## Places -/

theorem moves_readPlace {place : Place} :
    SameValue f (readPlace ps place) (readPlace (ps.mapPos f) (place.mapPos f)) := by
  cases place with
  | «variable» name scope pos => exact .lookup rfl
  | member object attr pos => exact moves_getMember
  | element object key pos => exact moves_getIndex

theorem moves_writePlace {place : Place} {v : Value} :
    SameValue f (writePlace ps v place) (writePlace (ps.mapPos f) v (place.mapPos f)) := by
  cases place with
  | «variable» name scope pos => exact .assign
  | member object attr pos => exact moves_setMember
  | element object key pos => exact moves_setIndex

theorem moves_stepPlace {place : Place} {op : UpdateOp} {before : Bool} {pos : Position} :
    SameValue f (stepPlace ps place op before pos)
      (stepPlace (ps.mapPos f) (place.mapPos f) op before (f pos)) :=
  .bind moves_readPlace fun old => .bind (.ofExcept (step_mapPos op old pos)) fun _ =>
    .bind moves_writePlace fun _ => .pure rfl

theorem moves_usePlace {place : Place} {use : PlaceUse} :
    SameMove f (usePlace ps place use scope stack)
      (usePlace (ps.mapPos f) (place.mapPos f) (use.mapPos f) scope (mapPosFrames f stack)) := by
  cases use with
  | update op before pos => exact moves_ret moves_stepPlace
  | assign op value pos =>
    unfold usePlace
    dsimp only [PlaceUse.mapPos]
    cases op.operation? with
    | none => exact .pure rfl
    | some op => exact .bind moves_readPlace fun _ => .pure rfl

theorem moves_evalTarget {target : Expr} {use : PlaceUse} :
    SameMove f (evalTarget ps target use scope stack)
      (evalTarget (ps.mapPos f) (target.mapPos f) (use.mapPos f) scope (mapPosFrames f stack)) := by
  cases target with
  | name pos ident => exact moves_usePlace
  | member pos object attr => exact .pure rfl
  | index pos object key => exact .pure rfl
  | _ => exact .abort

/-! ## Expressions -/

theorem describe_mapPos (e : Expr) : (e.mapPos f).describe = e.describe := by
  cases e <;> rfl

theorem pos_mapPos (e : Expr) : (e.mapPos f).pos = f e.pos := by
  cases e <;> rfl

theorem mapPos_evalCall (callee : Expr) (args : List Expr) (pos : Position) :
    (evalCall callee args pos scope stack).mapPos f =
      evalCall (callee.mapPos f) (mapPosExprs f args) (f pos) scope (mapPosFrames f stack) := by
  cases callee <;> rfl

theorem moves_evalFunction {name : Option String} {params : List Param} {body : Block}
    {isAsync : Bool} :
    SameValue f (evalFunction name params body isAsync scope)
      (evalFunction name (mapPosParams f params) (body.mapPos f) isAsync scope) := by
  cases name with
  | none => exact .newFunction rfl
  | some n =>
    exact .bind .newScope fun _ => .bind (.newFunction rfl) fun _ => .bind (.define rfl) fun _ =>
      .pure rfl

theorem moves_evalSuperCall {args : List Expr} {pos : Position} :
    SameMove f (evalSuperCall ps args pos scope stack)
      (evalSuperCall (ps.mapPos f) (mapPosExprs f args) (f pos) scope (mapPosFrames f stack)) := by
  refine .bind (.lookup rfl) fun v => ?_
  cases v with
  | cls r => exact .bind (.lookup rfl) fun _ => moves_collectArgs
  | _ => exact .fault rfl

theorem moves_evalProperties {done : Ordered Value} {rest : List Property} :
    SameMove f (evalProperties done rest scope stack)
      (evalProperties done (mapPosProperties f rest) scope (mapPosFrames f stack)) := by
  cases rest with
  | nil => exact .bind (.inHeap fun _ => rfl) fun _ => .pure rfl
  | cons p rest =>
    obtain ⟨key, value, shorthand⟩ := p
    exact .pure rfl

theorem moves_evalExpr {e : Expr} :
    SameMove f (evalExpr ps e scope stack)
      (evalExpr (ps.mapPos f) (e.mapPos f) scope (mapPosFrames f stack)) := by
  cases e with
  | literal pos value => exact .pure rfl
  | name pos ident => exact moves_ret (.lookup rfl)
  | this pos => exact moves_ret (.lookup rfl)
  | array pos elements => exact moves_collectArgs
  | object pos properties => exact moves_evalProperties
  | update pos op before target => exact moves_evalTarget
  | assign pos op target value => exact moves_evalTarget
  | call pos callee args => exact .pure (mapPos_evalCall callee args pos)
  | construct pos cls args =>
    refine .pure ?_
    rw [describe_mapPos]
    rfl
  | superCall pos args => exact moves_evalSuperCall
  | arrow pos params body isAsync => exact moves_ret (.newFunction rfl)
  | function pos name params body isAsync typeParams => exact moves_ret moves_evalFunction
  | _ => exact .pure rfl

/-! ## Statements -/

theorem moves_declare {kind : DeclKind} {name : String} {value : Option Value}
    {pos pos' : Option Position} (h : pos.map f = pos') :
    SameValue f (declare kind name value scope pos) (declare kind name value scope pos') := by
  cases kind with
  | function => exact .declareVar
  | block => exact .define h
  | constant => exact .define h

theorem moves_execVarDecl {d : VarDecl} :
    SameMove f (execVarDecl d scope stack)
      (execVarDecl (d.mapPos f) scope (mapPosFrames f stack)) := by
  obtain ⟨pos, kind, name, value⟩ := d
  cases value with
  | none => exact moves_done (moves_declare rfl)
  | some e => exact .pure rfl

theorem moves_hoistFunctions {ss : List Stmt} :
    SameValue f (hoistFunctions scope ss) (hoistFunctions scope (mapPosStmts f ss)) := by
  induction ss with
  | nil => exact .pure rfl
  | cons s rest ih =>
    cases s with
    | functionDecl d =>
      obtain ⟨pos, name, params, body, isAsync, typeParams⟩ := d
      exact .bind (.newFunction rfl) fun _ => .bind (.modifyHeap fun _ => rfl) fun _ => ih
    | _ => exact ih

theorem mapPos_nextStatement (ss : List Stmt) :
    (nextStatement ss scope stack).mapPos f =
      nextStatement (mapPosStmts f ss) scope (mapPosFrames f stack) := by
  cases ss <;> rfl

theorem moves_runStatements {ss : List Stmt} :
    SameMove f (runStatements ss scope stack)
      (runStatements (mapPosStmts f ss) scope (mapPosFrames f stack)) :=
  .bind moves_hoistFunctions fun _ => .pure (mapPos_nextStatement ss)

theorem moves_runBlock {b : Block} :
    SameMove f (runBlock b scope stack) (runBlock (b.mapPos f) scope (mapPosFrames f stack)) := by
  obtain ⟨pos, ss⟩ := b
  exact .bind .newScope fun _ => .pure rfl

/-! ### Classes and interfaces -/

theorem moves_newMethods {home : Ref .cls} {ds : List FunctionDecl}
    {done : Ordered (Ref .function)} :
    SameValue f (newMethods home scope ds done)
      (newMethods home scope (mapPosFunctions f ds) done) := by
  induction ds generalizing done with
  | nil => exact .pure rfl
  | cons d rest ih =>
    obtain ⟨pos, name, params, body, isAsync, typeParams⟩ := d
    exact .bind (.newFunctionRef rfl) fun _ => ih

theorem moves_superclassOf {d : ClassDecl} :
    SameValue f (superclassOf d scope) (superclassOf (d.mapPos f) scope) := by
  obtain ⟨pos, name, superclass, interfaces, fields, methods, typeParams⟩ := d
  cases superclass with
  | none => exact .pure rfl
  | some s =>
    refine .bind (.lookup rfl) fun v => ?_
    cases v with
    | cls r => exact .pure rfl
    | _ => exact .fault rfl

theorem any_mapPosFields (fields : List FieldDecl) (m : String) :
    (mapPosFields f fields).any (·.name == m) = fields.any (·.name == m) := by
  induction fields with
  | nil => rfl
  | cons d rest ih =>
    obtain ⟨pos, name, value⟩ := d
    simp only [mapPosFields, List.any_cons, ih]
    rfl

theorem moves_checkInterfaces {d : ClassDecl} {r : Ref .cls} :
    SameValue f (checkInterfaces d r) (checkInterfaces (d.mapPos f) r) := by
  obtain ⟨pos, name, superclass, interfaces, fields, methods, typeParams⟩ := d
  refine .bind .heap fun h => ?_
  simp only [ClassDecl.mapPos, Heap.method?_mapPos, any_mapPosFields]
  refine .bind (.forIn fun i _ _ => .get_bind ?_) fun _ => .pure rfl
  rintro w _ ⟨-, log, rfl⟩
  refine .bind (.forIn fun m _ _ => ?_) fun _ => .pure rfl
  split
  · exact .bind .record fun _ => .pure rfl
  · exact .pure rfl

theorem moves_declareClass {d : ClassDecl} :
    SameValue f (declareClass d scope) (declareClass (d.mapPos f) scope) := by
  have hclass (above : Option (Ref .cls)) : SameValue f
      (inHeap (·.newClass ⟨d.name, above, d.interfaces, d.fields, .empty, scope⟩))
      (inHeap (·.newClass ⟨d.name, above, d.interfaces, mapPosFields f d.fields, .empty, scope⟩)) :=
    .inHeap fun h => h.newClass_mapPos ⟨d.name, above, d.interfaces, d.fields, .empty, scope⟩
  obtain ⟨pos, name, superclass, interfaces, fields, methods, typeParams⟩ := d
  exact .bind moves_superclassOf fun above => .bind (hclass above) fun r =>
    .bind moves_newMethods fun ms => .bind (.modifyHeap fun h => h.setMethods_mapPos r ms) fun _ =>
    .bind moves_checkInterfaces fun _ => .define rfl

theorem moves_declareInterface {d : InterfaceDecl} :
    SameValue f (declareInterface d) (declareInterface (d.mapPos f)) := by
  refine .modify ?_
  rintro w _ ⟨hhost, log, rfl⟩
  exact ⟨hhost, log, rfl⟩

/-! ### Imports -/

/-- The logs may differ, so what is logged of a module makes no difference. -/
theorem alike_recordLoaded {w w' : World} (h : w.Alike f w') (loaded : List Loaded) :
    (recordLoaded w loaded).Alike f (recordLoaded w' loaded) := by
  induction loaded generalizing w w' with
  | nil => exact h
  | cons l loaded ih =>
    obtain ⟨hhost, log, rfl⟩ := h
    exact ih ⟨hhost, _, rfl⟩

theorem moves_resolveModule {d : ImportDecl} :
    SameValue f (resolveModule d) (resolveModule (d.mapPos f)) := by
  refine .get_bind ?_
  rintro w _ ⟨-, log, rfl⟩
  dsimp only [World.mapPos]
  cases w.resolver with
  | none => exact .pure rfl
  | some id =>
    refine .bind (.modifyGet ?_) fun answer => ?_
    · rintro w _ ⟨hhost, log, rfl⟩
      exact ⟨rfl, alike_recordLoaded (by exact ⟨hhost, log, rfl⟩) _⟩
    · cases answer with
      | ok exports => exact .pure rfl
      | error cause => exact .fault rfl

theorem moves_importedExports {d : ImportDecl} :
    SameValue f (importedExports d) (importedExports (d.mapPos f)) := by
  refine .bind moves_resolveModule fun exports? => ?_
  cases exports? with
  | some exports => exact .bind .record fun _ => .pure rfl
  | none =>
    refine .get_bind ?_
    rintro w _ ⟨-, log, rfl⟩
    exact .ite .rfl (.bind .record fun _ => .pure rfl) (.fault rfl)

theorem moves_importedValue {d : ImportDecl} {exports : Exports} {b : ImportBinding} :
    SameValue f (importedValue d exports b) (importedValue (d.mapPos f) exports b) := by
  unfold importedValue
  split
  · exact .ofHeap (moves_toValue _)
  · cases exports.get? b.name with
    | some v => exact .ofHeap (moves_toValue v)
    | none =>
      refine .get_bind ?_
      rintro w _ ⟨-, log, rfl⟩
      exact .ite .rfl (.pure rfl) (.fault rfl)

theorem moves_bindImport {d : ImportDecl} :
    SameValue f (bindImport d) (bindImport (d.mapPos f)) := by
  refine .bind moves_importedExports fun exports =>
    .bind (.forIn fun b _ _ => ?_) fun _ => .pure rfl
  refine .bind moves_importedValue fun v => .get_bind ?_
  rintro w _ ⟨-, log, rfl⟩
  exact .bind (.define rfl) fun _ => .pure rfl

theorem moves_runProgram {imports : List ImportDecl} {ss : List Stmt} :
    SameMove f (runProgram imports ss stack)
      (runProgram (imports.map (·.mapPos f)) (mapPosStmts f ss) (mapPosFrames f stack)) := by
  cases imports with
  | nil =>
    refine .get_bind ?_
    rintro w _ ⟨-, log, rfl⟩
    exact .pure rfl
  | cons d rest => exact .bind moves_bindImport fun _ => .pure rfl

theorem importsOf_mapPos (ss : List Stmt) :
    importsOf (mapPosStmts f ss) = (importsOf ss).map (·.mapPos f) := by
  induction ss with
  | nil => rfl
  | cons s rest ih =>
    cases s with
    | importDecl d => exact congrArg _ ih
    | _ => exact ih

/-! ### Loops -/

theorem mapPos_testFor (loop : ForLoop) :
    (testFor loop scope stack).mapPos f =
      testFor (loop.mapPos f) scope (mapPosFrames f stack) := by
  obtain ⟨condition, update, body⟩ := loop
  cases condition <;> rfl

theorem moves_startFor {loop : ForLoop} :
    SameMove f (startFor loop scope stack)
      (startFor (loop.mapPos f) scope (mapPosFrames f stack)) :=
  .bind .copyScope fun _ => .pure (mapPos_testFor loop)

theorem moves_nextFor {loop : ForLoop} :
    SameMove f (nextFor loop scope stack)
      (nextFor (loop.mapPos f) scope (mapPosFrames f stack)) := by
  refine .bind .copyScope fun scope => ?_
  obtain ⟨condition, update, body⟩ := loop
  cases update with
  | none => exact .pure (mapPos_testFor _)
  | some e => exact .pure rfl

theorem moves_execFor {init : Option ForInit} {loop : ForLoop} :
    SameMove f (execFor init loop scope stack)
      (execFor (mapPosInit f init) (loop.mapPos f) scope (mapPosFrames f stack)) := by
  refine .bind .newScope fun own => ?_
  cases init with
  | none => exact moves_startFor
  | some i => cases i <;> exact .pure rfl

theorem next?_mapPos (h : Heap) (items : Items) : items.next? (h.mapPos f) = items.next? h := by
  cases items <;> rfl

theorem moves_nextItem {loop : ItemLoop} {items : Items} :
    SameMove f (nextItem loop items stack)
      (nextItem (loop.mapPos f) items (mapPosFrames f stack)) := by
  refine .bind .heap fun h => ?_
  rw [next?_mapPos]
  cases items.next? h with
  | none => exact .pure rfl
  | some item => exact .bind .newScope fun _ => .bind (moves_declare rfl) fun _ => .pure rfl

/-! ### Switches and finalizers -/

theorem mapPos_runCases (cases : List SwitchCase) :
    (runCases cases scope stack).mapPos f =
      runCases (mapPosCases f cases) scope (mapPosFrames f stack) := by
  cases cases with
  | nil => rfl
  | cons c rest =>
    obtain ⟨pos, test, body⟩ := c
    rfl

theorem mapPos_testCases (value : Value) (todo all : List SwitchCase) :
    (testCases value todo all scope stack).mapPos f =
      testCases value (mapPosCases f todo) (mapPosCases f all) scope (mapPosFrames f stack) := by
  induction todo with
  | nil =>
    have hdrop : mapPosCases f (all.dropWhile (·.test.isSome)) =
        (mapPosCases f all).dropWhile (·.test.isSome) := by
      induction all with
      | nil => rfl
      | cons c rest ih =>
        obtain ⟨pos, test, body⟩ := c
        cases test with
        | none => rfl
        | some e => exact ih
    unfold testCases
    rw [mapPos_runCases, hdrop]
    rfl
  | cons c rest ih =>
    obtain ⟨pos, test, body⟩ := c
    cases test with
    | none => exact ih
    | some e => rfl

theorem mapPos_resumePending (pending : Option Abrupt) :
    (resumePending pending stack).mapPos f =
      resumePending (pending.map (·.mapPos f)) (mapPosFrames f stack) := by
  cases pending <;> rfl

theorem moves_finalize {pending : Option Abrupt} {finalizer : Option Block} :
    SameMove f (finalize pending finalizer scope stack)
      (finalize (pending.map (·.mapPos f)) (mapPosBlockOption f finalizer) scope
        (mapPosFrames f stack)) := by
  cases finalizer with
  | none => exact .pure (mapPos_resumePending pending)
  | some b => exact moves_runBlock

/-! ### All statements -/

theorem moves_execStmt {s : Stmt} :
    SameMove f (execStmt s scope stack)
      (execStmt (s.mapPos f) scope (mapPosFrames f stack)) := by
  cases s with
  | varDecl d => exact moves_execVarDecl
  | block b => exact moves_runBlock
  | forLoop pos init condition update body => exact moves_execFor
  | forOf pos kind name iterable body =>
    refine .pure ?_
    rw [pos_mapPos]
    rfl
  | returnStmt pos value => cases value <;> exact .pure rfl
  | tryStmt pos body name handler finalizer => exact moves_runBlock
  | classDecl d => exact moves_done moves_declareClass
  | interfaceDecl d => exact moves_done moves_declareInterface
  | _ => exact .pure rfl

/-! ## Frames -/

theorem drop_mapPosCases (cases : List SwitchCase) :
    mapPosCases f (cases.drop 1) = (mapPosCases f cases).drop 1 := by
  cases cases <;> rfl

theorem mapPos_chooseBranch (v : Value) (thenBranch : Stmt) (elseBranch : Option Stmt) :
    (chooseBranch v thenBranch elseBranch scope stack).mapPos f =
      chooseBranch v (thenBranch.mapPos f) (mapPosStmtOption f elseBranch) scope
        (mapPosFrames f stack) := by
  unfold chooseBranch
  split
  · rfl
  · cases elseBranch <;> rfl

theorem mapPos_afterLeft (op : BinaryOp) (v : Value) (right : Expr) (pos : Position) :
    (afterLeft op v right pos scope stack).mapPos f =
      afterLeft op v (right.mapPos f) (f pos) scope (mapPosFrames f stack) := by
  unfold afterLeft
  split
  · split <;> rfl
  · split <;> rfl
  · rfl

theorem moves_receive {g : Frame} {v : Value} :
    SameMove f (g.receive ps v stack)
      ((g.mapPos f).receive (ps.mapPos f) v (mapPosFrames f stack)) := by
  cases g with
  | sequence rest scope => exact .pure (mapPos_nextStatement rest)
  | declare kind name pos scope =>
    exact .bind .nameFunction fun _ => moves_done (moves_declare rfl)
  | branch thenBranch elseBranch scope =>
    exact .pure (mapPos_chooseBranch v thenBranch elseBranch)
  | forStart loop scope => exact moves_startFor
  | forTest loop scope =>
    unfold Frame.receive
    dsimp only [Frame.mapPos]
    split <;> exact .pure rfl
  | forBody loop scope => exact moves_nextFor
  | forUpdate loop scope => exact .pure (mapPos_testFor loop)
  | whileTest condition body scope =>
    unfold Frame.receive
    dsimp only [Frame.mapPos]
    split <;> exact .pure rfl
  | itemsOf loop pos =>
    unfold Frame.receive
    dsimp only [Frame.mapPos]
    cases Items.of? v with
    | some items => exact moves_nextItem
    | none => exact .fault rfl
  | itemBody loop items => exact moves_nextItem
  | switchOn cases scope => exact .bind .newScope fun _ => .pure (mapPos_testCases v cases cases)
  | switchTest value todo all scope =>
    unfold Frame.receive
    dsimp only [Frame.mapPos]
    split
    · exact .pure (mapPos_runCases todo)
    · rw [← drop_mapPosCases]
      exact .pure (mapPos_testCases value _ all)
  | switchBody rest scope => exact .pure (mapPos_runCases rest)
  | tryBody name handler finalizer scope => exact moves_finalize
  | handlerBody finalizer scope => exact moves_finalize
  | finalizerBody pending => exact .pure (mapPos_resumePending pending)
  | binaryRight op right pos scope => exact .pure (mapPos_afterLeft op v right pos)
  | binaryApply op left pos => exact moves_ret moves_applyBinary
  | unaryApply op pos => exact moves_ret (.ofExcept (unary_mapPos op v pos))
  | choose thenValue elseValue scope =>
    refine .pure ?_
    cases v.isTruthy <;> rfl
  | memberOf attr pos => exact moves_ret moves_getMember
  | indexApply object pos => exact moves_ret moves_getIndex
  | placeMember attr pos use scope => exact moves_usePlace
  | placeElement object pos use scope => exact moves_usePlace
  | write place => exact .bind moves_writePlace fun _ => .pure rfl
  | combine place op old pos =>
    exact .bind moves_applyBinary fun _ => .bind moves_writePlace fun _ => .pure rfl
  | property done key rest scope => exact .bind .nameFunction fun _ => moves_evalProperties
  | calleeOf args what pos scope => exact moves_collectArgs
  | methodOf attr attrPos args what pos scope =>
    exact .bind moves_getMember fun _ => moves_collectArgs
  | classOf args what pos scope => exact moves_collectArgs
  | collect purpose done rest scope => exact moves_collectArgs
  | parameter name rest args body scope => exact .bind (.define rfl) fun _ => .pure rfl
  | fieldValue name k => exact .bind (.modifyHeap fun _ => rfl) fun _ => .pure rfl
  | _ => exact .pure rfl

theorem moves_handle {name : Option String} {handler : Block} {v : Value}
    {finalizer : Option Block} :
    SameMove f (handle name handler v finalizer scope stack)
      (handle name (handler.mapPos f) v (mapPosBlockOption f finalizer) scope
        (mapPosFrames f stack)) := by
  refine .bind .newScope fun own => ?_
  obtain ⟨pos, ss⟩ := handler
  cases name with
  | none => exact .pure rfl
  | some n => exact .bind (.define rfl) fun _ => .pure rfl

theorem moves_unwind {g : Frame} {how : Abrupt} :
    SameMove f (g.unwind how stack)
      ((g.mapPos f).unwind (how.mapPos f) (mapPosFrames f stack)) := by
  cases g with
  | forBody loop scope =>
    cases how with
    | continueOn => exact moves_nextFor
    | _ => exact .pure rfl
  | itemBody loop items =>
    cases how with
    | continueOn => exact moves_nextItem
    | _ => exact .pure rfl
  | tryBody name handler finalizer scope =>
    cases handler with
    | none => cases how <;> exact moves_finalize
    | some handler =>
      cases how with
      | thrown v pos => exact moves_handle
      | _ => exact moves_finalize
  | handlerBody finalizer scope => cases how <;> exact moves_finalize
  | _ => cases how <;> exact .pure rfl

/-! ## Threads -/

/-- A step of a thread looks at no position. -/
theorem Thread.moves_step {t : Thread} :
    SameMove f (t.step ps) ((t.mapPos f).step (ps.mapPos f)) := by
  have hdepth : SameValue f (checkDepth t) (checkDepth (t.mapPos f)) := by
    refine .get_bind ?_
    rintro w _ ⟨-, log, rfl⟩
    rw [t.depth_mapPos]
    exact .ite .rfl .abort (.pure rfl)
  obtain ⟨control, stack, base⟩ := t
  cases control with
  | program imports ss => exact moves_runProgram
  | statements ss scope => exact moves_runStatements
  | exec s scope => exact moves_execStmt
  | eval e scope => exact moves_evalExpr
  | invoke callee args pos => exact moves_invoke
  | enter c args receiver => exact .bind hdepth fun _ => moves_enterFunction
  | bind params args body scope => exact moves_bindParams
  | initialise k => exact .bind hdepth fun _ => moves_initialise
  | ret v =>
    cases stack with
    | nil => exact .pure rfl
    | cons g below => exact moves_receive
  | leave how =>
    cases stack with
    | nil =>
      cases how with
      | thrown v pos => exact .pure rfl
      | _ => exact .abort
    | cons g below => exact moves_unwind
  | fail e => exact .throw rfl

end CoScript
