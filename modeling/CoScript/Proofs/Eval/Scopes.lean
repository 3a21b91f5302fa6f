import CoScript.Proofs.Eval.Stable

/-!
# What evaluation does to scopes

A step of a thread writes bindings in few ways. All but two look at what is there: the functions
that statements declare, and `var` with a value, of a declaration or of a loop over items, do not.

Results:
* `Thread.Spares`: neither of the two takes something away in the next step of a thread.
* `Scopes.Sparing.step`: then the step takes it not away.
-/

namespace CoScript

open Effect

/-- An invariant of the scopes as one of the heap. -/
def Scopes.Holds (I : Scopes → Prop) (h : Heap) : Prop :=
  I h.scopes

/-- A computation that keeps an invariant of the scopes. -/
abbrev Effect.Spares {α : Type} (I : Scopes → Prop) (x : Effect α) : Prop :=
  x.Leaves (Scopes.Holds I)

variable {I : Scopes → Prop}

/-! ## Changes of what is no scope -/

theorem scopes_nameFunction (h : Heap) (v : Value) (name : String) :
    (h.nameFunction v name).scopes = h.scopes := by
  unfold Heap.nameFunction
  split <;> rfl

namespace Scopes.Sparing

theorem stable (hI : Sparing I) : Stable (Holds I) where
  inert hh _ _ _ hs := by
    rw [Holds, hs]
    exact hh
  native _ hh := hh
  named v name hh := by
    rw [Holds, scopes_nameFunction]
    exact hh
  scopes := hI

end Scopes.Sparing

theorem spares_newFunction {f : Function} : (newFunction f).Spares I :=
  .bind (leaves_inHeap fun _ hh => hh) fun _ _ => .pure trivial

/-! ## Calls -/

namespace Scopes.Sparing

section Calls

variable {ps : Promises} {stack : List Frame} {args : List Value} {scope : Ref .scope}

theorem callFunction (hI : Sparing I) {r : Ref .function} {receiver : Value} {pos : Position} :
    (callFunction ps r args receiver pos stack).Spares I := by
  refine .bind leaves_heap fun h _ => ?_
  split
  · exact .bind hI.stable.printValues fun _ _ => .pure trivial
  · exact .bind hI.stable.callArrayMethod fun _ _ => .pure trivial
  · exact .bind hI.stable.callHost fun _ _ => .pure trivial
  · exact .pure trivial
  · split
    · exact .pure trivial
    · exact .pure trivial

theorem invoke (hI : Sparing I) {callee : Value} {pos : Position} :
    (invoke ps callee args pos stack).Spares I := by
  unfold CoScript.invoke
  split
  · exact hI.callFunction
  · exact .fault

theorem enterFunction (hI : Sparing I) {c : Closure} {receiver : Value} :
    (enterFunction c args receiver stack).Spares I := by
  refine .bind hI.stable.newScope fun scope _ => ?_
  dsimp only
  split
  · exact .bind leaves_heap fun _ _ => .bind hI.stable.bindReceiver fun _ _ => .pure trivial
  · exact .pure trivial

theorem bindParams (hI : Sparing I) {params : List Param} {body : FunctionBody} :
    (bindParams params args body scope stack).Spares I := by
  unfold CoScript.bindParams
  split
  · split <;> exact .pure trivial
  · split
    · exact .pure trivial
    · exact .bind hI.stable.define fun _ _ => .pure trivial

theorem construct {r : Ref .cls} : (construct r args stack).Spares I :=
  .bind (leaves_inHeap fun _ hh => hh) fun _ _ => .bind leaves_heap fun _ _ => .pure trivial

theorem initialise (hI : Sparing I) {k : Construction} : (initialise k stack).Spares I := by
  unfold CoScript.initialise
  split
  · refine .bind leaves_heap fun h _ => ?_
    split <;> exact .pure trivial
  · dsimp only
    split
    · exact .bind (leaves_modifyHeap fun _ hh => hh) fun _ _ => .pure trivial
    · exact .bind hI.stable.fieldScope fun _ _ => .pure trivial

theorem callSuper {r : Ref .cls} {receiver : Value} :
    (callSuper r receiver args stack).Spares I := by
  refine .bind leaves_heap fun h _ => ?_
  split <;> exact .pure trivial

theorem applyPurpose (hI : Sparing I) {p : Purpose} : (applyPurpose ps p args stack).Spares I := by
  unfold CoScript.applyPurpose
  split
  · split
    · exact hI.callFunction
    · exact .bind leaves_heap fun _ _ => .fault
    · exact .fault
  · split
    · exact construct
    · exact .fault
  · exact callSuper
  · exact .bind (leaves_inHeap fun _ hh => hh) fun _ _ => .pure trivial

theorem collectArgs (hI : Sparing I) {p : Purpose} {done : List Value} {rest : List Expr} :
    (collectArgs ps p done rest scope stack).Spares I := by
  unfold CoScript.collectArgs
  split
  · exact hI.applyPurpose
  · exact .pure trivial

end Calls

/-! ## Expressions -/

section Expressions

variable {ps : Promises} {stack : List Frame} {scope : Ref .scope}

theorem usePlace (hI : Sparing I) {place : Place} {use : PlaceUse} :
    (usePlace ps place use scope stack).Spares I := by
  unfold CoScript.usePlace
  split
  · exact .bind hI.stable.stepPlace fun _ _ => .pure trivial
  · split
    · exact .pure trivial
    · exact .bind (hI.stable.readPlace place) fun _ _ => .pure trivial

theorem evalTarget (hI : Sparing I) {target : Expr} {use : PlaceUse} :
    (evalTarget ps target use scope stack).Spares I := by
  unfold CoScript.evalTarget
  split
  · exact hI.usePlace
  · exact .pure trivial
  · exact .pure trivial
  · exact .abort

theorem evalFunction (hI : Sparing I) {name : Option String} {params : List Param} {body : Block}
    {isAsync : Bool} : (evalFunction name params body isAsync scope).Spares I := by
  unfold CoScript.evalFunction
  split
  · exact spares_newFunction
  · exact .bind hI.stable.newScope fun _ _ => .bind spares_newFunction fun _ _ =>
      .bind hI.stable.define fun _ _ => .pure trivial

theorem evalSuperCall (hI : Sparing I) {args : List Expr} {pos : Position} :
    (evalSuperCall ps args pos scope stack).Spares I := by
  refine .bind leaves_lookup fun v _ => ?_
  split
  · exact .bind leaves_lookup fun _ _ => hI.collectArgs
  · exact .fault

theorem evalProperties {done : Ordered Value} {rest : List Property} :
    (evalProperties done rest scope stack).Spares I := by
  unfold CoScript.evalProperties
  split
  · exact .bind (leaves_inHeap fun _ hh => hh) fun _ _ => .pure trivial
  · exact .pure trivial

theorem evalExpr (hI : Sparing I) (e : Expr) : (evalExpr ps e scope stack).Spares I := by
  cases e with
  | name => exact .bind leaves_lookup fun _ _ => .pure trivial
  | this => exact .bind leaves_lookup fun _ _ => .pure trivial
  | array => exact hI.collectArgs
  | object => exact evalProperties
  | update => exact hI.evalTarget
  | assign => exact hI.evalTarget
  | superCall => exact hI.evalSuperCall
  | arrow => exact .bind spares_newFunction fun _ _ => .pure trivial
  | function => exact .bind hI.evalFunction fun _ _ => .pure trivial
  | _ => exact .pure trivial

end Expressions

/-! ## Statements -/

section Statements

variable {stack : List Frame} {scope : Ref .scope}

theorem execVarDecl (hI : Sparing I) {d : VarDecl} : (execVarDecl d scope stack).Spares I := by
  unfold CoScript.execVarDecl
  split
  · exact .pure trivial
  · exact .bind (hI.stable.declare fun _ => rfl) fun _ _ => .pure trivial

/-- Functions that statements declare take nothing away if none of them does. -/
theorem hoistFunctions {ss : List Stmt}
    (h : ∀ d, .functionDecl d ∈ ss → ∀ s f, I s → I (s.hoist scope d.name f)) :
    (hoistFunctions scope ss).Spares I := by
  induction ss with
  | nil => exact .pure trivial
  | cons s rest ih =>
    have hrest := ih fun d hd => h d (List.mem_cons_of_mem _ hd)
    cases s with
    | functionDecl d =>
      exact .bind spares_newFunction fun f _ =>
        .bind (leaves_modifyHeap fun hp hh => h d (by simp) hp.scopes f hh) fun _ _ => hrest
    | _ => exact hrest

theorem runBlock (hI : Sparing I) {b : Block} : (runBlock b scope stack).Spares I :=
  .bind hI.stable.newScope fun _ _ => .pure trivial

theorem newMethods {home : Ref .cls} {ds : List FunctionDecl} {done : Ordered (Ref .function)} :
    (newMethods home scope ds done).Spares I := by
  induction ds generalizing done with
  | nil => exact .pure trivial
  | cons d rest ih => exact .bind (leaves_inHeap fun _ hh => hh) fun _ _ => ih

theorem declareClass (hI : Sparing I) {d : ClassDecl} : (declareClass d scope).Spares I :=
  .bind Stable.superclassOf fun _ _ => .bind (leaves_inHeap fun _ hh => hh) fun _ _ =>
    .bind newMethods fun _ _ => .bind (leaves_modifyHeap fun _ hh => hh) fun _ _ =>
    .bind hI.stable.checkInterfaces fun _ _ => hI.stable.define

theorem runProgram (hI : Sparing I) {imports : List ImportDecl} {ss : List Stmt} :
    (runProgram imports ss stack).Spares I := by
  unfold CoScript.runProgram
  split
  · exact .bind hI.stable.bindImport fun _ _ => .pure trivial
  · exact .bind (P := fun _ => True) (.mono .get fun _ _ => trivial) fun _ _ => .pure trivial

theorem startFor (hI : Sparing I) {loop : ForLoop} : (startFor loop scope stack).Spares I :=
  .bind hI.stable.copyScope fun _ _ => .pure trivial

theorem nextFor (hI : Sparing I) {loop : ForLoop} : (nextFor loop scope stack).Spares I := by
  refine .bind hI.stable.copyScope fun scope _ => ?_
  split <;> exact .pure trivial

theorem execFor (hI : Sparing I) {init : Option ForInit} {loop : ForLoop} :
    (execFor init loop scope stack).Spares I := by
  refine .bind hI.stable.newScope fun own _ => ?_
  split
  · exact hI.startFor
  · exact .pure trivial
  · exact .pure trivial

theorem finalize (hI : Sparing I) {pending : Option Abrupt} {finalizer : Option Block} :
    (finalize pending finalizer scope stack).Spares I := by
  unfold CoScript.finalize
  split
  · exact .pure trivial
  · exact hI.runBlock

theorem execStmt (hI : Sparing I) (s : Stmt) : (execStmt s scope stack).Spares I := by
  unfold CoScript.execStmt
  split
  case h_2 => exact hI.execVarDecl
  case h_3 => exact hI.runBlock
  case h_5 => exact hI.execFor
  case h_14 => exact hI.runBlock
  case h_15 => exact .bind hI.declareClass fun _ _ => .pure trivial
  case h_16 => exact .bind hI.stable.declareInterface fun _ _ => .pure trivial
  all_goals exact .pure trivial

theorem handle (hI : Sparing I) {name : Option String} {handler : Block} {v : Value}
    {finalizer : Option Block} : (handle name handler v finalizer scope stack).Spares I := by
  refine .bind hI.stable.newScope fun own _ => ?_
  split
  · exact .bind hI.stable.define fun _ _ => .pure trivial
  · exact .pure trivial

end Statements

end Scopes.Sparing

/-! ## Frames -/

/-- The scopes once a loop over items has given its variable an item as a `var`. -/
def ItemLoop.declareIn (loop : ItemLoop) (s : Scopes) (v : Value) : Scopes :=
  let (own, s) := s.new (some loop.scope) false
  s.declareVar own loop.name (some v)

namespace Scopes.Sparing

section Frames

variable {ps : Promises} {stack : List Frame} {w : World}

theorem nextItem (hI : Sparing I) {loop : ItemLoop} {items : Items} (hw : I w.heap.scopes)
    (hvar : loop.kind = .function → ∀ v, I (loop.declareIn w.heap.scopes v)) :
    I ((nextItem loop items stack).run w).2.heap.scopes := by
  by_cases hkind : loop.kind = .function
  · unfold CoScript.nextItem
    rw [run_heap_bind]
    cases items.next? w.heap with
    | none => exact hw
    | some item =>
      rw [hkind]
      exact hvar hkind item.1
  · have hleaves : (CoScript.nextItem loop items stack).Spares I := by
      refine .bind leaves_heap fun h _ => ?_
      split
      · exact .pure trivial
      · exact .bind hI.stable.newScope fun _ _ =>
          .bind (hI.stable.declare fun h => absurd h hkind) fun _ _ => .pure trivial
    exact (hleaves w hw).1

theorem receive_declare (hI : Sparing I) {kind : DeclKind} {name : String} {pos : Position}
    {scope : Ref .scope} {v : Value} (hw : I w.heap.scopes)
    (hvar : kind = .function → I (w.heap.scopes.declareVar scope name (some v))) :
    I (((Frame.declare kind name pos scope).receive ps v stack).run w).2.heap.scopes := by
  by_cases hkind : kind = .function
  · subst hkind
    change I ((w.heap.nameFunction v name).scopes.declareVar scope name (some v))
    rw [scopes_nameFunction]
    exact hvar rfl
  · have hleaves : ((Frame.declare kind name pos scope).receive ps v stack).Spares I :=
      .bind hI.stable.nameFunction fun _ _ =>
        .bind (hI.stable.declare fun h => absurd h hkind) fun _ _ => .pure trivial
    exact (hleaves w hw).1

/-- A frame that declares nothing and is not that of a loop over items. -/
theorem receive (hI : Sparing I) {f : Frame} {v : Value}
    (hdeclare : ∀ kind name pos scope, f ≠ .declare kind name pos scope)
    (hitems : ∀ loop pos, f ≠ .itemsOf loop pos) (hbody : ∀ loop items, f ≠ .itemBody loop items) :
    (f.receive ps v stack).Spares I := by
  cases f with
  | declare kind name pos scope => exact absurd rfl (hdeclare kind name pos scope)
  | itemsOf loop pos => exact absurd rfl (hitems loop pos)
  | itemBody loop items => exact absurd rfl (hbody loop items)
  | forStart => exact hI.startFor
  | forTest =>
    unfold Frame.receive
    dsimp only
    split <;> exact .pure trivial
  | forBody => exact hI.nextFor
  | whileTest =>
    unfold Frame.receive
    dsimp only
    split <;> exact .pure trivial
  | switchOn => exact .bind hI.stable.newScope fun _ _ => .pure trivial
  | switchTest =>
    unfold Frame.receive
    dsimp only
    split <;> exact .pure trivial
  | tryBody => exact hI.finalize
  | handlerBody => exact hI.finalize
  | binaryApply => exact .bind Stable.applyBinary fun _ _ => .pure trivial
  | unaryApply => exact .bind leaves_ofExcept fun _ _ => .pure trivial
  | memberOf => exact .bind hI.stable.getMember fun _ _ => .pure trivial
  | indexApply => exact .bind hI.stable.getIndex fun _ _ => .pure trivial
  | placeMember => exact hI.usePlace
  | placeElement => exact hI.usePlace
  | write => exact .bind (hI.stable.writePlace _ _) fun _ _ => .pure trivial
  | combine =>
    exact .bind Stable.applyBinary fun _ _ => .bind (hI.stable.writePlace _ _) fun _ _ =>
      .pure trivial
  | property => exact .bind hI.stable.nameFunction fun _ _ => evalProperties
  | calleeOf => exact hI.collectArgs
  | methodOf => exact .bind hI.stable.getMember fun _ _ => hI.collectArgs
  | classOf => exact hI.collectArgs
  | collect => exact hI.collectArgs
  | parameter => exact .bind hI.stable.define fun _ _ => .pure trivial
  | fieldValue => exact .bind (leaves_modifyHeap fun _ hh => hh) fun _ _ => .pure trivial
  | _ => exact .pure trivial

/-- A frame below which a statement is left, and that is not that of a loop that goes on to its next
    item. -/
theorem unwind (hI : Sparing I) {f : Frame} {how : Abrupt}
    (hitems : ∀ loop items, f = .itemBody loop items → how ≠ .continueOn) :
    (f.unwind how stack).Spares I := by
  unfold Frame.unwind
  split
  case h_5 => exact hI.nextFor
  case h_7 loop items => exact absurd rfl (hitems loop items rfl)
  case h_9 => exact hI.handle
  case h_10 => exact hI.finalize
  case h_11 => exact hI.finalize
  all_goals exact .pure trivial

end Frames

end Scopes.Sparing

/-! ## Threads -/

/-- The next step of a thread goes on to the next item of a loop. -/
def Thread.Visits (t : Thread) (loop : ItemLoop) : Prop :=
  (∃ v pos below, t.control = .ret v ∧ t.stack = .itemsOf loop pos :: below) ∨
    ∃ items below, t.stack = .itemBody loop items :: below ∧
      ((∃ v, t.control = .ret v) ∨ t.control = .leave .continueOn)

/-- In the next step of a thread no function that a statement declares and no `var` with a value
    takes something away. -/
structure Thread.Spares (I : Scopes → Prop) (w : World) (t : Thread) : Prop where
  hoist : ∀ ss scope, t.control = .statements ss scope → ∀ d, .functionDecl d ∈ ss →
    ∀ s f, I s → I (s.hoist scope d.name f)
  declare : ∀ v name pos scope below, t.control = .ret v →
    t.stack = .declare .function name pos scope :: below →
      I (w.heap.scopes.declareVar scope name (some v))
  items : ∀ loop, t.Visits loop → loop.kind = .function → ∀ v, I (loop.declareIn w.heap.scopes v)

/-- A step of a thread takes nothing away that neither a function declaration nor a `var` with a
    value takes away. -/
theorem Scopes.Sparing.step (hI : Sparing I) (ps : Promises) {t : Thread} {w : World}
    (hw : I w.heap.scopes) (ht : t.Spares I w) : I ((t.step ps).run w).2.heap.scopes := by
  obtain ⟨control, stack, base⟩ := t
  obtain ⟨hhoist, hdeclare, hitems⟩ := ht
  have hof {x : Effect Move} (h : x.Spares I) : I (x.run w).2.heap.scopes := (h w hw).1
  cases control with
  | program imports ss => exact hof hI.runProgram
  | statements ss scope =>
    exact hof (.bind (hoistFunctions (hhoist ss scope rfl)) fun _ _ => .pure trivial)
  | exec s scope => exact hof (hI.execStmt s)
  | eval e scope => exact hof (hI.evalExpr e)
  | invoke callee args pos => exact hof hI.invoke
  | enter f args receiver => exact hof (.bind Stable.checkDepth fun _ _ => hI.enterFunction)
  | bind params args body scope => exact hof hI.bindParams
  | initialise k => exact hof (.bind Stable.checkDepth fun _ _ => hI.initialise)
  | ret v =>
    cases stack with
    | nil => exact hw
    | cons f below =>
      cases f with
      | declare kind name pos scope =>
        have hkept :
            I (((Frame.declare kind name pos scope).receive ps v below).run w).2.heap.scopes :=
          hI.receive_declare hw fun hkind => by
            subst hkind
            exact hdeclare v name pos scope below rfl rfl
        exact hkept
      | itemsOf loop pos =>
        have hvar := hitems loop (.inl ⟨v, pos, below, rfl, rfl⟩)
        simp only [Thread.step, Thread.give, Frame.receive]
        cases Items.of? v with
        | none => exact hw
        | some items => exact hI.nextItem hw hvar
      | itemBody loop items =>
        exact hI.nextItem hw (hitems loop (.inr ⟨items, below, rfl, .inl ⟨v, rfl⟩⟩))
      | _ => exact hof (hI.receive (by simp) (by simp) (by simp))
  | leave how =>
    cases stack with
    | nil => cases how <;> exact hw
    | cons f below =>
      by_cases hnext : ∃ loop items, f = .itemBody loop items ∧ how = .continueOn
      · obtain ⟨loop, items, rfl, rfl⟩ := hnext
        exact hI.nextItem hw (hitems loop (.inr ⟨items, below, rfl, .inr rfl⟩))
      · exact hof (hI.unwind fun loop items hf hhow => hnext ⟨loop, items, hf, hhow⟩)
  | fail f => exact hw

end CoScript
