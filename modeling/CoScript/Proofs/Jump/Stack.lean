import CoScript.Eval.Frame
import CoScript.Proofs.Jump.Confined

/-!
# Jumps on a stack

A jump runs down the stack through the frames of statements until one catches it: a loop, a switch
or the end of a call. Frames that wait for the value of an expression let no jump through.

Results:
* `Caught`: a jump that is caught on a stack.
* `Thread.Confined`: whatever a thread is about to do leads to jumps that are caught.
* `Thread.Confined.caught`: a jump of a confined thread is caught.
-/

namespace CoScript

/-! ## Frames that catch jumps -/

/-- Whether a frame is that of a statement in progress, through which jumps pass. -/
def Frame.isStatement : Frame → Bool
  | .sequence .. | .forBody .. | .whileBody .. | .itemBody .. | .switchBody .. | .tryBody ..
  | .handlerBody .. | .finalizerBody .. => true
  | _ => false

/-- Whether a frame catches a jump. -/
def Frame.catches : Frame → Abrupt → Bool
  | .forBody .., .breakOut | .whileBody .., .breakOut | .itemBody .., .breakOut
  | .switchBody .., .breakOut => true
  | .forBody .., .continueOn | .whileBody .., .continueOn | .itemBody .., .continueOn => true
  | .call, .returned _ => true
  | _, _ => false

/-- A jump is caught by a frame of a stack, and only statements stand above that frame. -/
def Caught (how : Abrupt) (stack : List Frame) : Prop :=
  ∃ inner f outer, stack = inner ++ f :: outer ∧ (∀ g ∈ inner, g.isStatement = true) ∧
    f.catches how = true

/-- The jumps that are caught below a frame, as seen from above it. -/
def Frame.jumps (below : Jumps) : Frame → Jumps
  | .forBody .. | .whileBody .. | .itemBody .. => below.inLoop
  | .switchBody .. => below.inSwitch
  | .sequence .. | .tryBody .. | .handlerBody .. | .finalizerBody .. => below
  | .call => .ofFunction
  | _ => .none

/-- The jumps that are caught on a stack. -/
def jumpsOn : List Frame → Jumps
  | [] => .none
  | f :: below => f.jumps (jumpsOn below)

/-- Whether a jump is among those that are caught; a throw may leave everything. -/
def Abrupt.Confined (j : Jumps) : Abrupt → Prop
  | .breakOut => j.canBreak
  | .continueOn => j.canContinue
  | .returned _ => j.canReturn
  | .thrown .. => True

theorem caught_cons {f : Frame} {how : Abrupt} {stack : List Frame} (hf : f.isStatement = true)
    (h : Caught how stack) : Caught how (f :: stack) := by
  obtain ⟨inner, g, outer, rfl, hinner, hg⟩ := h
  refine ⟨f :: inner, g, outer, rfl, fun x hx => ?_, hg⟩
  obtain rfl | hx := List.mem_cons.mp hx
  · exact hf
  · exact hinner x hx

theorem caught_of_catches {f : Frame} {how : Abrupt} {stack : List Frame}
    (hf : f.catches how = true) : Caught how (f :: stack) :=
  ⟨[], f, stack, rfl, by simp, hf⟩

/-- A jump that a frame does not catch passes it as the frame of a statement. -/
theorem passes_of_not_catches {f : Frame} {how : Abrupt} {below : List Frame}
    (hf : ¬ f.catches how = true) (h : how.Confined (jumpsOn (f :: below)))
    (ht : ∀ v pos, how ≠ .thrown v pos) :
    f.isStatement = true ∧ how.Confined (jumpsOn below) := by
  cases how with
  | thrown v pos => exact absurd rfl (ht v pos)
  | _ =>
    cases f <;>
      first
        | exact absurd rfl hf
        | exact ⟨rfl, h⟩
        | simp [Abrupt.Confined, jumpsOn, Frame.jumps, Jumps.none, Jumps.ofFunction] at h

/-- The jumps on a stack are those that are caught there. -/
theorem caught_of_confined {how : Abrupt} {stack : List Frame}
    (h : how.Confined (jumpsOn stack)) (ht : ∀ v pos, how ≠ .thrown v pos) : Caught how stack := by
  induction stack with
  | nil =>
    cases how with
    | thrown v pos => exact absurd rfl (ht v pos)
    | _ => simp [Abrupt.Confined, jumpsOn, Jumps.none] at h
  | cons f below ih =>
    by_cases hf : f.catches how = true
    · exact caught_of_catches hf
    · obtain ⟨hs, hbelow⟩ := passes_of_not_catches hf h ht
      exact caught_cons hs (ih hbelow)

/-! ## Confined threads -/

/-- The parts of a loop are confined in what surrounds the loop. -/
def ForLoop.Confined (j : Jumps) (loop : ForLoop) : Prop :=
  OptionConfined loop.condition ∧ OptionConfined loop.update ∧ loop.body.Confined j.inLoop

@[inherit_doc ForLoop.Confined]
def ItemLoop.Confined (j : Jumps) (loop : ItemLoop) : Prop :=
  loop.body.Confined j.inLoop

/-- The value to assign is confined. -/
def PlaceUse.Confined : PlaceUse → Prop
  | .assign _ value _ => value.Confined
  | .update .. => True

/-- A function is confined: whatever surrounds it, its own jumps are caught inside. -/
def Closure.Confined (c : Closure) : Prop :=
  ParamsConfined c.params ∧ c.body.Confined

/-- The fields to initialise are confined. -/
def Construction.Confined (k : Construction) : Prop :=
  ∀ f ∈ k.fields, f.field.Confined

/-- A body starts here: the frame on top is that of its call. -/
def StartsBody (stack : List Frame) : Prop :=
  ∃ below, stack = .call :: below

theorem StartsBody.jumpsOn_eq {stack : List Frame} (h : StartsBody stack) :
    jumpsOn stack = .ofFunction := by
  obtain ⟨below, rfl⟩ := h
  rfl

/-- What a thread is about to do is confined: its jumps are caught on the stack. The body of a
    function starts right above the frame of its call. -/
def Control.Confined (stack : List Frame) : Control → Prop
  | .program _ ss | .statements ss _ => StmtsConfined ss (jumpsOn stack)
  | .exec s _ => s.Confined (jumpsOn stack)
  | .eval e _ => e.Confined
  | .enter f _ _ => f.Confined ∧ StartsBody stack
  | .bind params _ body _ => ParamsConfined params ∧ body.Confined ∧ StartsBody stack
  | .initialise k => k.Confined
  | .leave how => how.Confined (jumpsOn stack)
  | .invoke .. | .ret _ | .fail _ => True

/-- What a frame goes on with is confined: its jumps are caught on the stack below. -/
def Frame.Confined (below : List Frame) : Frame → Prop
  | .sequence rest _ => StmtsConfined rest (jumpsOn below)
  | .branch thenBranch elseBranch _ =>
    thenBranch.Confined (jumpsOn below) ∧ StmtOptionConfined elseBranch (jumpsOn below)
  | .forStart loop _ | .forTest loop _ | .forBody loop _ | .forUpdate loop _ =>
    loop.Confined (jumpsOn below)
  | .whileTest condition body _ | .whileBody condition body _ =>
    condition.Confined ∧ body.Confined (jumpsOn below).inLoop
  | .itemsOf loop _ | .itemBody loop _ => loop.Confined (jumpsOn below)
  | .switchOn cases _ => CasesConfined cases (jumpsOn below).inSwitch
  | .switchTest _ todo all _ =>
    CasesConfined todo (jumpsOn below).inSwitch ∧ CasesConfined all (jumpsOn below).inSwitch
  | .switchBody rest _ => CasesConfined rest (jumpsOn below).inSwitch
  | .giveBack => (jumpsOn below).canReturn
  | .tryBody _ handler finalizer _ =>
    BlockOptionConfined handler (jumpsOn below) ∧ BlockOptionConfined finalizer (jumpsOn below)
  | .handlerBody finalizer _ => BlockOptionConfined finalizer (jumpsOn below)
  | .finalizerBody pending => ∀ how ∈ pending, how.Confined (jumpsOn below)
  | .binaryRight _ right _ _ => right.Confined
  | .choose thenValue elseValue _ => thenValue.Confined ∧ elseValue.Confined
  | .indexKey key _ _ => key.Confined
  | .placeMember _ _ use _ | .placeElement _ _ use _ => use.Confined
  | .placeKey key _ use _ => key.Confined ∧ use.Confined
  | .property _ _ rest _ => PropertiesConfined rest
  | .calleeOf args .. | .methodOf _ _ args .. | .classOf args .. | .collect _ _ args _ =>
    ExprsConfined args
  | .parameter _ rest _ body _ => ParamsConfined rest ∧ body.Confined ∧ StartsBody below
  | .fieldValue _ k => k.Confined
  | .discard | .declare .. | .throwIt _ | .binaryApply .. | .unaryApply .. | .memberOf ..
  | .indexApply .. | .write _ | .combine .. | .awaiting | .call | .constructed _ | .superDone =>
    True

/-- Each frame of a stack is confined in what is below it. -/
def StackConfined : List Frame → Prop
  | [] => True
  | f :: below => f.Confined below ∧ StackConfined below

/-- A thread is confined: each jump that it may come to is caught on its stack. -/
structure Thread.Confined (t : Thread) : Prop where
  control : t.control.Confined t.stack
  stack : StackConfined t.stack

/-- What a thread goes on with after a step is confined. -/
def Move.Confined : Move → Prop
  | .go control stack => control.Confined stack ∧ StackConfined stack
  | .await _ stack => StackConfined stack
  | .spawn _ child stack => child.Confined [.call] ∧ StackConfined stack
  | .finish _ | .throw .. => True

/-- A jump of a confined thread is caught on its stack. -/
theorem Thread.Confined.caught {t : Thread} (h : t.Confined) {how : Abrupt}
    (hc : t.control = .leave how) (ht : ∀ v pos, how ≠ .thrown v pos) : Caught how t.stack := by
  have hhow := h.control
  rw [hc] at hhow
  exact caught_of_confined hhow ht

/-! ## Confined heaps -/

/-- A function in the heap is confined. -/
def Function.Confined : Function → Prop
  | .closure c => c.Confined
  | .print | .arrayMethod .. | .host _ | .bound .. => True

/-- All functions and all fields of classes in the heap are confined. -/
structure Heap.Confined (h : Heap) : Prop where
  functions : ∀ f ∈ h.functions, f.Confined
  classes : ∀ c ∈ h.classes, FieldsConfined c.fields

namespace Heap.Confined

variable {h : Heap}

theorem function (hh : h.Confined) (r : Ref .function) : (h.function r).Confined := by
  unfold Heap.function
  rw [Array.getD_eq_getD_getElem?]
  cases hr : h.functions[r.index]? with
  | none => trivial
  | some f => exact hh.functions f (Array.mem_of_getElem? hr)

theorem fields (hh : h.Confined) (r : Ref .cls) : FieldsConfined (h.cls r).fields := by
  unfold Heap.cls
  rw [Array.getD_eq_getD_getElem?]
  cases hr : h.classes[r.index]? with
  | none => trivial
  | some c => exact hh.classes c (Array.mem_of_getElem? hr)

theorem newFunction (hh : h.Confined) {f : Function} (hf : f.Confined) :
    (h.newFunction f).2.Confined := by
  refine ⟨fun g hg => ?_, hh.classes⟩
  obtain hg | rfl := Array.mem_push.mp hg
  · exact hh.functions g hg
  · exact hf

theorem newClass (hh : h.Confined) {c : Class} (hc : FieldsConfined c.fields) :
    (h.newClass c).2.Confined := by
  refine ⟨hh.functions, fun d hd => ?_⟩
  obtain hd | rfl := Array.mem_push.mp hd
  · exact hh.classes d hd
  · exact hc

theorem nameFunction (hh : h.Confined) (v : Value) (name : String) :
    (h.nameFunction v name).Confined := by
  unfold Heap.nameFunction
  split
  · refine ⟨fun f hf => ?_, hh.classes⟩
    obtain ⟨i, hi⟩ := Array.getElem?_of_mem hf
    rw [Array.getElem?_modify] at hi
    split at hi
    · obtain ⟨g, hg, rfl⟩ := Option.map_eq_some_iff.mp hi
      have := hh.functions g (Array.mem_of_getElem? hg)
      split
      · exact this
      · exact this
    · exact hh.functions f (Array.mem_of_getElem? hi)
  · exact hh

end Heap.Confined

end CoScript
