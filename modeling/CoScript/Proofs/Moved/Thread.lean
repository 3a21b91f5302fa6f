import CoScript.Eval.Script
import CoScript.Proofs.Moved.Heap

/-!
# Positions in threads

A thread holds positions in the code that it still has to run, in the frames that have something to
say of a place in the source, and in the throws that are under way.

Results:
* `Control.mapPos`, `Frame.mapPos`, `Thread.mapPos`: a thread with its positions moved.
* `Move.mapPos`: what a thread does, with its positions moved.
* `Thread.depth_mapPos`: calls nest as deep as before.
-/

namespace CoScript

variable (f : Position → Position)

/-- A way to leave a statement with the position of its throw moved. -/
def Abrupt.mapPos : Abrupt → Abrupt
  | .thrown v pos => .thrown v (pos.map f)
  | .breakOut => .breakOut
  | .continueOn => .continueOn
  | .returned v => .returned v

/-- A place with its position moved. -/
def Place.mapPos : Place → Place
  | .variable name scope pos => .variable name scope (f pos)
  | .member object attr pos => .member object attr (f pos)
  | .element object key pos => .element object key (f pos)

/-- What is done to a place, with its positions moved. -/
def PlaceUse.mapPos : PlaceUse → PlaceUse
  | .assign op value pos => .assign op (value.mapPos f) (f pos)
  | .update op before pos => .update op before (f pos)

/-- A purpose with its position moved. -/
def Purpose.mapPos : Purpose → Purpose
  | .call callee receiver what pos => .call callee receiver what (f pos)
  | .construct cls what pos => .construct cls what (f pos)
  | .superCall cls receiver => .superCall cls receiver
  | .array => .array

/-- A loop with its positions moved. -/
def ForLoop.mapPos (l : ForLoop) : ForLoop :=
  ⟨mapPosOption f l.condition, mapPosOption f l.update, l.body.mapPos f⟩

@[inherit_doc ForLoop.mapPos]
def ItemLoop.mapPos (l : ItemLoop) : ItemLoop :=
  { l with body := l.body.mapPos f }

/-- A field under construction with its positions moved. -/
def PendingField.mapPos (p : PendingField) : PendingField :=
  { p with field := p.field.mapPos f }

/-- An instance under construction with its positions moved. -/
def Construction.mapPos (k : Construction) : Construction :=
  { k with fields := k.fields.map (·.mapPos f) }

/-- What a thread does, with its positions moved. -/
def Control.mapPos : Control → Control
  | .program imports ss => .program (imports.map (·.mapPos f)) (mapPosStmts f ss)
  | .statements ss scope => .statements (mapPosStmts f ss) scope
  | .exec s scope => .exec (s.mapPos f) scope
  | .eval e scope => .eval (e.mapPos f) scope
  | .invoke callee args pos => .invoke callee args (f pos)
  | .enter c args receiver => .enter (c.mapPos f) args receiver
  | .bind params args body scope => .bind (mapPosParams f params) args (body.mapPos f) scope
  | .initialise k => .initialise (k.mapPos f)
  | .ret v => .ret v
  | .leave how => .leave (how.mapPos f)
  | .fail e => .fail (e.mapPos f)

/-- A frame with its positions moved. -/
def Frame.mapPos : Frame → Frame
  | .sequence rest scope => .sequence (mapPosStmts f rest) scope
  | .discard => .discard
  | .declare kind name pos scope => .declare kind name (f pos) scope
  | .branch thenBranch elseBranch scope =>
    .branch (thenBranch.mapPos f) (mapPosStmtOption f elseBranch) scope
  | .forStart loop scope => .forStart (loop.mapPos f) scope
  | .forTest loop scope => .forTest (loop.mapPos f) scope
  | .forBody loop scope => .forBody (loop.mapPos f) scope
  | .forUpdate loop scope => .forUpdate (loop.mapPos f) scope
  | .whileTest condition body scope => .whileTest (condition.mapPos f) (body.mapPos f) scope
  | .whileBody condition body scope => .whileBody (condition.mapPos f) (body.mapPos f) scope
  | .itemsOf loop pos => .itemsOf (loop.mapPos f) (f pos)
  | .itemBody loop items => .itemBody (loop.mapPos f) items
  | .switchOn cases scope => .switchOn (mapPosCases f cases) scope
  | .switchTest value todo all scope =>
    .switchTest value (mapPosCases f todo) (mapPosCases f all) scope
  | .switchBody rest scope => .switchBody (mapPosCases f rest) scope
  | .giveBack => .giveBack
  | .throwIt pos => .throwIt (f pos)
  | .tryBody name handler finalizer scope =>
    .tryBody name (mapPosBlockOption f handler) (mapPosBlockOption f finalizer) scope
  | .handlerBody finalizer scope => .handlerBody (mapPosBlockOption f finalizer) scope
  | .finalizerBody pending => .finalizerBody (pending.map (·.mapPos f))
  | .binaryRight op right pos scope => .binaryRight op (right.mapPos f) (f pos) scope
  | .binaryApply op left pos => .binaryApply op left (f pos)
  | .unaryApply op pos => .unaryApply op (f pos)
  | .choose thenValue elseValue scope =>
    .choose (thenValue.mapPos f) (elseValue.mapPos f) scope
  | .memberOf attr pos => .memberOf attr (f pos)
  | .indexKey key pos scope => .indexKey (key.mapPos f) (f pos) scope
  | .indexApply object pos => .indexApply object (f pos)
  | .placeMember attr pos use scope => .placeMember attr (f pos) (use.mapPos f) scope
  | .placeKey key pos use scope => .placeKey (key.mapPos f) (f pos) (use.mapPos f) scope
  | .placeElement object pos use scope => .placeElement object (f pos) (use.mapPos f) scope
  | .write place => .write (place.mapPos f)
  | .combine place op old pos => .combine (place.mapPos f) op old (f pos)
  | .property done key rest scope => .property done key (mapPosProperties f rest) scope
  | .awaiting => .awaiting
  | .calleeOf args what pos scope => .calleeOf (mapPosExprs f args) what (f pos) scope
  | .methodOf attr attrPos args what pos scope =>
    .methodOf attr (f attrPos) (mapPosExprs f args) what (f pos) scope
  | .classOf args what pos scope => .classOf (mapPosExprs f args) what (f pos) scope
  | .collect purpose done rest scope => .collect (purpose.mapPos f) done (mapPosExprs f rest) scope
  | .call => .call
  | .parameter name rest args body scope =>
    .parameter name (mapPosParams f rest) args (body.mapPos f) scope
  | .fieldValue name k => .fieldValue name (k.mapPos f)
  | .constructed target => .constructed target
  | .superDone => .superDone

/-- Frames with their positions moved. -/
def mapPosFrames : List Frame → List Frame :=
  List.map (·.mapPos f)

/-- A thread with its positions moved. -/
def Thread.mapPos (t : Thread) : Thread :=
  ⟨t.control.mapPos f, mapPosFrames f t.stack, t.base⟩

/-- What a thread does in one step, with its positions moved. -/
def Move.mapPos : Move → Move
  | .go control stack => .go (control.mapPos f) (mapPosFrames f stack)
  | .await v stack => .await v (mapPosFrames f stack)
  | .spawn name child stack => .spawn name (child.mapPos f) (mapPosFrames f stack)
  | .finish v => .finish v
  | .throw v pos => .throw v (pos.map f)

theorem Frame.nests_mapPos (g : Frame) : (g.mapPos f).nests = g.nests := by
  cases g <;> rfl

/-- Calls nest as deep as before. -/
theorem Thread.depth_mapPos (t : Thread) : (t.mapPos f).depth = t.depth := by
  simp only [depth, mapPos, mapPosFrames, List.countP_map]
  congr 2
  exact funext fun g => g.nests_mapPos f

end CoScript
