import CoScript.Module.HostFunction
import CoScript.Proofs.Tree.Positions

/-!
# Positions in the heap

The heap holds positions in the code of functions and in the fields of classes, and tasks hold them
in the faults and throws that ended them. Whatever is read off the heap other than code is the same
wherever these positions are.

Results:
* `Heap.mapPos`, `Promises.mapPos`: a heap and promises with their positions moved.
* `Heap.method?_mapPos`, `Heap.functionName_mapPos`: what classes and functions say of themselves.
* `Heap.render_mapPos`, `Heap.display_mapPos`: the text of a value does not depend on positions.
-/

namespace CoScript

/-! ## Faults and results -/

/-- A fault with its position moved. -/
def Fault.mapPos (f : Position → Position) (e : Fault) : Fault :=
  { e with pos := e.pos.map f }

/-- The state of a task with its position moved. -/
def TaskState.mapPos {ν : Type} (f : Position → Position) : TaskState ν → TaskState ν
  | .thrown v pos => .thrown v (pos.map f)
  | .failed e => .failed (e.mapPos f)
  | .pending => .pending
  | .fulfilled v => .fulfilled v

/-- Promises with their positions moved. -/
def Promises.mapPos (f : Position → Position) (ps : Promises) : Promises :=
  ⟨ps.count, fun id => (ps.state id).mapPos f⟩

/-! ## Cells -/

/-- A function of the script with its positions moved. -/
def Closure.mapPos (f : Position → Position) (c : Closure) : Closure :=
  { c with params := mapPosParams f c.params, body := c.body.mapPos f }

/-- A function with its positions moved. -/
def Function.mapPos (f : Position → Position) : Function → Function
  | .closure c => .closure (c.mapPos f)
  | .print => .print
  | .arrayMethod m r => .arrayMethod m r
  | .host name => .host name
  | .bound m r => .bound m r

/-- A class with its positions moved. -/
def Class.mapPos (f : Position → Position) (c : Class) : Class :=
  { c with fields := mapPosFields f c.fields }

/-- A heap with its positions moved. -/
def Heap.mapPos (f : Position → Position) (h : Heap) : Heap :=
  { h with classes := h.classes.map (·.mapPos f), functions := h.functions.map (·.mapPos f) }

/-- A change of one place commutes with a change of all. -/
theorem map_modify {α β : Type} {g : α → β} (xs : Array α) (i : Nat) (u : α → α) (u' : β → β)
    (hu : ∀ a, g (u a) = u' (g a)) : (xs.modify i u).map g = (xs.map g).modify i u' := by
  refine Array.ext (by simp) fun j hj hj' => ?_
  simp only [Array.getElem_map, Array.getElem_modify]
  split
  · exact hu _
  · rfl

namespace Heap

variable {f : Position → Position} (h : Heap)

/-! ### Reading -/

@[simp] theorem scopes_mapPos : (h.mapPos f).scopes = h.scopes := rfl

@[simp] theorem array_mapPos (r : Ref .array) : (h.mapPos f).array r = h.array r := rfl

@[simp] theorem instanceOf_mapPos (r : Ref .inst) : (h.mapPos f).instanceOf r = h.instanceOf r :=
  rfl

theorem cls_mapPos (r : Ref .cls) : (h.mapPos f).cls r = (h.cls r).mapPos f := by
  simp only [cls, mapPos, Array.getD_eq_getD_getElem?, Array.getElem?_map]
  cases h.classes[r.index]? <;> rfl

theorem function_mapPos (r : Ref .function) :
    (h.mapPos f).function r = (h.function r).mapPos f := by
  simp only [function, mapPos, Array.getD_eq_getD_getElem?, Array.getElem?_map]
  cases h.functions[r.index]? <;> rfl

theorem climbClasses_mapPos (n : Nat) (r : Ref .cls) :
    (h.mapPos f).climbClasses n r = h.climbClasses n r := by
  induction n generalizing r with
  | zero => rfl
  | succ n ih =>
    unfold climbClasses
    rw [cls_mapPos]
    simp only [Class.mapPos]
    cases (h.cls r).superclass with
    | none => rfl
    | some s => simp only [ih]

theorem classChain_mapPos (r : Ref .cls) : (h.mapPos f).classChain r = h.classChain r :=
  h.climbClasses_mapPos r.index r

theorem method?_mapPos (r : Ref .cls) (name : String) :
    (h.mapPos f).method? r name = h.method? r name := by
  unfold method?
  rw [classChain_mapPos]
  congr 1
  funext c
  rw [cls_mapPos]
  rfl

theorem functionName_mapPos (r : Ref .function) :
    (h.mapPos f).functionName r = h.functionName r := by
  unfold functionName
  rw [function_mapPos]
  cases h.function r with
  | bound m i =>
    simp only [Function.mapPos, function_mapPos]
    cases h.function m <;> rfl
  | _ => rfl

/-! ### Making and changing -/

theorem newClass_mapPos (c : Class) :
    (h.mapPos f).newClass (c.mapPos f) = ((h.newClass c).1, (h.newClass c).2.mapPos f) := by
  simp [newClass, mapPos]

theorem newFunction_mapPos (g : Function) :
    (h.mapPos f).newFunction (g.mapPos f) =
      ((h.newFunction g).1, (h.newFunction g).2.mapPos f) := by
  simp [newFunction, mapPos]

theorem changeAll_mapPos (changes : List HeapChange) :
    (h.changeAll changes).mapPos f = (h.mapPos f).changeAll changes := by
  unfold changeAll
  induction changes generalizing h with
  | nil => rfl
  | cons c changes ih =>
    rw [List.foldl_cons, List.foldl_cons, ih]
    cases c <;> rfl

theorem nameFunction_mapPos (v : Value) (name : String) :
    (h.nameFunction v name).mapPos f = (h.mapPos f).nameFunction v name := by
  cases v with
  | function r =>
    simp only [nameFunction, mapPos]
    congr 1
    exact map_modify _ _ _ _ fun g => by cases g <;> rfl
  | _ => rfl

theorem setMethods_mapPos (r : Ref .cls) (methods : Ordered (Ref .function)) :
    ({ h with classes := h.classes.modify r.index fun c => { c with methods } } : Heap).mapPos f =
      { h.mapPos f with
        classes := (h.mapPos f).classes.modify r.index fun c => { c with methods } } := by
  simp only [mapPos]
  congr 1
  exact map_modify _ _ _ _ fun c => rfl

/-! ### Texts -/

theorem renderMarking_mapPos (ps : Promises) (fuel : Nat) (nested : Bool) (v : Value) :
    (h.mapPos f).renderMarking (ps.mapPos f) fuel nested v = h.renderMarking ps fuel nested v := by
  induction fuel generalizing nested v with
  | zero => rfl
  | succ fuel ih =>
    cases v with
    | array r | object r => simp only [renderMarking, ih]; rfl
    | inst r => simp only [renderMarking, ih, cls_mapPos]; rfl
    | cls r => simp only [renderMarking, cls_mapPos]; rfl
    | promise id =>
      have hstate : (ps.mapPos f).state id = (ps.state id).mapPos f := rfl
      simp only [renderMarking, ih, hstate]
      cases ps.state id <;> rfl
    | function r => simp only [renderMarking, functionName_mapPos]
    | _ => rfl

/-- The text that shows a value does not depend on positions. -/
theorem render_mapPos (ps : Promises) (v : Value) (nested : Bool) :
    (h.mapPos f).render (ps.mapPos f) v nested = h.render ps v nested :=
  congrArg (fun m => (m.run []).1) (h.renderMarking_mapPos ps _ nested v)

theorem displayFrom_mapPos (ps : Promises) (fuel : Nat) (v : Value) :
    (h.mapPos f).displayFrom (ps.mapPos f) fuel v = h.displayFrom ps fuel v := by
  induction fuel generalizing v with
  | zero => rfl
  | succ fuel ih =>
    cases v with
    | array r => simp only [displayFrom, ih]; rfl
    | object r => rfl
    | inst r => rfl
    | _ => exact h.render_mapPos ps _ false

/-- The text that a value adds to a string does not depend on positions. -/
theorem display_mapPos (ps : Promises) (v : Value) :
    (h.mapPos f).display (ps.mapPos f) v = h.display ps v :=
  h.displayFrom_mapPos ps _ v

theorem joinItems_mapPos (ps : Promises) (separator : String) (items : Array Value) :
    (h.mapPos f).joinItems (ps.mapPos f) separator items = h.joinItems ps separator items := by
  simp only [joinItems, display_mapPos]

end Heap

end CoScript
