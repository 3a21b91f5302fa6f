import CoScript.Proofs.Eval.Stable
import CoScript.Proofs.Try.Runs

/-!
# How a `try` statement comes to its end

A `try` statement runs its first block. If that block throws and there is a handler, the handler
runs. Then the finalizer runs, if there is one, whatever happened so far; only a fault, or a thread
that gives up, stops the statement where it is. The statement ends as its finalizer does if that is
left by a jump, and otherwise as what ran before.

Each block runs in a scope of its own, and the scope of a handler binds the thrown value. A block
may wait, start tasks, and contain `try` statements of its own.

Results:
* `BlockRuns`, `FinallyRuns`, `CatchRuns`, `TryRuns`: the runs of a `try` statement, block by block.
* `runs_tryStmt`: the runs of a `try` statement are these.
-/

namespace CoScript

open Effect

/-! ## Specification -/

/-- The scope of a block: inside another, with at most one name. -/
def blockScope (scope : Ref .scope) (bound : Option (String × Value)) : Scope :=
  ⟨some scope, false, ⟨bound.toList.map fun b => (b.1, ⟨b.2, false⟩)⟩⟩

/-- What a part of a program hands on when it is left: `undefined` at its end, or a jump. -/
def leaving : Option Abrupt → Control
  | none => .ret .undefined
  | some how => .leave how

namespace Moment

/-- The first moment of a block. Its scope is added behind all others. -/
def entering (m : Moment) (b : Block) (scope : Ref .scope) (bound : Option (String × Value))
    (stack : List Frame) : Moment :=
  let cells := m.world.heap.scopes.cells
  ⟨{ m.world with heap := { m.world.heap with scopes := ⟨cells.push (blockScope scope bound)⟩ } },
    { m.thread with control := .statements b.statements ⟨cells.size⟩, stack }⟩

/-- The moment at which a statement is left. -/
def left (m : Moment) (how : Option Abrupt) (below : List Frame) : Moment :=
  ⟨m.world, { m.thread with control := leaving how, stack := below }⟩

end Moment

/-- A block is entered and runs; what follows depends on how it is left. Nothing follows if the
    thread is stopped inside. -/
def BlockRuns (b : Block) (scope : Ref .scope) (bound : Option (String × Value))
    (inner : List Frame) (next : Option Abrupt → Moment → List Moment → RunEnd → Prop)
    (m : Moment) : List Moment → RunEnd → Prop :=
  After m (Leads inner (m.entering b scope bound inner) next)

/-- A statement is left. -/
def EndsAs (below : List Frame) (how : Option Abrupt) (m : Moment) :
    List Moment → RunEnd → Prop :=
  After m (Over (m.left how below))

/-- A statement is about to be left: first its finalizer runs, if it has one. A jump out of the
    finalizer takes the place of what is pending. -/
def FinallyRuns (finalizer : Option Block) (scope : Ref .scope) (below : List Frame)
    (pending : Option Abrupt) : Moment → List Moment → RunEnd → Prop :=
  match finalizer with
  | none => EndsAs below pending
  | some b => BlockRuns b scope none (.finalizerBody pending :: below) fun own =>
    EndsAs below (own.or pending)

/-- The first block of a statement is left: a handler takes what it throws. -/
def CatchRuns (name : Option String) (handler finalizer : Option Block) (scope : Ref .scope)
    (below : List Frame) (how : Option Abrupt) : Moment → List Moment → RunEnd → Prop :=
  match handler, how with
  | some b, some (.thrown v _) =>
    BlockRuns b scope (name.map (·, v)) (.handlerBody finalizer scope :: below)
      (FinallyRuns finalizer scope below)
  | _, how => FinallyRuns finalizer scope below how

/-- The runs of a `try` statement. -/
def TryRuns (body : Block) (name : Option String) (handler finalizer : Option Block)
    (scope : Ref .scope) (below : List Frame) : Moment → List Moment → RunEnd → Prop :=
  BlockRuns body scope none (.tryBody name handler finalizer scope :: below)
    (CatchRuns name handler finalizer scope below)

/-! ## Entering blocks -/

theorem run_bind_ok {α β : Type} {x : Effect α} {a : α} {w w' : World}
    (h : x.run w = (.ok a, w')) (f : α → Effect β) : (x >>= f).run w = (f a).run w' := by
  rw [Effect.run_bind, h]

theorem run_bind_error {α β : Type} {x : Effect α} {e : Halt} {w w' : World}
    (h : x.run w = (.error e, w')) (f : α → Effect β) : (x >>= f).run w = (.error e, w') := by
  rw [Effect.run_bind, h]

section Scopes

variable (s : Scopes) (c : Scope)

theorem get_push_size : (⟨s.cells.push c⟩ : Scopes).get ⟨s.cells.size⟩ = c := by
  simp [Scopes.get]

/-- The last scope takes another name. -/
theorem bind_push_size (name : String) (b : Binding) :
    (⟨s.cells.push c⟩ : Scopes).bind ⟨s.cells.size⟩ name b =
      ⟨s.cells.push { c with bindings := c.bindings.set name b }⟩ := by
  unfold Scopes.bind Scopes.modify
  congr 1
  refine Array.ext (by simp) fun i hi hi' => ?_
  simp only [Array.getElem_modify, Array.getElem_push]
  split
  · simp_all
  · have hi : i < s.cells.size := by simp at hi; omega
    simp only [dif_pos hi]

end Scopes

theorem run_define (w : World) {r : Ref .scope} {name : String} (v : Value) (isConst : Bool)
    (pos : Option Position) (h : w.heap.scopes.defineFault? r name = none) :
    (Effect.define r name v isConst pos).run w =
      (.ok (), { w with heap :=
        { w.heap with scopes := w.heap.scopes.bind r name ⟨v, isConst⟩ } }) := by
  unfold Effect.define
  rw [run_heap_bind, h]
  rfl

variable {ps : Promises} {scope : Ref .scope} {below : List Frame} {m : Moment}

/-- The scope of a handler is new, so it takes the name of the thrown value. -/
theorem run_handle (name : Option String) (b : Block) (v : Value) (finalizer : Option Block) :
    (handle name b v finalizer scope below).run m.world =
      (.ok (.go (m.entering b scope (name.map (·, v))
          (.handlerBody finalizer scope :: below)).thread.control
          (.handlerBody finalizer scope :: below)),
        (m.entering b scope (name.map (·, v)) (.handlerBody finalizer scope :: below)).world) := by
  cases name with
  | none => rfl
  | some n =>
    obtain ⟨w, t⟩ := m
    have hfault : (⟨w.heap.scopes.cells.push (blockScope scope none)⟩ : Scopes).defineFault?
        ⟨w.heap.scopes.cells.size⟩ n = none := by
      unfold Scopes.defineFault?
      rw [get_push_size]
      rfl
    have hdefine := run_define { w with heap := { w.heap with scopes :=
      ⟨w.heap.scopes.cells.push (blockScope scope none)⟩ } } v false none hfault
    simp only [bind_push_size] at hdefine
    exact run_bind_ok hdefine _

/-! ## The runs of a `try` statement -/

variable {w : World} {base : Nat} {ms : List Moment} {e : RunEnd}

theorem above_frame (f : Frame) : below <:+ f :: below :=
  List.suffix_cons f below

theorem frame_ne (f : Frame) : f :: below ≠ below := by
  simp

/-- A thread that enters a block runs it. -/
theorem runs_of_enters {b : Block} {bound : Option (String × Value)} {f : Frame}
    {next : Option Abrupt → Moment → List Moment → RunEnd → Prop} (hm : m.Open below)
    (hgo : ∀ ps, (m.thread.step ps).run m.world =
      (.ok (.go (m.entering b scope bound (f :: below)).thread.control (f :: below)),
        (m.entering b scope bound (f :: below)).world))
    (hnext : ∀ how m' ms e, m'.Ended (f :: below) how →
      (Runs below m' ms e ↔ next how m' ms e)) :
    Runs below m ms e ↔ BlockRuns b scope bound (f :: below) next m ms e := by
  refine (runs_of_go hgo hm).trans (After.congr fun ms e => ?_)
  exact (runs_iff_leads (above_frame f) (frame_ne f) List.suffix_rfl).trans (Leads.congr hnext)

/-- A thread that leaves a statement has come to its end. -/
theorem runs_of_leaves {how : Option Abrupt} (hm : m.Open below)
    (hgo : ∀ ps, (m.thread.step ps).run m.world = (.ok (.go (leaving how) below), m.world)) :
    Runs below m ms e ↔ EndsAs below how m ms e := by
  refine (runs_of_go hgo hm).trans (After.congr fun ms e => ?_)
  cases how with
  | none => exact runs_of_ended (.normal ..)
  | some how => exact runs_of_ended (.abrupt ..)

theorem open_of_ended {f : Frame} {how : Option Abrupt} (h : m.Ended (f :: below) how) :
    m.Open below :=
  Moment.open_of_above (above_frame f) (frame_ne f) (h.stack ▸ List.suffix_rfl)

/-- The end of a finalizer. -/
theorem runs_finalizerBody {pending own : Option Abrupt}
    (h : m.Ended (.finalizerBody pending :: below) own) :
    Runs below m ms e ↔ EndsAs below (own.or pending) m ms e := by
  refine runs_of_leaves (open_of_ended h) fun ps => ?_
  cases h with
  | normal w v base => cases pending <;> rfl
  | abrupt w how base => cases how <;> rfl

/-- Before a statement is left, its finalizer runs. -/
theorem runs_finalize {finalizer : Option Block} {pending : Option Abrupt} (hm : m.Open below)
    (hstep : ∀ ps, (m.thread.step ps).run m.world =
      (finalize pending finalizer scope below).run m.world) :
    Runs below m ms e ↔ FinallyRuns finalizer scope below pending m ms e := by
  cases finalizer with
  | none =>
    refine runs_of_leaves hm fun ps => ?_
    rw [hstep]
    cases pending <;> rfl
  | some b =>
    refine runs_of_enters hm (fun ps => ?_) fun own m' ms e h => runs_finalizerBody h
    rw [hstep]
    rfl

/-- The end of a handler. -/
theorem runs_handlerBody {finalizer : Option Block} {how : Option Abrupt}
    (h : m.Ended (.handlerBody finalizer scope :: below) how) :
    Runs below m ms e ↔ FinallyRuns finalizer scope below how m ms e := by
  refine runs_finalize (open_of_ended h) fun ps => ?_
  cases h with
  | normal w v base => rfl
  | abrupt w how base => cases how <;> rfl

/-- The end of the first block. -/
theorem runs_tryBody {name : Option String} {handler finalizer : Option Block}
    {how : Option Abrupt} (h : m.Ended (.tryBody name handler finalizer scope :: below) how) :
    Runs below m ms e ↔ CatchRuns name handler finalizer scope below how m ms e := by
  have hfinal (hstep : ∀ ps, (m.thread.step ps).run m.world =
      (finalize how finalizer scope below).run m.world) :
      Runs below m ms e ↔ FinallyRuns finalizer scope below how m ms e :=
    runs_finalize (open_of_ended h) hstep
  have hm := open_of_ended h
  cases h with
  | normal w v base =>
    have hcatch : CatchRuns name handler finalizer scope below none =
        FinallyRuns finalizer scope below none := by cases handler <;> rfl
    rw [hcatch]
    exact hfinal fun ps => rfl
  | abrupt w how base =>
    cases handler with
    | none => exact hfinal fun ps => by cases how <;> rfl
    | some b =>
      cases how with
      | thrown v pos =>
        exact runs_of_enters hm (fun ps => run_handle name b v finalizer)
          fun how m' ms e h => runs_handlerBody h
      | _ => exact hfinal fun ps => rfl

/-- The runs of a `try` statement, whatever its blocks do and whatever they wait for, are those of
    its first block, then of its handler if that block throws, then of its finalizer, each in a new
    scope. A fault ends the run where it happens, as the fault that it is. -/
theorem runs_tryStmt (pos : Position) (body : Block) (name : Option String)
    (handler finalizer : Option Block) (scope : Ref .scope) (below : List Frame) (base : Nat)
    (w : World) (ms : List Moment) (e : RunEnd) :
    Runs below ⟨w, ⟨.exec (.tryStmt pos body name handler finalizer) scope, below, base⟩⟩ ms e ↔
      TryRuns body name handler finalizer scope below
        ⟨w, ⟨.exec (.tryStmt pos body name handler finalizer) scope, below, base⟩⟩ ms e :=
  runs_of_enters (Moment.open_of_control rfl) (fun _ => rfl) fun _ _ _ _ h => runs_tryBody h

end CoScript
