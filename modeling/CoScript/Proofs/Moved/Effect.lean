import CoScript.Eval.Script
import CoScript.Proofs.Moved.Heap

/-!
# Computations that look at no position

Two computations are alike up to positions if they do the same in worlds that are alike: they end in
worlds that are alike, with results of which one is the other with its positions moved. The logs may
differ, since faults are logged with their positions, and nothing reads a log. What the host adds
must not look at positions either: a function of the host could look at the code of the functions
that it gets.

Results:
* `HostFunction.Blind`: a function of the host that looks at no position.
* `World.Alike`: two worlds that differ in positions and in their logs alone.
* `Effect.Moves`: two computations that do the same up to positions.
* `Effect.Moves.bind`, `Effect.Moves.heap`, ...: a rule for each operation.
-/

namespace CoScript

variable {f : Position → Position}

/-! ## Worlds -/

/-- A halt with its position moved. -/
def Halt.mapPos (f : Position → Position) : Halt → Halt
  | .fault e => .fault (e.mapPos f)
  | .aborted cause => .aborted cause

/-- A result with its positions moved, those of an error by `r` and those of a value by `g`. -/
def moveResult {ε α β : Type} (r : ε → ε) (g : α → β) : Except ε α → Except ε β
  | .ok a => .ok (g a)
  | .error e => .error (r e)

/-- What a function of the host sees, with its positions moved. -/
def HostCall.mapPos (f : Position → Position) (c : HostCall) : HostCall :=
  { c with heap := c.heap.mapPos f, promises := c.promises.mapPos f }

/-- What a function of the host does, with the position of its fault moved. -/
def HostAnswer.mapPos (f : Position → Position) (a : HostAnswer) : HostAnswer :=
  { a with result := moveResult (Halt.mapPos f) id a.result }

/-- A function of the host with the positions of its faults moved. -/
def HostFunction.mapPos (f : Position → Position) (g : HostFunction) : HostFunction :=
  fun c => (g c).mapPos f

/-- A function of the host looks at no position: it does the same wherever the code in the heap
    stands, and wherever tasks failed. -/
def HostFunction.Blind (g : HostFunction) : Prop :=
  ∀ (f : Position → Position) (c : HostCall), g (c.mapPos f) = g c

/-- A world with its positions moved. -/
def World.mapPos (f : Position → Position) (w : World) : World :=
  { w with heap := w.heap.mapPos f, host := w.host.mapWithKey fun _ g => g.mapPos f }

/-- The functions of the host look at no position, and the second world is the first one with its
    positions moved, whatever is logged. -/
def World.Alike (f : Position → Position) (w w' : World) : Prop :=
  w.host.All HostFunction.Blind ∧ ∃ log, w' = { w.mapPos f with log }

/-- A halt gets the position of a call where it has none. -/
theorem Halt.orAt_mapPos (why : Halt) (pos : Position) :
    (why.orAt pos).mapPos f = (why.mapPos f).orAt (f pos) := by
  obtain ⟨cause, at?, task⟩ | cause := why
  · cases at? <;> rfl
  · rfl

/-- It does not matter what is logged. -/
theorem World.Alike.record {w w' : World} (hw : w.Alike f w') (level : Level) (source : LogSource)
    (message message' : String) :
    (w.record level source message).Alike f (w'.record level source message') := by
  obtain ⟨hhost, log, rfl⟩ := hw
  exact ⟨hhost, _, rfl⟩

/-- What a function of the host did has the same effect. -/
theorem World.Alike.after {w w' : World} (hw : w.Alike f w') (answer : HostAnswer) :
    (w.after answer).Alike f (w'.after (answer.mapPos f)) := by
  obtain ⟨hhost, log, rfl⟩ := hw
  refine ⟨hhost, log, ?_⟩
  simp only [World.after, World.mapPos, HostAnswer.mapPos, Heap.changeAll_mapPos]

namespace Effect

variable {α β γ δ : Type} {g : α → β} {k : γ → δ}

/-- The second computation does in worlds that are alike what the first one does, up to positions;
    `g` moves those of the results. -/
def Moves (f : Position → Position) (g : α → β) (x : Effect α) (x' : Effect β) : Prop :=
  ∀ w w', w.Alike f w' →
    (x'.run w').1 = moveResult (Halt.mapPos f) g (x.run w).1 ∧ (x.run w).2.Alike f (x'.run w').2

/-- Both computations give the same value. -/
abbrev SameValue (f : Position → Position) (x x' : Effect α) : Prop :=
  Moves f id x x'

namespace Moves

variable {x : Effect α} {x' : Effect β} {y : α → Effect γ} {y' : β → Effect δ}

theorem pure {a : α} {b : β} (h : g a = b) :
    Moves f g (Pure.pure a : Effect α) (Pure.pure b) := by
  intro w w' hw
  subst h
  exact ⟨rfl, hw⟩

theorem throw {why why' : Halt} (h : why.mapPos f = why') :
    Moves f g (MonadExcept.throw why : Effect α) (MonadExcept.throw why') := by
  intro w w' hw
  subst h
  exact ⟨rfl, hw⟩

theorem fault {cause : FaultCause} {pos pos' : Option Position} (h : pos.map f = pos') :
    Moves f g (Effect.fault cause pos : Effect α) (Effect.fault cause pos') := by
  subst h
  exact throw rfl

theorem abort {cause : FaultCause} :
    Moves f g (Effect.abort cause : Effect α) (Effect.abort cause) :=
  throw rfl

theorem bind (hx : Moves f g x x') (hy : ∀ a, Moves f k (y a) (y' (g a))) :
    Moves f k (x >>= y) (x' >>= y') := by
  intro w w' hw
  obtain ⟨hr, hw₁⟩ := hx w w' hw
  change (ExceptT.bindCont y' (x'.run w').1 (x'.run w').2).1 =
      moveResult (Halt.mapPos f) k (ExceptT.bindCont y (x.run w).1 (x.run w).2).1 ∧
    (ExceptT.bindCont y (x.run w).1 (x.run w).2).2.Alike f
      (ExceptT.bindCont y' (x'.run w').1 (x'.run w').2).2
  rw [hr]
  generalize x.run w = out at hw₁
  obtain ⟨why | a, w₁⟩ := out
  · exact ⟨rfl, hw₁⟩
  · exact hy a _ _ hw₁

theorem ite {c c' : Prop} [Decidable c] [Decidable c'] {z : Effect α} {z' : Effect β} (hc : c ↔ c')
    (hx : Moves f g x x') (hz : Moves f g z z') :
    Moves f g (if c then x else z) (if c' then x' else z') := by
  by_cases h : c
  · rw [if_pos h, if_pos (hc.mp h)]
    exact hx
  · rw [if_neg h, if_neg (h ∘ hc.mpr)]
    exact hz

/-! ## Operations -/

/-- A computation that starts by looking at the world. -/
theorem get_bind {y : World → Effect γ} {y' : World → Effect δ}
    (h : ∀ w w', w.Alike f w' → Moves f k (y w) (y' w')) :
    Moves f k (MonadState.get >>= y) (MonadState.get >>= y') :=
  fun w w' hw => h w w' hw w w' hw

theorem heap : Moves f (Heap.mapPos f) Effect.heap Effect.heap := by
  rintro w _ ⟨hhost, log, rfl⟩
  exact ⟨rfl, hhost, log, rfl⟩

theorem modify {m m' : World → World} (h : ∀ w w', w.Alike f w' → (m w).Alike f (m' w')) :
    SameValue f (modify m : Effect Unit) (modify m') :=
  fun w w' hw => ⟨rfl, h w w' hw⟩

theorem modifyHeap {m m' : Heap → Heap} (h : ∀ hp, (m hp).mapPos f = m' (hp.mapPos f)) :
    SameValue f (Effect.modifyHeap m) (Effect.modifyHeap m') := by
  refine modify ?_
  rintro w _ ⟨hhost, log, rfl⟩
  refine ⟨hhost, log, ?_⟩
  simp only [World.mapPos, h]

theorem modifyGet {m m' : World → α × World}
    (h : ∀ w w', w.Alike f w' → (m' w').1 = (m w).1 ∧ (m w).2.Alike f (m' w').2) :
    SameValue f (modifyGet m : Effect α) (modifyGet m') :=
  fun w w' hw => ⟨congrArg Except.ok (h w w' hw).1, (h w w' hw).2⟩

theorem inHeap {m m' : Heap → α × Heap}
    (h : ∀ hp, m' (hp.mapPos f) = ((m hp).1, (m hp).2.mapPos f)) :
    SameValue f (Effect.inHeap m) (Effect.inHeap m') := by
  refine modifyGet ?_
  rintro w _ ⟨hhost, log, rfl⟩
  dsimp only [World.mapPos]
  rw [h]
  exact ⟨rfl, hhost, log, rfl⟩

theorem record {level : Level} {message message' : String} :
    SameValue f (Effect.record level message) (Effect.record level message') :=
  modify fun _ _ hw => hw.record level .evaluation message message'

theorem print {text : String} : SameValue f (Effect.print text) (Effect.print text) := by
  refine modify ?_
  rintro w _ ⟨hhost, log, rfl⟩
  exact ⟨hhost, log, rfl⟩

theorem ofOption {o : Option α} : SameValue f (Effect.ofOption o) (Effect.ofOption o) := by
  cases o with
  | none => exact abort
  | some a => exact pure rfl

theorem ofExcept {e : Except Halt α} {e' : Except Halt β}
    (h : e' = moveResult (Halt.mapPos f) g e) :
    Moves f g (liftM e : Effect α) (liftM e') := by
  intro w w' hw
  subst h
  exact ⟨rfl, hw⟩

theorem forIn {items : List γ} {init : α} {step step' : γ → α → Effect (ForInStep α)}
    (h : ∀ c ∈ items, ∀ a, SameValue f (step c a) (step' c a)) :
    SameValue f (ForIn.forIn items init step : Effect α) (ForIn.forIn items init step') := by
  induction items generalizing init with
  | nil => exact pure rfl
  | cons c items ih =>
    rw [List.forIn_cons, List.forIn_cons]
    refine bind (h c (by simp) init) fun r => ?_
    cases r with
    | done a => exact pure rfl
    | yield a => exact ih fun d hd => h d (List.mem_cons_of_mem _ hd)

/-! ### Scopes and functions -/

section Scopes

variable {scope : Ref .scope} {name : String} {value : Value}

theorem newScope {isFunction : Bool} :
    SameValue f (Effect.newScope scope isFunction) (Effect.newScope scope isFunction) :=
  inHeap fun _ => rfl

theorem copyScope :
    SameValue f (Effect.inHeap (·.copyScope scope)) (Effect.inHeap (·.copyScope scope)) :=
  inHeap fun _ => rfl

theorem lookup {pos pos' : Option Position} (h : pos.map f = pos') :
    SameValue f (Effect.lookup scope name pos) (Effect.lookup scope name pos') := by
  refine bind heap fun hp => ?_
  simp only [Heap.scopes_mapPos]
  cases hp.scopes.lookup scope name with
  | ok v => exact pure rfl
  | error cause => exact fault h

theorem bindName {b : Binding} :
    SameValue f (Effect.bind scope name b) (Effect.bind scope name b) :=
  modifyHeap fun _ => rfl

theorem define {isConst : Bool} {pos pos' : Option Position} (h : pos.map f = pos') :
    SameValue f (Effect.define scope name value isConst pos)
      (Effect.define scope name value isConst pos') := by
  refine bind heap fun hp => ?_
  simp only [Heap.scopes_mapPos]
  cases hp.scopes.defineFault? scope name with
  | some cause => exact fault h
  | none => exact bindName

theorem declareVar {value : Option Value} :
    SameValue f (Effect.declareVar scope name value) (Effect.declareVar scope name value) :=
  modifyHeap fun _ => rfl

theorem assign {pos : Position} :
    SameValue f (Effect.assign scope name value pos) (Effect.assign scope name value (f pos)) := by
  refine bind heap fun hp => ?_
  simp only [Heap.scopes_mapPos]
  cases hp.scopes.assignTarget scope name with
  | error cause => exact fault rfl
  | ok target => exact bindName

theorem newFunctionRef {c c' : Function} (h : c.mapPos f = c') :
    SameValue f (Effect.inHeap (·.newFunction c)) (Effect.inHeap (·.newFunction c')) := by
  subst h
  exact inHeap fun hp => hp.newFunction_mapPos c

theorem newFunction {c c' : Function} (h : c.mapPos f = c') :
    SameValue f (Effect.newFunction c) (Effect.newFunction c') :=
  bind (newFunctionRef h) fun _ => pure rfl

theorem nameFunction :
    SameValue f (Effect.modifyHeap (·.nameFunction value name))
      (Effect.modifyHeap (·.nameFunction value name)) :=
  modifyHeap fun hp => hp.nameFunction_mapPos value name

end Scopes

end Moves

end Effect

/-! ## Values of the host -/

/-- A computation in the heap does the same in a heap whose positions are moved. -/
def InHeap.Moves {α : Type} (f : Position → Position) (x : InHeap α) : Prop :=
  ∀ h, x.run (h.mapPos f) = (x.run h).map fun r => (r.1, r.2.mapPos f)

namespace InHeap.Moves

variable {α β : Type} {x : InHeap α} {y : α → InHeap β}

theorem pure {a : α} : (Pure.pure a : InHeap α).Moves f :=
  fun _ => rfl

theorem bind (hx : x.Moves f) (hy : ∀ a, (y a).Moves f) : (x >>= y).Moves f := by
  intro h
  rw [StateT.run_bind, StateT.run_bind, hx h]
  cases x.run h with
  | error cause => rfl
  | ok r => exact hy r.1 r.2

/-- A computation that starts by looking at what of the heap is no code. -/
theorem get_bind {y : Heap → InHeap β} (heq : ∀ h, y (h.mapPos f) = y h)
    (hy : ∀ h, (y h).Moves f) : (MonadState.get >>= y).Moves f := by
  intro h
  change (y (h.mapPos f)).run (h.mapPos f) = ((y h).run h).map _
  rw [heq]
  exact hy h h

theorem mapM {items : List α} {y : α → InHeap β} (hy : ∀ a, (y a).Moves f) :
    (items.mapM y).Moves f := by
  induction items with
  | nil => exact pure
  | cons a items ih =>
    rw [List.mapM_cons]
    exact bind (hy a) fun _ => bind ih fun _ => pure

theorem whole {n : Int} : (InHeap.whole n).Moves f := by
  unfold InHeap.whole
  split <;> exact fun _ => rfl

theorem array {items : List Value} : (InHeap.array items).Moves f :=
  fun _ => rfl

theorem object {fields : List (String × Value)} : (InHeap.object fields).Moves f :=
  fun _ => rfl

theorem host {name : String} : (InHeap.function (.host name)).Moves f := by
  intro h
  change Except.ok (Value.function ((h.mapPos f).newFunction (.host name)).1,
    ((h.mapPos f).newFunction (.host name)).2) = _
  rw [show Function.host name = (Function.host name).mapPos f from rfl, h.newFunction_mapPos]
  rfl

theorem copyFrom (fuel : Nat) (v : Value) : (v.copyFrom fuel).Moves f := by
  induction fuel generalizing v with
  | zero => exact fun _ => rfl
  | succ fuel ih =>
    cases v with
    | array r => exact get_bind (fun _ => rfl) fun h => bind (mapM ih) fun _ => array
    | object r =>
      exact get_bind (fun _ => rfl) fun h => bind (mapM fun e => bind (ih e.2) fun _ => pure)
        fun _ => object
    | _ => exact pure

theorem copy (v : Value) : v.copy.Moves f :=
  get_bind (fun _ => rfl) fun _ => copyFrom _ v

end InHeap.Moves

mutual

theorem moves_toValue : (v : HostValue) → v.toValue.Moves f
  | .value v => .copy v
  | .whole _ => .whole
  | .array items => .bind (moves_itemsToValues items) fun _ => .array
  | .object fields => .bind (moves_fieldsToValues fields) fun _ => .object
  | .function _ => .host

theorem moves_itemsToValues : (vs : List HostValue) → (itemsToValues vs).Moves f
  | [] => .pure
  | v :: r => .bind (moves_toValue v) fun _ => .bind (moves_itemsToValues r) fun _ => .pure

theorem moves_fieldsToValues : (vs : List (String × HostValue)) → (fieldsToValues vs).Moves f
  | [] => .pure
  | (_, v) :: r =>
    .bind (moves_toValue v) fun _ => .bind (moves_fieldsToValues r) fun _ => .pure

end

namespace Effect

theorem Moves.ofHeap {α : Type} {x : InHeap α} (hx : x.Moves f) :
    SameValue f (Effect.ofHeap x) (Effect.ofHeap x) := by
  refine .bind .heap fun h => ?_
  simp only [hx h]
  cases x.run h with
  | error cause => exact .abort
  | ok r => exact .bind (.modifyHeap fun _ => rfl) fun _ => .pure rfl

end Effect

end CoScript
