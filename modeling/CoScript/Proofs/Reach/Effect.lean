import CoScript.Eval.Frame
import CoScript.Proofs.Reach.Heap

/-!
# Computations that stay clear of scopes

A computation that begins in a place from which some scopes cannot be reached leaves these scopes
alone, and so does whatever goes on with its result: the scopes that it gives and those that a
thread holds after it are clear of them too.

Results:
* `World.Later`: a world that comes after another without reaching some scopes.
* `Effect.Avoids`: computations that stay clear of scopes, with a rule for each operation.
* `Thread.Clear`: all scopes that a thread works in are clear.
-/

namespace CoScript

open Effect

variable {K : Ref .scope → Prop} {w w' w'' : World} {scope : Ref .scope} {α β : Type}

/-! ## Worlds -/

/-- The scopes in `K` exist, and the scope of the program is clear of them. -/
structure World.Keeping (K : Ref .scope → Prop) (w : World) : Prop where
  heap : w.heap.Keeping K
  globals : w.heap.Clear K w.globals

/-- A world comes after another, and the scopes in `K` were not reached on the way. -/
structure World.Later (K : Ref .scope → Prop) (w w' : World) : Prop where
  before : w.Keeping K
  after : w'.Keeping K
  grows : w.heap.Grows K w'.heap
  globals : w'.globals = w.globals

namespace World.Later

theorem refl (hw : w.Keeping K) : w.Later K w :=
  ⟨hw, hw, .refl w.heap, rfl⟩

theorem clear (hl : w.Later K w') {K' : Ref .scope → Prop} (hs : w.heap.Clear K' scope) :
    w'.heap.Clear K' scope :=
  hl.grows.clear hl.before.heap.toScoped hs

theorem of_grows (hw : w.Keeping K) (hglobals : w'.globals = w.globals)
    (hg : w.heap.Grows K w'.heap ∧ w'.heap.Scoped) : w.Later K w' where
  before := hw
  after := ⟨hw.heap.grows hg.1 hg.2, hglobals ▸ hg.1.clear hw.heap.toScoped hw.globals⟩
  grows := hg.1
  globals := hglobals

theorem trans (hl : w.Later K w') (hl' : w'.Later K w'') : w.Later K w'' where
  before := hl.before
  after := hl'.after
  grows := hl.grows.trans hl'.grows hl.after.heap.toScoped
  globals := hl'.globals.trans hl.globals

/-- Scopes that exist and are not around the program stay so. -/
theorem keeping (hl : w.Later K w') {K' : Ref .scope → Prop} (hw : w.Keeping K') :
    w'.Keeping K' :=
  ⟨⟨hl.after.heap.toScoped, fun k hk => hl.grows.has (hw.heap.kept k hk)⟩,
    hl.globals ▸ hl.clear hw.globals⟩

/-- Most parts of the evaluation reach no scope at all. -/
theorem inert (K : Ref .scope → Prop) (w : World) : Inert (w.Later K) where
  inert hl hglobals hf hc hs :=
    hl.trans (.of_grows hl.after hglobals
      ⟨.of_eq hf hc hs, hl.after.heap.toScoped.of_eq hf hc hs⟩)
  native {w' f} hf hl :=
    hl.trans (.of_grows hl.after rfl (Heap.grows_newFunction hl.after.heap.toScoped fun s hs => by
      cases f with
      | closure c => exact absurd rfl (hf c)
      | _ => cases hs))
  named v name hl :=
    hl.trans (.of_grows hl.after rfl (Heap.grows_nameFunction hl.after.heap.toScoped v name))

end World.Later

/-! ## Computations -/

/-- A computation on a world leaves the scopes in `K` alone and gives something that satisfies
    `P`. -/
def Effect.Avoids (K : Ref .scope → Prop) (w : World) (P : World → α → Prop) (x : Effect α) :
    Prop :=
  w.Keeping K → w.Later K (x.run w).2 ∧ ∀ a, (x.run w).1 = .ok a → P (x.run w).2 a

namespace Effect.Avoids

variable {P : World → α → Prop} {Q : World → β → Prop} {x : Effect α} {f : α → Effect β}

theorem pure {a : α} (ha : P w a) : (Pure.pure a : Effect α).Avoids K w P :=
  fun hw => ⟨.refl hw, by rintro _ ⟨⟩; exact ha⟩

theorem throw {e : Halt} : (MonadExcept.throw e : Effect α).Avoids K w P :=
  fun hw => ⟨.refl hw, by rintro _ ⟨⟩⟩

theorem fault {cause : FaultCause} {pos : Option Position} :
    (fault cause pos : Effect α).Avoids K w P :=
  throw

theorem abort {cause : FaultCause} : (abort cause : Effect α).Avoids K w P :=
  throw

theorem bind (hx : x.Avoids K w P)
    (hf : ∀ w' a, w.Later K w' → P w' a → (f a).Avoids K w' Q) : (x >>= f).Avoids K w Q := by
  intro hw
  obtain ⟨hl, hP⟩ := hx hw
  rw [Effect.run_bind]
  generalize x.run w = out at hl hP
  obtain ⟨r, w'⟩ := out
  cases r with
  | ok a =>
    obtain ⟨hl', hQ⟩ := hf w' a hl (hP a rfl) hl.after
    exact ⟨hl.trans hl', hQ⟩
  | error e => exact ⟨hl, by rintro _ ⟨⟩⟩

/-- A computation that reaches no scope at all. -/
theorem of_upholds (hx : ∀ {I : World → Prop}, Inert I → x.Upholds I) :
    x.Avoids K w fun _ _ => True :=
  fun hw => ⟨(hx (World.Later.inert K w) w (.refl hw)).1, fun _ _ => trivial⟩

/-- A computation that starts by looking at the heap. -/
theorem heap_bind {f : Heap → Effect β} (hf : (f w.heap).Avoids K w Q) :
    (heap >>= f).Avoids K w Q :=
  hf

/-- A computation that starts by looking at the world. -/
theorem get_bind {f : World → Effect β} (hf : (f w).Avoids K w Q) :
    (MonadState.get >>= f).Avoids K w Q :=
  hf

theorem modifyHeap {g : Heap → Heap}
    (hg : w.Keeping K → w.heap.Grows K (g w.heap) ∧ (g w.heap).Scoped) :
    (modifyHeap g).Avoids K w fun _ _ => True :=
  fun hw => ⟨.of_grows hw rfl (hg hw), fun _ _ => trivial⟩

theorem inHeap {g : Heap → α × Heap} (hg : w.Keeping K →
      w.heap.Grows K (g w.heap).2 ∧ (g w.heap).2.Scoped ∧
        P { w with heap := (g w.heap).2 } (g w.heap).1) :
    (inHeap g).Avoids K w P := by
  intro hw
  obtain ⟨hgrows, hscoped, hP⟩ := hg hw
  refine ⟨.of_grows hw rfl ⟨hgrows, hscoped⟩, ?_⟩
  rintro _ ⟨⟩
  exact hP

theorem forIn {γ : Type} {items : List γ} {init : α} {step : γ → α → Effect (ForInStep α)}
    (hw : w.Later K w')
    (h : ∀ w' c a, w.Later K w' → (step c a).Avoids K w' fun _ _ => True) :
    (ForIn.forIn items init step : Effect α).Avoids K w' fun _ _ => True := by
  induction items generalizing init w' with
  | nil => exact pure trivial
  | cons c items ih =>
    rw [List.forIn_cons]
    refine bind (h w' c init hw) fun w'' r hl _ => ?_
    cases r with
    | done a => exact pure trivial
    | yield a => exact ih (hw.trans hl)

/-! ### Scopes -/

section Scopes

variable {name : String} {value : Value}

theorem newScope (hs : w.heap.Clear K scope) {isFunction : Bool} :
    (Effect.newScope scope isFunction).Avoids K w fun w' r => w'.heap.Clear K r :=
  inHeap fun hw => Heap.grows_push hw.heap (c := ⟨some scope, _, .empty⟩) <| by
    rintro _ ⟨⟩
    exact hs

/-- A copy of a scope lies where the scope lies. -/
theorem copyScope (hs : ∀ p, (w.heap.scopes.get scope).parent = some p → w.heap.Clear K p) :
    (Effect.inHeap (·.copyScope scope)).Avoids K w fun w' r => w'.heap.Clear K r :=
  inHeap fun hw => Heap.grows_push hw.heap hs

theorem bindName (hs : w.heap.Clear K scope) {b : Binding} :
    (Effect.bind scope name b).Avoids K w fun _ _ => True :=
  modifyHeap fun hw => Heap.grows_bind hw.heap.toScoped hs name b

theorem define (hs : w.heap.Clear K scope) {isConst : Bool} {pos : Option Position} :
    (Effect.define scope name value isConst pos).Avoids K w fun _ _ => True := by
  refine heap_bind ?_
  split
  · exact fault
  · exact bindName hs

/-- An assignment writes a scope around the place where it stands. -/
theorem assign (hs : w.heap.Clear K scope) {pos : Position} :
    (Effect.assign scope name value pos).Avoids K w fun _ _ => True := by
  refine heap_bind ?_
  split
  · exact fault
  · rename_i target htarget
    intro hw
    exact bindName (hs.of_inside hw.heap.toScoped (Scopes.inside_assignTarget htarget)) hw

theorem declareVar (hs : w.heap.Clear K scope) {value : Option Value} :
    (Effect.declareVar scope name value).Avoids K w fun _ _ => True := by
  refine modifyHeap fun hw => ?_
  have htarget := hs.of_inside hw.heap.toScoped (w.heap.scopes.inside_functionScope scope)
  unfold Scopes.declareVar
  dsimp only
  split
  · exact Heap.grows_bind hw.heap.toScoped htarget name _
  · exact Heap.grows_bind hw.heap.toScoped htarget name _
  · exact ⟨.refl _, hw.heap.toScoped⟩

theorem bindReceiver (hs : w.heap.Clear K scope) {receiver above : Value} :
    (CoScript.bindReceiver scope receiver above).Avoids K w fun _ _ => True :=
  bind (define hs) fun _ _ hl _ => define (hl.clear hs)

end Scopes

theorem lookup {name : String} {pos : Option Position} :
    (Effect.lookup scope name pos).Avoids K w fun _ _ => True :=
  of_upholds fun _ => leaves_lookup

/-- A function of the script is made in the place that it lies in. -/
theorem newClosure {c : Closure} (hc : w.heap.Clear K c.scope) :
    (Effect.newFunction (.closure c)).Avoids K w fun _ _ => True := by
  refine bind (P := fun _ _ => True) (inHeap fun hw => ?_) fun _ _ _ _ => pure trivial
  obtain ⟨hg, hs⟩ := Heap.grows_newFunction hw.heap.toScoped (f := .closure c) <| by
    rintro _ ⟨⟩
    exact hc
  exact ⟨hg, hs, trivial⟩

end Effect.Avoids

/-! ## Threads -/

/-- The scope that a place is looked up in. -/
def Place.scopes : Place → List (Ref .scope)
  | .variable _ scope _ => [scope]
  | .member .. | .element .. => []

/-- The scopes that a thread works in. -/
def Control.scopes : Control → List (Ref .scope)
  | .statements _ scope | .exec _ scope | .eval _ scope | .bind _ _ _ scope => [scope]
  | .program .. | .invoke .. | .enter .. | .initialise _ | .ret _ | .leave _ | .fail _ => []

/-- The scope of a function that is about to be entered. -/
def Control.target? : Control → Option (Ref .scope)
  | .enter c _ _ => some c.scope
  | _ => none

/-- The scopes that a frame goes on in. -/
@[simp] def Frame.scopes : Frame → List (Ref .scope)
  | .sequence _ scope | .declare _ _ _ scope | .branch _ _ scope | .forStart _ scope
  | .forTest _ scope | .forBody _ scope | .forUpdate _ scope | .whileTest _ _ scope
  | .whileBody _ _ scope | .switchOn _ scope | .switchTest _ _ _ scope | .switchBody _ scope
  | .tryBody _ _ _ scope | .handlerBody _ scope | .binaryRight _ _ _ scope | .choose _ _ scope
  | .indexKey _ _ scope | .placeMember _ _ _ scope | .placeKey _ _ _ scope
  | .placeElement _ _ _ scope | .property _ _ _ scope | .calleeOf _ _ _ scope
  | .methodOf _ _ _ _ _ scope | .classOf _ _ _ scope | .collect _ _ _ scope
  | .parameter _ _ _ _ scope => [scope]
  | .itemsOf loop _ | .itemBody loop _ => [loop.scope]
  | .write place | .combine place _ _ _ => place.scopes
  | .discard | .giveBack | .throwIt _ | .finalizerBody _ | .binaryApply .. | .unaryApply ..
  | .memberOf .. | .indexApply .. | .awaiting | .call | .fieldValue .. | .constructed _
  | .superDone => []

/-- The scopes that frames go on in are clear of `K`. -/
def StackClear (K : Ref .scope → Prop) (w : World) (stack : List Frame) : Prop :=
  ∀ f ∈ stack, ∀ r ∈ f.scopes, w.heap.Clear K r

/-- The scopes that a thread works in are clear of `K`, and a function that it is about to enter
    lies in a scope that exists. -/
structure Control.Clear (K : Ref .scope → Prop) (w : World) (c : Control) : Prop where
  scopes : ∀ r ∈ c.scopes, w.heap.Clear K r
  target : ∀ r ∈ c.target?, w.heap.scopes.Has r

/-- All scopes that a thread works in, now and later, are clear of `K`. -/
structure Thread.Clear (K : Ref .scope → Prop) (w : World) (t : Thread) : Prop where
  control : t.control.Clear K w
  stack : StackClear K w t.stack

/-- A thread goes on clear of `K`, and one that it starts begins in no scope at all. -/
def Move.Clear (K : Ref .scope → Prop) (w : World) : Move → Prop
  | .go control stack => control.Clear K w ∧ StackClear K w stack
  | .await _ stack => StackClear K w stack
  | .spawn _ child stack => (∀ K', child.Clear K' w) ∧ StackClear K w stack
  | .finish _ | .throw .. => True

/-- The scope of the code that a thread is about to enter: of a function, or of the class of a field
    with a value. -/
def Thread.target? (w : World) (t : Thread) : Option (Ref .scope) :=
  match t.control with
  | .enter c _ _ => some c.scope
  | .initialise k => do
    let f ← k.fields.head?
    let _ ← f.field.value
    return (w.heap.cls f.cls).scope
  | _ => none

/-- A thread is about to enter code from which a scope in `K` can be reached. -/
def Thread.Enters (K : Ref .scope → Prop) (w : World) (t : Thread) : Prop :=
  ∃ s ∈ t.target? w, ∃ k, K k ∧ w.heap.scopes.Inside k s

section Clear

variable {stack : List Frame}

@[simp] theorem stackClear_nil : StackClear K w [] := by
  simp [StackClear]

@[simp] theorem stackClear_cons {f : Frame} :
    StackClear K w (f :: stack) ↔ (∀ r ∈ f.scopes, w.heap.Clear K r) ∧ StackClear K w stack :=
  List.forall_mem_cons

/-- Code that is evaluated in a scope. -/
theorem Control.Clear.at {c : Control} (hc : c.scopes = [scope]) (ht : c.target? = none)
    (hs : w.heap.Clear K scope) : c.Clear K w :=
  ⟨by simpa [hc] using hs, by simp [ht]⟩

/-- What works in no scope. -/
theorem Control.Clear.nowhere {c : Control} (hc : c.scopes = []) (ht : c.target? = none) :
    c.Clear K w :=
  ⟨by simp [hc], by simp [ht]⟩

section Later

variable {K' : Ref .scope → Prop} (hl : w.Later K w')

include hl

theorem World.Later.stackClear (hst : StackClear K' w stack) : StackClear K' w' stack :=
  fun f hf r hr => hl.clear (hst f hf r hr)

theorem World.Later.control {c : Control} (hc : c.Clear K' w) : c.Clear K' w' :=
  ⟨fun r hr => hl.clear (hc.scopes r hr), fun r hr => hl.grows.has (hc.target r hr)⟩

theorem World.Later.thread {t : Thread} (ht : t.Clear K' w) : t.Clear K' w' :=
  ⟨hl.control ht.control, hl.stackClear ht.stack⟩

end Later

/-- A thread works clear of other scopes if its scopes are clear of them. -/
theorem Thread.Clear.mono {K' : Ref .scope → Prop} {t : Thread} (ht : t.Clear K w)
    (hhas : ∀ s, w.heap.scopes.Has s → w'.heap.scopes.Has s)
    (hclear : ∀ s, w.heap.Clear K s → w'.heap.Clear K' s) : t.Clear K' w' :=
  ⟨⟨fun r hr => hclear r (ht.control.scopes r hr), fun r hr => hhas r (ht.control.target r hr)⟩,
    fun f hf r hr => hclear r (ht.stack f hf r hr)⟩

/-- Code that is evaluated in a scope, with more to do afterwards. -/
theorem Move.Clear.at {c : Control} (hc : c.scopes = [scope]) (ht : c.target? = none)
    (hs : w.heap.Clear K scope) (hst : StackClear K w stack) : Move.Clear K w (.go c stack) :=
  ⟨.at hc ht hs, hst⟩

theorem Move.Clear.ret {v : Value} (hst : StackClear K w stack) :
    (Move.ret v stack).Clear K w :=
  ⟨.nowhere rfl rfl, hst⟩

theorem Move.Clear.done (hst : StackClear K w stack) : (Move.done stack).Clear K w :=
  .ret hst

theorem Move.Clear.leave {how : Abrupt} (hst : StackClear K w stack) :
    Move.Clear K w (.go (.leave how) stack) :=
  ⟨.nowhere rfl rfl, hst⟩

end Clear

end CoScript
