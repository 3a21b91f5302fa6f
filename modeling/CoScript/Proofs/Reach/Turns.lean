import CoScript.Proofs.Reach.Evaluation
import CoScript.Proofs.Try.Moments

/-!
# Turns of a thread

A thread acts again and again, and in between others act. Once it works clear of a scope it leaves
the scope alone, but for visits: it may call a function that was made inside, or give a field the
value that a class declared inside has for it. A visit lasts until that code hands on a value or a
jump.

Results:
* `TaskTurn`: a thread that acts.
* `Apart`: turns that leave a scope alone, but for visits.
* `apart_of_clear`: the turns of a thread that works clear of a scope.
-/

namespace CoScript

variable {K : Ref .scope → Prop} {w w' : World} {r : Ref .scope} {below : List Frame}

/-! ## Specification -/

/-- A thread that acts, as part of a task. -/
structure TaskTurn extends Moment where
  id : TaskId
  /-- all tasks, as the thread finds them -/
  tasks : Array (Task Thread Value)

namespace TaskTurn

/-- The turns of one task. -/
def ofTask (id : TaskId) (ts : List TaskTurn) : List TaskTurn :=
  ts.filter (·.id = id)

/-- The action of a thread. -/
def action (t : TaskTurn) : Action Thread Value :=
  (t.thread.act t.world t.tasks).1

/-- The world that a thread leaves. -/
def after (t : TaskTurn) : World :=
  (t.thread.act t.world t.tasks).2

/-- A scope is made. -/
structure Makes (r : Ref .scope) (t : TaskTurn) : Prop where
  new : ¬ t.world.heap.scopes.Has r
  made : t.after.heap.scopes.Has r

/-- The scope is left alone, and nothing is made inside. -/
def Spares (r : Ref .scope) (t : TaskTurn) : Prop :=
  t.world.heap.Grows (· = r) t.after.heap

end TaskTurn

/-- Where code that a thread is about to enter hands on its value. -/
def Thread.returnStack (t : Thread) : List Frame :=
  match t.control with
  | .initialise ⟨target, cls, f :: rest, args⟩ =>
    .fieldValue f.field.name ⟨target, cls, rest, args⟩ :: t.stack
  | _ => t.stack

/-- A part of a program is in progress that started on a stack. -/
structure Moment.Within (below : List Frame) (m : Moment) : Prop where
  above : below <:+ m.thread.stack
  goes_on : m.Open below

/-- Turns of a thread that leave a scope alone and make nothing inside, but for visits: from the
    turn in which the thread is about to enter code that was made inside, up to the end of that
    code. -/
inductive Apart (r : Ref .scope) : List TaskTurn → Prop
  | nil : Apart r []
  | own {t : TaskTurn} {ts : List TaskTurn} (ht : t.Spares r) (h : Apart r ts) : Apart r (t :: ts)
  | visit {t : TaskTurn} {mid ts : List TaskTurn} (ht : t.thread.Enters (· = r) t.world)
    (hmid : ∀ t' ∈ mid, t'.Within t.thread.returnStack) (h : Apart r ts) :
    Apart r (t :: (mid ++ ts))

/-- A part is in progress, or it has come to its end. -/
theorem Moment.within_or_ended {m : Moment} (h : below <:+ m.thread.stack) :
    m.Within below ∨ ∃ how, m.Ended below how := by
  by_cases hend : ∃ how, m.Ended below how
  · exact .inr hend
  · exact .inl ⟨h, not_exists.mp hend⟩

/-! ## From turn to turn -/

/-- A thread goes on at a moment, once it has acted. -/
inductive TaskTurn.LeadsTo (t : TaskTurn) (m : Moment) : Prop
  | proceed (h : t.action = .proceed m.thread) (hw : m.world = t.after)
  | await {what : Awaited Value} {thread : Thread} (h : t.action = .await what thread)
    (got : Delivery Value) (hm : m.thread = thread.resume got)
  | spawn {name : String} {child : Thread} {parent : TaskId → Thread}
    (h : t.action = .spawn name child parent) (id : TaskId) (hm : m.thread = parent id)

/-- There are no scopes to stay clear of. -/
abbrev NoScope : Ref .scope → Prop := fun _ => False

/-- Everything lies in scopes that exist. -/
structure TaskTurn.Sound (t : TaskTurn) : Prop where
  world : t.world.Keeping NoScope
  thread : t.thread.Clear NoScope t.world

/-- The next turn of a thread, in a world that only grew. -/
structure TaskTurn.Before (t t' : TaskTurn) : Prop where
  leads : t.LeadsTo t'.toMoment
  later : t.after.Later NoScope t'.world

/-! ## Actions -/

theorem not_enters_noScope {t : Thread} : ¬ t.Enters NoScope w := by
  rintro ⟨s, -, k, hk, -⟩
  exact hk

theorem Move.Clear.action {m : Move} (hm : m.Clear K w) (t : Thread) :
    (t.action m).All (Thread.Clear K w) := by
  cases m with
  | go control stack => exact ⟨hm.1, hm.2⟩
  | await v stack => exact ⟨.nowhere rfl rfl, hm⟩
  | spawn name child stack =>
    exact ⟨⟨hm.1 K, by simp⟩, fun _ => ⟨.nowhere rfl rfl, hm.2⟩⟩
  | _ => trivial

theorem Thread.Clear.resume {t : Thread} (ht : t.Clear K w) (got : Delivery Value) :
    (t.resume got).Clear K w := by
  refine ⟨?_, ht.stack⟩
  cases got <;> exact .nowhere rfl rfl

/-- What a step stays clear of, the action does too. -/
theorem Thread.act_of_avoids {t : Thread} {tasks : Array (Task Thread Value)}
    (h : (t.step (.ofTasks tasks)).Avoids K w (Move.Clear K)) (hw : w.Keeping K) :
    w.Later K (t.act w tasks).2 ∧
      (t.act w tasks).1.All (Thread.Clear K (t.act w tasks).2) := by
  obtain ⟨hl, hmove⟩ := h hw
  rw [act_eq]
  generalize (t.step (.ofTasks tasks)).run w = out at hl hmove
  obtain ⟨(f | cause) | move, w'⟩ := out
  · exact ⟨hl, trivial⟩
  · exact ⟨hl, trivial⟩
  · exact ⟨hl, (hmove move rfl).action t⟩

/-- A thread that works clear of some scopes leaves them alone and goes on clear of them, unless it
    enters code from which one of them can be reached. -/
theorem Thread.Clear.act {t : Thread} (hw : w.Keeping K) (ht : t.Clear K w)
    (hent : ¬ t.Enters K w) (tasks : Array (Task Thread Value)) :
    w.Later K (t.act w tasks).2 ∧
      (t.act w tasks).1.All (Thread.Clear K (t.act w tasks).2) :=
  act_of_avoids (ht.step hent) hw

/-- A thread that starts another one gives it no scope. -/
theorem Thread.Clear.spawned {t child : Thread} {name : String} {parent : TaskId → Thread}
    {tasks : Array (Task Thread Value)} (hw : w.Keeping K) (ht : t.Clear K w)
    (hent : ¬ t.Enters K w) (h : (t.act w tasks).1 = .spawn name child parent)
    (K' : Ref .scope → Prop) : child.Clear K' (t.act w tasks).2 := by
  have hstep : (t.step (.ofTasks tasks)).Avoids K w (Move.Clear K) := ht.step hent
  obtain ⟨-, hmove⟩ := hstep hw
  rw [act_eq] at h ⊢
  generalize (t.step (.ofTasks tasks)).run w = out at hmove h ⊢
  obtain ⟨(f | cause) | move, w'⟩ := out
  · cases h
  · cases h
  · cases move with
    | spawn name c stack =>
      obtain ⟨-, rfl, -⟩ := Action.spawn.inj h
      exact ⟨(hmove _ rfl).1 K', by simp⟩
    | _ => cases h

/-- A thread that enters code does so above the frames to which the code returns. -/
theorem Thread.above_enters {t : Thread} {ps : Promises} (h : t.Enters K w) :
    (t.step ps).Above t.returnStack := by
  obtain ⟨s, hs, -⟩ := h
  obtain ⟨control, stack, base⟩ := t
  unfold target? at hs
  split at hs
  · rename_i c args receiver hcontrol
    dsimp only at hcontrol
    subst hcontrol
    exact above_bind fun _ => above_enterFunction List.suffix_rfl
  · rename_i k hcontrol
    dsimp only at hcontrol
    subst hcontrol
    obtain ⟨target, cls, fields, args⟩ := k
    cases fields with
    | nil => cases hs
    | cons f rest =>
      refine above_bind fun _ => ?_
      unfold initialise
      dsimp only
      cases hvalue : f.field.value with
      | none => simp [hvalue] at hs
      | some e => exact above_bind fun _ => above_go List.suffix_rfl
  · cases hs

namespace TaskTurn

variable {t t' : TaskTurn} {m : Moment} {ts : List TaskTurn} {id : TaskId}

@[simp] theorem ofTask_nil : ofTask id [] = [] :=
  rfl

theorem ofTask_append (ts ts' : List TaskTurn) :
    ofTask id (ts ++ ts') = ofTask id ts ++ ofTask id ts' :=
  List.filter_append ..

theorem ofTask_cons_of_eq (h : t.id = id) : ofTask id (t :: ts) = t :: ofTask id ts :=
  List.filter_cons_of_pos (by simpa using h)

theorem ofTask_cons_of_ne (h : t.id ≠ id) : ofTask id (t :: ts) = ofTask id ts :=
  List.filter_cons_of_neg (by simpa using h)

theorem mem_ofTask : t ∈ ofTask id ts ↔ t ∈ ts ∧ t.id = id := by
  simp [ofTask]

theorem ofTask_concat_ne_nil (ts : List TaskTurn) (t : TaskTurn) : ofTask t.id (ts ++ [t]) ≠ [] :=
  List.ne_nil_of_mem (mem_ofTask.mpr ⟨by simp, rfl⟩)

theorem ofTask_eq_nil_of_concat (h : ofTask id (ts ++ [t]) = []) : ofTask id ts = [] := by
  rw [ofTask_append] at h
  exact (List.append_eq_nil_iff.mp h).1

/-- A turn is the first of its task if there was none before. -/
theorem mem_head?_ofTask_concat {t' : TaskTurn} (h : t' ∈ (ofTask id (ts ++ [t])).head?) :
    t' ∈ (ofTask id ts).head? ∨ ofTask id ts = [] ∧ t' = t ∧ t.id = id := by
  rw [ofTask_append] at h
  cases hts : ofTask id ts with
  | cons first rest =>
    rw [hts] at h
    exact .inl h
  | nil =>
    rw [hts, List.nil_append] at h
    obtain ⟨hmem, hid⟩ := mem_ofTask.mp (List.mem_of_mem_head? h)
    obtain rfl := List.mem_singleton.mp hmem
    exact .inr ⟨rfl, rfl, hid⟩

/-- A thread goes on where its action says. -/
theorem continues (t : TaskTurn) : t.action.Continues t.LeadsTo t.after := by
  cases h : t.action with
  | proceed thread => exact .proceed h rfl
  | await what thread => exact fun got later => .await h got rfl
  | spawn name child parent => exact fun id later => .spawn h id rfl
  | _ => trivial

theorem LeadsTo.step (h : t.LeadsTo m) : t.toMoment.Step m := by
  obtain ⟨w, thread⟩ := m
  cases h with
  | proceed h hw =>
    dsimp only at hw
    subst hw
    exact .proceed (Prod.ext h rfl)
  | await h got hm =>
    dsimp only at hm
    subst hm
    exact .await (Prod.ext h rfl) got w
  | spawn h id hm =>
    dsimp only at hm
    subst hm
    exact .spawn (Prod.ext h rfl) id w

/-- What holds of the threads of an action holds of the thread that goes on. -/
theorem LeadsTo.clear (h : t.LeadsTo m) (ht : t.action.All (Thread.Clear K w)) :
    m.thread.Clear K w := by
  cases h with
  | proceed h _ =>
    rw [h] at ht
    exact ht
  | await h got hm =>
    rw [h] at ht
    exact hm ▸ Thread.Clear.resume ht got
  | spawn h id hm =>
    rw [h] at ht
    exact hm ▸ ht.2 id

theorem LeadsTo.above (h : t.LeadsTo m) (ht : t.action.Above below) :
    below <:+ m.thread.stack := by
  cases h with
  | proceed h _ =>
    rw [h] at ht
    exact ht
  | await h got hm =>
    rw [h] at ht
    exact hm ▸ ht
  | spawn h id hm =>
    rw [h] at ht
    exact hm ▸ ht id

theorem Sound.later (h : t.Sound) : t.world.Later NoScope t.after :=
  (h.thread.act h.world not_enters_noScope t.tasks).1

/-- The scopes of the thread that goes on exist already when it has acted. -/
theorem Sound.next (h : t.Sound) (hm : t.LeadsTo m) : m.thread.Clear NoScope t.after :=
  hm.clear (h.thread.act h.world not_enters_noScope t.tasks).2

/-- From one turn of a thread on, the world only grows. -/
theorem later_of_chain (hchain : (t :: ts).IsChain Before) (hs : ∀ t' ∈ t :: ts, t'.Sound) :
    ∀ t' ∈ ts, t.world.Later NoScope t'.world := by
  induction ts generalizing t with
  | nil => simp
  | cons t₁ ts ih =>
    obtain ⟨hbefore, hchain⟩ := List.isChain_cons_cons.mp hchain
    obtain ⟨ht, hts⟩ := List.forall_mem_cons.mp hs
    have hl := ht.later.trans hbefore.later
    refine List.forall_mem_cons.mpr ⟨hl, fun t' ht' => ?_⟩
    exact hl.trans (ih hchain hts t' ht')

/-- A part of a program is in progress up to the first turn in which it has come to its end. -/
theorem split_within (hchain : ts.IsChain Before)
    (habove : ∀ t ∈ ts.head?, below <:+ t.thread.stack) :
    ∃ mid rest, ts = mid ++ rest ∧ (∀ t ∈ mid, t.Within below) ∧
      ∀ t ∈ rest.head?, ∃ how, t.Ended below how := by
  induction ts with
  | nil => exact ⟨[], [], rfl, by simp, by simp⟩
  | cons t ts ih =>
    obtain ht | hend := Moment.within_or_ended (habove t rfl)
    · obtain ⟨hnext, hchain⟩ := List.isChain_cons.mp hchain
      obtain ⟨mid, rest, rfl, hmid, hrest⟩ := ih hchain fun t' ht' =>
        (hnext t' ht').leads.step.above ht.goes_on ht.above
      exact ⟨t :: mid, rest, rfl, List.forall_mem_cons.mpr ⟨ht, hmid⟩, hrest⟩
    · refine ⟨[], t :: ts, rfl, by simp, ?_⟩
      rintro _ ⟨⟩
      exact hend

end TaskTurn

/-! ## Scopes that are new -/

/-- A scope does not lie inside one that was made later. -/
theorem Heap.clear_of_older {h h' : Heap} {s : Ref .scope} (hh' : h'.Scoped)
    (hr : ¬ h.scopes.Has r) (hs : h.scopes.Has s) (hs' : h'.scopes.Has s) :
    h'.Clear (· = r) s := by
  refine ⟨hs', ?_⟩
  rintro _ rfl hin
  exact hr (Nat.lt_of_le_of_lt (hin.le hh'.outward) hs)

/-- A thread works clear of what is made later. -/
theorem World.Later.clear_of_older {t : Thread} (hl : w.Later NoScope w')
    (hr : ¬ w.heap.scopes.Has r) (ht : t.Clear NoScope w) : t.Clear (· = r) w' :=
  ht.mono (fun _ hs => hl.grows.has hs) fun _ hs =>
    Heap.clear_of_older hl.after.heap.toScoped hr hs.has (hl.grows.has hs.has)

/-- A new scope is not around the program. -/
theorem World.Later.keeping_of_new (hl : w.Later NoScope w') (hr : ¬ w.heap.scopes.Has r)
    (hr' : w'.heap.scopes.Has r) : w'.Keeping (· = r) := by
  refine ⟨⟨hl.after.heap.toScoped, ?_⟩, ?_⟩
  · rintro _ rfl
    exact hr'
  · rw [hl.globals]
    exact Heap.clear_of_older hl.after.heap.toScoped hr hl.before.globals.has
      (hl.grows.has hl.before.globals.has)

/-- What is around a scope lies outside. -/
theorem Heap.clear_parent {h : Heap} {p : Ref .scope} (hh : h.Scoped)
    (hp : (h.scopes.get r).parent = some p) : h.Clear (· = r) p := by
  refine ⟨hh.outward.has hp, ?_⟩
  rintro _ rfl hin
  exact absurd (hin.le hh.outward) (Nat.not_le_of_lt (hh.outward _ _ hp))

/-! ## Apart -/

/-- Frames that wait for code which a thread is about to enter go on where the thread does. -/
theorem Thread.Clear.returnStack {t : Thread} (ht : t.Clear K w) :
    StackClear K w t.returnStack := by
  unfold Thread.returnStack
  split
  · simpa using ht.stack
  · exact ht.stack

/-- Code that has come to its end on frames that are clear. -/
theorem Moment.Ended.clear {m : Moment} {how : Option Abrupt} (h : m.Ended below how)
    (hst : StackClear K w below) : m.thread.Clear K w := by
  cases h <;> exact ⟨.nowhere rfl rfl, hst⟩

/-- The turns of a thread that works clear of a scope leave the scope alone, but for visits. -/
theorem apart_of_clear {ts : List TaskTurn} (hchain : ts.IsChain TaskTurn.Before)
    (hsound : ∀ t ∈ ts, t.Sound) (hkeeping : ∀ t ∈ ts, t.world.Keeping (· = r))
    (hclear : ∀ t ∈ ts.head?, t.thread.Clear (· = r) t.world) : Apart r ts := by
  -- the induction is on the number of turns, since a visit may take many of them
  induction hn : ts.length using Nat.strong_induction_on generalizing ts with
  | _ n ih =>
    cases ts with
    | nil => exact .nil
    | cons t ts =>
      have ht := hclear t rfl
      have hw := hkeeping t List.mem_cons_self
      obtain ⟨hnext, hrest⟩ := List.isChain_cons.mp hchain
      by_cases hent : t.thread.Enters (· = r) t.world
      · have habove : ∀ t' ∈ ts.head?, t.thread.returnStack <:+ t'.thread.stack :=
          fun t' ht' => (hnext t' ht').leads.above <|
            Thread.above_act (fun _ => Thread.above_enters hent) t.world t.tasks
        obtain ⟨mid, rest, rfl, hmid, hend⟩ := TaskTurn.split_within hrest habove
        have hsub : ∀ t' ∈ rest, t' ∈ t :: (mid ++ rest) := fun t' ht' =>
          List.mem_cons_of_mem _ (List.mem_append_right _ ht')
        refine .visit hent hmid (ih rest.length ?_ hrest.right_of_append
          (fun t' ht' => hsound t' (hsub t' ht')) (fun t' ht' => hkeeping t' (hsub t' ht'))
          (fun t' ht' => ?_) rfl)
        · simp only [← hn, List.length_cons, List.length_append]
          omega
        · obtain ⟨how, hhow⟩ := hend t' ht'
          have hl := TaskTurn.later_of_chain hchain hsound t'
            (List.mem_append_right _ (List.mem_of_mem_head? ht'))
          exact hhow.clear (hl.stackClear ht.returnStack)
      · obtain ⟨hl, hact⟩ := ht.act hw hent t.tasks
        refine .own hl.grows (ih ts.length (by simp [← hn]) hrest
          (fun t' ht' => hsound t' (List.mem_cons_of_mem _ ht'))
          (fun t' ht' => hkeeping t' (List.mem_cons_of_mem _ ht')) (fun t' ht' => ?_) rfl)
        exact (hnext t' ht').later.thread ((hnext t' ht').leads.clear hact)

end CoScript
