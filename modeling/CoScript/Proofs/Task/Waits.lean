import CoScript.Proofs.Task.History
import Mathlib.Data.List.Induction
import Mathlib.Data.List.Nodup

/-!
# The waits of a history

A history tells when each body begins to wait, and so when its wait comes to an end: at once if it
waits for a plain value or for a task that has ended, and else with the end of the task. It also
tells from which wait a body goes on, the last one of its task.

Results:
* `suspensions`, `readied`, `resumed`: the waits of a history, as they begin, as they come to an
  end, and as bodies go on from them.
* `mem_readied_iff`: the waits that have come to an end are those for something at hand.
* `Gets`: what a body gets that goes on from a wait.
-/

namespace CoScript

/-! ## Histories, event by event -/

section History

variable {ν α : Type}

/-- What the events of a history give one after the other, each with a view to those before it. The
    events `before` come first, and give nothing. -/
def gatherAfter (f : List (Event ν) → Event ν → List α) (before : List (Event ν)) :
    List (Event ν) → List α
  | [] => []
  | e :: es => f before e ++ gatherAfter f (before ++ [e]) es

/-- What the events of a history give one after the other, each with a view to those before it. -/
def gather (f : List (Event ν) → Event ν → List α) (es : List (Event ν)) : List α :=
  gatherAfter f [] es

theorem gather_concat (f : List (Event ν) → Event ν → List α) (es : List (Event ν)) (e : Event ν) :
    gather f (es ++ [e]) = gather f es ++ f es e := by
  have after (before : List (Event ν)) :
      gatherAfter f before (es ++ [e]) = gatherAfter f before es ++ f (before ++ es) e := by
    induction es generalizing before with
    | nil => simp [gatherAfter]
    | cons d es ih => simp [gatherAfter, ih]
  exact after []

/-- Whether a task was started. -/
def hasStarted (es : List (Event ν)) (id : TaskId) : Bool :=
  es.any fun
    | .started i _ => i = id
    | _ => false

/-- Whether a task has ended. -/
def hasEnded (es : List (Event ν)) (id : TaskId) : Bool :=
  es.any fun
    | .settled i _ => i = id
    | _ => false

/-- A body that waits: the number of events before, whose body it is, and what it waits for. -/
structure Suspension (ν : Type) where
  place : ℕ
  task : TaskId
  awaited : Awaited ν

/-- Whether a body waits for a task. -/
def Suspension.isFor (w : Suspension ν) (id : TaskId) : Bool :=
  match w.awaited with
  | .value _ => false
  | .task i => i = id

variable [Inhabited ν]

/-- What a body waits for after a history. A task that has not been started is waited for as a plain
    value. -/
def Awaited.known (es : List (Event ν)) : Awaited ν → Awaited ν
  | .value v => .value v
  | .task id => if hasStarted es id then .task id else .value default

omit [Inhabited ν] in
/-- Whether something is not yet at hand after a history. -/
def Awaited.isOpen (es : List (Event ν)) : Awaited ν → Bool
  | .value _ => false
  | .task id => !hasEnded es id

/-- The wait of a body that comes next after a history. -/
def suspension (es : List (Event ν)) (p : TaskId) (a : Awaited ν) : Suspension ν :=
  ⟨es.length, p, a.known es⟩

/-- All waits of a history, as they begin. -/
def suspensions (es : List (Event ν)) : List (Suspension ν) :=
  gather (fun before e =>
    match e with
    | .awaited p a => [suspension before p a]
    | _ => []) es

/-- The waits of a history that have come to an end, in turn. A wait for something at hand comes to
    its end as it begins; the waits for a task come to their end together, in the order in which
    they began, when the task ends. -/
def readied (es : List (Event ν)) : List (Suspension ν) :=
  gather (fun before e =>
    match e with
    | .awaited p a =>
      if (a.known before).isOpen before then [] else [suspension before p a]
    | .settled id _ => (suspensions before).filter (·.isFor id)
    | _ => []) es

/-- The last wait of a task. -/
def latest (es : List (Event ν)) (p : TaskId) : Option (Suspension ν) :=
  ((suspensions es).filter (·.task = p)).getLast?

/-- The waits of a history that bodies have gone on from, in turn: a body goes on from the last wait
    of its task. -/
def resumed (es : List (Event ν)) : List (Suspension ν) :=
  gather (fun before e =>
    match e with
    | .resumed p _ => (latest before p).toList
    | _ => []) es

/-- What bodies get that wait for a task in this state. No body gets anything for a pending task. -/
def TaskState.outcome : TaskState ν → Delivery ν
  | .pending => .value default
  | .fulfilled v => .value v
  | .thrown v pos => .thrown v pos
  | .failed f => .failed f

/-- What a body gets after a history: the plain value that it waited for, or the outcome of the
    task. -/
inductive Gets (es : List (Event ν)) : Awaited ν → Delivery ν → Prop
  | value (v : ν) : Gets es (.value v) (.value v)
  | task {id : TaskId} {state : TaskState ν} (h : .settled id state ∈ es) :
    Gets es (.task id) state.outcome

/-- Something holds of each event of a history and the events before it. -/
def Throughout (P : List (Event ν) → Event ν → Prop) (es : List (Event ν)) : Prop :=
  ∀ before e after, es = before ++ e :: after → P before e

/-- A body that goes on gets what its task last waited for. -/
def Faithfully (before : List (Event ν)) (e : Event ν) : Prop :=
  ∀ p got, e = .resumed p got → ∃ w, latest before p = some w ∧ Gets before w.awaited got

/-! ### One more event -/

section Concat

variable {es : List (Event ν)} {e : Event ν} {p id : TaskId} {a : Awaited ν} {w : Suspension ν}

omit [Inhabited ν] in
theorem throughout_concat {P : List (Event ν) → Event ν → Prop} (h : Throughout P es)
    (he : P es e) : Throughout P (es ++ [e]) := by
  intro before d after heq
  induction after using List.reverseRecOn with
  | nil =>
    obtain ⟨rfl, hd⟩ := List.append_inj' heq rfl
    rwa [← List.singleton_inj.mp hd]
  | append_singleton after f _ =>
    rw [← List.cons_append, ← List.append_assoc] at heq
    exact h before d after (List.append_inj' heq rfl).1

omit [Inhabited ν] in
theorem hasEnded_iff : hasEnded es id = true ↔ ∃ state, .settled id state ∈ es := by
  rw [hasEnded, List.any_eq_true]
  constructor
  · rintro ⟨e, he, hid⟩
    cases e with
    | settled i state =>
      obtain rfl : i = id := by simpa using hid
      exact ⟨state, he⟩
    | _ => simp at hid
  · rintro ⟨state, he⟩
    exact ⟨_, he, by simp⟩

theorem suspensions_awaited :
    suspensions (es ++ [.awaited p a]) = suspensions es ++ [suspension es p a] :=
  gather_concat ..

theorem suspensions_concat (he : ∀ p a, e ≠ .awaited p a) :
    suspensions (es ++ [e]) = suspensions es := by
  rw [suspensions, gather_concat, ← suspensions]
  cases e with
  | awaited p a => exact absurd rfl (he p a)
  | _ => exact List.append_nil _

theorem readied_awaited : readied (es ++ [.awaited p a]) =
    readied es ++ if (a.known es).isOpen es then [] else [suspension es p a] :=
  gather_concat ..

theorem readied_settled (state : TaskState ν) : readied (es ++ [.settled id state]) =
    readied es ++ (suspensions es).filter (·.isFor id) :=
  gather_concat ..

theorem readied_concat (he : ∀ p a, e ≠ .awaited p a) (hs : ∀ id state, e ≠ .settled id state) :
    readied (es ++ [e]) = readied es := by
  rw [readied, gather_concat, ← readied]
  cases e with
  | awaited p a => exact absurd rfl (he p a)
  | settled id state => exact absurd rfl (hs id state)
  | _ => exact List.append_nil _

theorem resumed_resumed (got : Delivery ν) :
    resumed (es ++ [.resumed p got]) = resumed es ++ (latest es p).toList :=
  gather_concat ..

theorem resumed_concat (he : ∀ p got, e ≠ .resumed p got) : resumed (es ++ [e]) = resumed es := by
  rw [resumed, gather_concat, ← resumed]
  cases e with
  | resumed p got => exact absurd rfl (he p got)
  | _ => exact List.append_nil _

theorem latest_awaited (x : TaskId) : latest (es ++ [.awaited p a]) x =
    if p = x then some (suspension es p a) else latest es x := by
  unfold latest
  rw [suspensions_awaited, List.filter_append]
  by_cases hx : p = x <;> simp [suspension, hx]

theorem latest_concat (he : ∀ p a, e ≠ .awaited p a) (x : TaskId) :
    latest (es ++ [e]) x = latest es x := by
  rw [latest, suspensions_concat he, ← latest]

omit [Inhabited ν] in
theorem hasStarted_started (isMain : Bool) (x : TaskId) :
    hasStarted (es ++ [.started id isMain]) x = (hasStarted es x || decide (id = x)) := by
  simp [hasStarted]

omit [Inhabited ν] in
theorem hasStarted_concat (hs : ∀ id isMain, e ≠ .started id isMain) (x : TaskId) :
    hasStarted (es ++ [e]) x = hasStarted es x := by
  unfold hasStarted
  rw [List.any_append]
  cases e with
  | started i isMain => exact absurd rfl (hs i isMain)
  | _ => simp

omit [Inhabited ν] in
theorem hasEnded_settled (state : TaskState ν) (x : TaskId) :
    hasEnded (es ++ [.settled id state]) x = (hasEnded es x || decide (id = x)) := by
  simp [hasEnded]

omit [Inhabited ν] in
theorem hasEnded_concat (hs : ∀ id state, e ≠ .settled id state) (x : TaskId) :
    hasEnded (es ++ [e]) x = hasEnded es x := by
  unfold hasEnded
  rw [List.any_append]
  cases e with
  | settled i state => exact absurd rfl (hs i state)
  | _ => simp

omit [Inhabited ν] in
theorem Awaited.isOpen_concat (hs : ∀ id state, e ≠ .settled id state) (a : Awaited ν) :
    a.isOpen (es ++ [e]) = a.isOpen es := by
  cases a with
  | value v => rfl
  | task id => exact congrArg (!·) (hasEnded_concat hs id)

omit [Inhabited ν] in
theorem Suspension.isOpen_settled (state : TaskState ν) :
    w.awaited.isOpen (es ++ [.settled id state]) = (w.awaited.isOpen es && !w.isFor id) := by
  unfold Awaited.isOpen Suspension.isFor
  cases w.awaited with
  | value v => rfl
  | task i =>
    dsimp only
    rw [hasEnded_settled, Bool.not_or]
    simp only [eq_comm]

omit [Inhabited ν] in
theorem Suspension.awaited_of_isFor (hw : w.isFor id) : w.awaited = .task id := by
  unfold Suspension.isFor at hw
  cases ha : w.awaited with
  | value v => simp [ha] at hw
  | task i =>
    rw [ha] at hw
    exact congrArg Awaited.task (of_decide_eq_true hw)

/-! ### Places of waits -/

theorem place_lt (hw : w ∈ suspensions es) : w.place < es.length := by
  induction es using List.reverseRecOn with
  | nil => cases hw
  | append_singleton es e ih =>
    rw [List.length_append, List.length_singleton]
    cases e with
    | awaited p a =>
      rw [suspensions_awaited, List.mem_append, List.mem_singleton] at hw
      obtain hw | rfl := hw
      · exact Nat.lt_succ_of_lt (ih hw)
      · exact Nat.lt_succ_self _
    | _ =>
      rw [suspensions_concat (by simp)] at hw
      exact Nat.lt_succ_of_lt (ih hw)

theorem suspension_notMem : suspension es p a ∉ suspensions es :=
  fun hw => Nat.lt_irrefl _ (place_lt hw)

theorem suspensions_nodup (es : List (Event ν)) : (suspensions es).Nodup := by
  induction es using List.reverseRecOn with
  | nil => exact List.nodup_nil
  | append_singleton es e ih =>
    cases e with
    | awaited p a =>
      rw [suspensions_awaited]
      exact ih.append (List.nodup_singleton _) (by simp [suspension_notMem])
    | _ => rwa [suspensions_concat (by simp)]

/-- Only a task that was started is waited for. -/
theorem hasStarted_of_isFor (hw : w ∈ suspensions es) (hfor : w.isFor id) : hasStarted es id := by
  have mono {es : List (Event ν)} (e : Event ν) (h : hasStarted es id) :
      hasStarted (es ++ [e]) id := by
    unfold hasStarted at h ⊢
    rw [List.any_append, h, Bool.true_or]
  induction es using List.reverseRecOn with
  | nil => cases hw
  | append_singleton es e ih =>
    cases e with
    | awaited p a =>
      rw [suspensions_awaited, List.mem_append, List.mem_singleton] at hw
      obtain hw | rfl := hw
      · exact mono _ (ih hw)
      · refine mono _ ?_
        cases a with
        | value v => cases hfor
        | task i =>
          by_cases hi : hasStarted es i
          · obtain rfl : i = id := by simpa [suspension, Suspension.isFor,
              Awaited.known, hi] using hfor
            exact hi
          · simp [suspension, Suspension.isFor, Awaited.known, hi] at hfor
    | _ =>
      rw [suspensions_concat (by simp)] at hw
      exact mono _ (ih hw)

/-! ### Waits that have come to an end -/

/-- The waits that have come to an end are those for something at hand. -/
theorem mem_readied_iff : w ∈ readied es ↔ w ∈ suspensions es ∧ w.awaited.isOpen es = false := by
  induction es using List.reverseRecOn with
  | nil => simp [readied, suspensions, gather, gatherAfter]
  | append_singleton es e ih =>
    cases e with
    | awaited p a =>
      have hnew : w ∈ (if (a.known es).isOpen es then [] else [suspension es p a]) ↔
          w = suspension es p a ∧ w.awaited.isOpen es = false := by
        have hopen : w = suspension es p a → w.awaited.isOpen es = (a.known es).isOpen es := by
          rintro rfl
          rfl
        cases hknown : (a.known es).isOpen es <;> rw [hknown] at hopen <;> simpa using hopen
      rw [readied_awaited, suspensions_awaited, Awaited.isOpen_concat (by simp), List.mem_append,
        List.mem_append, List.mem_singleton, or_and_right, ih, hnew]
    | settled id state =>
      rw [readied_settled, suspensions_concat (by simp), Suspension.isOpen_settled, List.mem_append,
        List.mem_filter, ih, ← and_or_left]
      refine and_congr_right fun _ => ?_
      cases w.awaited.isOpen es <;> cases w.isFor id <;> decide
    | _ =>
      rw [readied_concat (by simp) (by simp), suspensions_concat (by simp),
        Awaited.isOpen_concat (by simp), ih]

end Concat

end History

end CoScript
