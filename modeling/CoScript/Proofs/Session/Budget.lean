import CoScript.Proofs.Session.Basic
import CoScript.Proofs.Task.Budget
import Mathlib.Algebra.GroupWithZero.Nat

/-!
# The limit of turns in a session

All operations of a session count their turns together, against one limit: what an operation takes
is missing to those after it. How many turns an operation takes depends on the session, but not on
how many were taken before.

Results:
* `Session.Metered`: a computation that takes a number of turns that its budget does not change.
* `Session.metered_run`, `Session.metered_call`: operations are such computations.
* `Session.Operated.limit_iff`: after operations that ended normally, an operation ends at the limit
  if they and it take more turns together than the limit allows.
-/

namespace CoScript

namespace Session

variable {s s' : Session} {fuel : ℕ} {name : String}

/-- A session that has given other turns and has another limit. -/
def withBudget (s : Session) (used limit : ℕ) : Session :=
  { s with machine := s.machine.withBudget used limit }

/-- How many turns a computation takes. -/
abbrev Takes {α : Type} (x : InSession α) (s : Session) (turns : ℕ) (out : Except Fault α)
    (s' : Session) : Prop :=
  Spends sched withBudget Fault.limitReached x.run s turns out s'

/-- A computation that ends, but not at the limit, takes a number of turns that its budget does not
    change. -/
def Metered {α : Type} (x : InSession α) : Prop :=
  ∀ s out s', x.run s = some (out, s') → out ≠ .error (.limitReached s.sched.maxSteps) →
    ∃ turns, Takes x s turns out s'

/-! ## Computations that do not see the budget -/

/-- A computation that goes the same way under each budget, and leaves it as it is. -/
def Blind {α : Type} (x : InSession α) : Prop :=
  ∀ s out s', x.run s = some (out, s') →
    ∀ used limit, x.run (s.withBudget used limit) = some (out, s'.withBudget used limit)

namespace Blind

variable {α β : Type} {x : InSession α} {f : α → InSession β}

theorem pure {a : α} : Blind (Pure.pure a : InSession α) := by
  rintro s _ _ ⟨⟩ used limit
  rfl

theorem throw {fault : Fault} : Blind (MonadExcept.throw fault : InSession α) := by
  rintro s _ _ ⟨⟩ used limit
  rfl

/-- A computation that starts by looking at the session, but not at the budget. -/
theorem withState {f : Session → InSession α} (hf : ∀ s, Blind (f s))
    (hbudget : ∀ s used limit, f (s.withBudget used limit) = f s) :
    Blind (MonadState.get >>= f) := by
  intro s out s' h used limit
  rw [InSession.run_get_bind] at h ⊢
  rw [hbudget]
  exact hf s s out s' h used limit

theorem modify {g : Session → Session}
    (hg : ∀ s used limit, g (s.withBudget used limit) = (g s).withBudget used limit) :
    Blind (modify g : InSession Unit) := by
  rintro s _ _ ⟨⟩ used limit
  exact congrArg (fun s => some (Except.ok PUnit.unit, s)) (hg s used limit)

theorem bind (hx : Blind x) (hf : ∀ a, Blind (f a)) : Blind (x >>= f) := by
  intro s out s' h used limit
  rw [InSession.run_bind]
  obtain ⟨a, s₁, hfirst, hrest⟩ | ⟨e, hfirst, rfl⟩ := InSession.bind_eq_some h
  · rw [hx s _ s₁ hfirst used limit]
    exact hf a s₁ out s' hrest used limit
  · rw [hx s _ s' hfirst used limit]
    rfl

theorem mapM {items : List α} {f : α → InSession β} (hf : ∀ a, Blind (f a)) :
    Blind (items.mapM f) := by
  induction items with
  | nil => exact pure
  | cons a items ih =>
    rw [List.mapM_cons]
    exact bind (hf a) fun _ => bind ih fun _ => pure

/-- A computation that does not see the budget takes no turn. -/
theorem metered (hx : Blind x) : Metered x := by
  intro s out s' h _
  have hself := hx s out s' h s.sched.steps s.sched.maxSteps
  change x.run s = _ at hself
  rw [h] at hself
  have hs' := (Prod.mk.inj (Option.some.inj hself)).2
  exact ⟨0, congrArg (·.sched.steps) hs', congrArg (·.sched.maxSteps) hs',
    fun used limit _ => hx s out s' h used limit, fun used limit _ _ => by omega⟩

end Blind

theorem blind_reportAll : Blind reportAll := by
  refine .withState (fun s => .mapM fun id => .withState (fun s => ?_) fun _ _ _ => rfl)
    fun _ _ _ => rfl
  cases s.rejectionFault? id with
  | some fault => exact .bind (.modify fun _ _ _ => rfl) fun _ => .pure
  | none => exact .throw

theorem blind_resultOf {id : TaskId} : Blind (resultOf id) := by
  refine .withState (fun s => ?_) fun _ _ _ => rfl
  split
  · exact .pure
  · split <;> exact .throw
  · exact .throw
  · exact .throw

theorem blind_lookup : Blind (lookup name) := by
  refine .withState (fun s => ?_) fun _ _ _ => rfl
  split
  · exact .pure
  · exact .throw

/-! ## Computations that take turns -/

/-- The turns of a computation in two parts are those of its parts. -/
theorem Metered.bind {α β : Type} {x : InSession α} {f : α → InSession β} (hx : Metered x)
    (hf : ∀ a, Metered (f a)) : Metered (x >>= f) := by
  intro s out s' h hout
  obtain ⟨a, s₁, hfirst, hrest⟩ | ⟨e, hfirst, rfl⟩ := InSession.bind_eq_some h
  · obtain ⟨n, hn⟩ := hx s _ s₁ hfirst (by simp)
    obtain ⟨k, hk⟩ := hf a s₁ out s' hrest (by rwa [hn.maxSteps_eq])
    refine ⟨n + k, ?_, hk.maxSteps_eq.trans hn.maxSteps_eq, fun used limit hle => ?_,
      fun used limit hle hlt => ?_⟩
    · rw [hk.steps_eq, hn.steps_eq, Nat.add_assoc]
    · rw [InSession.run_bind, hn.within used limit (by omega), ← Nat.add_assoc]
      exact hk.within (used + n) limit (by omega)
    · rw [InSession.run_bind]
      by_cases hlast : used + n ≤ limit
      · rw [hn.within used limit hlast]
        exact hk.beyond (used + n) limit hlast (by omega)
      · obtain ⟨s'', hcut, hend⟩ := hn.beyond used limit hle (by omega)
        rw [hcut]
        exact ⟨s'', rfl, hend⟩
  · obtain ⟨n, hn⟩ := hx s _ s' hfirst fun heq => hout (by rw [Except.error.inj heq])
    refine ⟨n, hn.steps_eq, hn.maxSteps_eq, fun used limit hle => ?_,
      fun used limit hle hlt => ?_⟩
    · rw [InSession.run_bind, hn.within used limit hle]
      rfl
    · obtain ⟨s'', hcut, hend⟩ := hn.beyond used limit hle hlt
      rw [InSession.run_bind, hcut]
      exact ⟨s'', rfl, hend⟩

theorem runMain_eq {control : Control} : (runMain fuel name control).run s =
    (Machine.run script fuel name ⟨control, [], 0⟩ s.machine).map fun r =>
      (r.1.mapError Halt.toFault, ⟨r.2, s.reported⟩) := by
  unfold runMain
  rw [InSession.run_get_bind]
  cases Machine.run script fuel name ⟨control, [], 0⟩ s.machine with
  | none => rfl
  | some r =>
    obtain ⟨ended, m⟩ := r
    cases ended <;> rfl

theorem metered_runMain {control : Control} : Metered (runMain fuel name control) := by
  intro s out s' h hout
  obtain ⟨ended, m, hm, rfl, rfl⟩ := runMain_eq_some h
  obtain ⟨n, hn⟩ := Machine.run_spends hm fun heq => hout (by rw [heq]; rfl)
  have hrun (used limit : ℕ) : (runMain fuel name control).run (s.withBudget used limit) =
      (Machine.run script fuel name ⟨control, [], 0⟩ (s.machine.withBudget used limit)).map
        fun r => (r.1.mapError Halt.toFault, ⟨r.2, s.reported⟩) := runMain_eq
  refine ⟨n, hn.steps_eq, hn.maxSteps_eq, fun used limit hle => ?_, fun used limit hle hlt => ?_⟩
  · rw [hrun, hn.within used limit hle]
    rfl
  · obtain ⟨m'', hcut, hend⟩ := hn.beyond used limit hle hlt
    exact ⟨⟨m'', s.reported⟩, by rw [hrun, hcut]; rfl, hend⟩

/-! ## Operations -/

theorem metered_run {program : Program} : Metered (run fuel program) :=
  .bind metered_runMain fun _ => .bind blind_reportAll.metered fun _ =>
    .bind blind_resultOf.metered fun _ =>
      Blind.metered (.withState (fun _ => .pure) fun _ _ _ => rfl)

theorem metered_call {args : List Value} : Metered (call fuel name args) :=
  .bind blind_lookup.metered fun _ => .bind (Blind.modify fun _ _ _ => rfl).metered fun _ =>
    .bind metered_runMain fun _ => .bind blind_reportAll.metered fun _ =>
      .bind blind_resultOf.metered fun _ =>
        Blind.metered (.withState (fun _ => .pure) fun _ _ _ => rfl)

/-! ## Operations one after the other -/

/-- The turns that a computation would take on a session if none had been taken before, and the
    limit were not in its way. -/
def TakesAlone {α : Type} (x : InSession α) (s : Session) (turns : ℕ) : Prop :=
  ∃ limit out alone, x.run (s.withBudget 0 limit) = some (out, alone) ∧
    (∀ n, out ≠ .error (.limitReached n)) ∧ alone.sched.steps = turns

/-- What a computation takes alone it takes under each budget. -/
theorem Metered.takes {α : Type} {x : InSession α} {turns : ℕ} (hx : Metered x)
    (h : TakesAlone x s turns) : ∃ out alone, (∀ n, out ≠ .error (.limitReached n)) ∧
      Takes x (s.withBudget 0 0) turns out alone := by
  obtain ⟨limit, out, alone, hrun, hout, rfl⟩ := h
  obtain ⟨n, hn⟩ := hx _ out alone hrun (hout _)
  have hsteps : alone.sched.steps = n := hn.steps_eq.trans (Nat.zero_add n)
  refine ⟨out, alone.withBudget n 0, hout, ?_⟩
  rw [hsteps]
  exact ⟨(Nat.zero_add n).symm, rfl, hn.within, hn.beyond⟩

section Alone

variable {α : Type} {x : InSession α} {n : ℕ}

/-- A computation ends at the limit if it takes more turns alone than are left. -/
theorem Metered.limit_iff (hx : Metered x) (hn : TakesAlone x s n)
    (hs : s.sched.steps ≤ s.sched.maxSteps) :
    (∃ s', x.run s = some (.error (.limitReached s.sched.maxSteps), s')) ↔
      s.sched.maxSteps < s.sched.steps + n := by
  obtain ⟨out, alone, hout, htakes⟩ := hx.takes hn
  constructor
  · rintro ⟨s', hcut⟩
    refine Nat.lt_of_not_le fun hle => ?_
    have hrun : x.run s = _ := htakes.within s.sched.steps s.sched.maxSteps hle
    rw [hrun] at hcut
    exact hout _ (Prod.mk.inj (Option.some.inj hcut)).1
  · intro hlt
    obtain ⟨s', hcut, -⟩ := htakes.beyond _ _ hs hlt
    exact ⟨s', hcut⟩

/-- A computation that ends normally has taken as many turns as it takes alone. -/
theorem Metered.run_eq (hx : Metered x) (hn : TakesAlone x s n)
    (hs : s.sched.steps ≤ s.sched.maxSteps) {a : α} (h : x.run s = some (.ok a, s')) :
    s'.sched.steps = s.sched.steps + n ∧ s'.sched.maxSteps = s.sched.maxSteps ∧
      s.sched.steps + n ≤ s.sched.maxSteps := by
  obtain ⟨out, alone, -, htakes⟩ := hx.takes hn
  have hle : s.sched.steps + n ≤ s.sched.maxSteps := by
    refine Nat.le_of_not_lt fun hlt => ?_
    obtain ⟨_, hcut⟩ := (hx.limit_iff hn hs).mpr hlt
    rw [h] at hcut
    cases hcut
  have hrun : x.run s = _ := htakes.within s.sched.steps s.sched.maxSteps hle
  rw [h] at hrun
  obtain rfl := (Prod.mk.inj (Option.some.inj hrun)).2
  exact ⟨rfl, rfl, hle⟩

end Alone

/-- Sessions after operations that ended normally, with the turns that each of them takes alone. -/
inductive Operated (config : Config) (host : Host) : List ℕ → Session → Prop
  | new : Operated config host [] (new config host)
  | run {ns : List ℕ} {s s' : Session} {n fuel : ℕ} {program : Program} {result : RunResult}
      (h : Operated config host ns s) (hn : TakesAlone (run fuel program) s n)
      (hr : (run fuel program).run s = some (.ok result, s')) : Operated config host (ns ++ [n]) s'
  | call {ns : List ℕ} {s s' : Session} {n fuel : ℕ} {name : String} {args : List Value}
      {result : Value} (h : Operated config host ns s) (hn : TakesAlone (call fuel name args) s n)
      (hc : (call fuel name args).run s = some (.ok result, s')) :
      Operated config host (ns ++ [n]) s'

section Operations

variable {config : Config} {host : Host} {ns : List ℕ}

/-- All operations have counted their turns together. -/
theorem Operated.used (h : Operated config host ns s) : s.sched.steps = ns.sum ∧
    s.sched.maxSteps = config.maxSteps ∧ ns.sum ≤ config.maxSteps := by
  have step {α : Type} {x : InSession α} {ns : List ℕ} {s s' : Session} {n : ℕ} {a : α}
      (hx : Metered x) (hn : TakesAlone x s n) (hrun : x.run s = some (.ok a, s'))
      (ih : s.sched.steps = ns.sum ∧ s.sched.maxSteps = config.maxSteps ∧
        ns.sum ≤ config.maxSteps) :
      s'.sched.steps = (ns ++ [n]).sum ∧ s'.sched.maxSteps = config.maxSteps ∧
        (ns ++ [n]).sum ≤ config.maxSteps := by
    obtain ⟨hsteps, hmax, hle⟩ := ih
    obtain ⟨hsteps', hmax', hle'⟩ := hx.run_eq hn (by omega) hrun
    rw [List.sum_append, List.sum_singleton]
    omega
  induction h with
  | new => exact ⟨rfl, rfl, Nat.zero_le _⟩
  | run _ hn hr ih => exact step metered_run hn hr ih
  | call _ hn hc ih => exact step metered_call hn hc ih

/-- After operations that ended normally, a run or a call ends at the limit if they and it take more
    turns together than the limit allows, however few it takes alone. -/
theorem Operated.limit_iff (h : Operated config host ns s) {n : ℕ} :
    (∀ fuel program, TakesAlone (Session.run fuel program) s n →
      ((∃ s', (Session.run fuel program).run s =
          some (.error (.limitReached config.maxSteps), s')) ↔ config.maxSteps < ns.sum + n)) ∧
    ∀ fuel name args, TakesAlone (Session.call fuel name args) s n →
      ((∃ s', (Session.call fuel name args).run s =
          some (.error (.limitReached config.maxSteps), s')) ↔ config.maxSteps < ns.sum + n) := by
  obtain ⟨hsteps, hmax, hle⟩ := h.used
  rw [← hsteps, ← hmax] at hle ⊢
  exact ⟨fun _ _ hn => metered_run.limit_iff hn hle, fun _ _ _ hn => metered_call.limit_iff hn hle⟩

/-- Of two runs that take two turns each, the second one ends at a limit of three turns. -/
example :
    ((new ⟨3, false, by decide⟩ (.none 100)).runText 60 "await 1; await 2").bind (fun (_, s) =>
      (s.runText 60 "await 1; await 2").map fun (out, s') => (s.sched.steps, s'.sched.steps,
        match out with
        | .ok _ => ""
        | .error failure => failure.report.text)) =
    some (2, 3, "SchedulerStalled: step limit of 3 reached with tasks still runnable") := by
  decide +kernel

end Operations

end Session

end CoScript
