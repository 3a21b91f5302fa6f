import CoScript.Proofs.Eval.Access
import CoScript.Proofs.Reach.Turns

/-!
# The rounds of a `for` loop

A `for` loop that starts with a declaration evaluates it in a scope of its own. Each round has a
scope of its own too: the first one a copy of the scope of the declaration, each later one a copy of
the scope of the round before, as it is when the body of that round has come to its end. The update
runs in the new scope, then the check, then the body. The parts of a round may wait, start tasks and
make functions, and the loop need not come to an end.

Results:
* `ForLoop.Goes`: the moments of a loop, part by part.
* `ForLoop.goes_of_chain`: what a thread goes through from the start of a loop on.
-/

namespace CoScript

open Effect

/-! ## Specification -/

/-- A part of a `for` loop, with the scope that it runs in. -/
inductive ForPart where
  | start
  | init (own : Ref .scope)
  | check (round : Ref .scope)
  | body (round : Ref .scope)
  | update (round : Ref .scope)
  | after

/-- The frame that waits for a part of a loop. -/
def ForPart.frame? (loop : ForLoop) : ForPart → Option Frame
  | .init own => some (.forStart loop own)
  | .check round => some (.forTest loop round)
  | .body round => some (.forBody loop round)
  | .update round => some (.forUpdate loop round)
  | .start | .after => none

namespace ForLoop

/-- What comes first once a round has its values: its check, or its body if there is no
    condition. -/
def opening (loop : ForLoop) (round : Ref .scope) : ForPart × Control :=
  match loop.condition with
  | some e => (.check round, .eval e round)
  | none => (.body round, .exec loop.body round)

/-- What comes first in a round after another: the update, if there is one. -/
def reopening (loop : ForLoop) (round : Ref .scope) : ForPart × Control :=
  match loop.update with
  | some e => (.update round, .eval e round)
  | none => loop.opening round

end ForLoop

namespace Moment

/-- The scope that is made next. -/
def fresh (m : Moment) : Ref .scope :=
  ⟨m.world.heap.scopes.cells.size⟩

/-- The world with a copy of a scope. -/
def copying (m : Moment) (r : Ref .scope) : World :=
  m.world.withScope (m.world.heap.scopes.get r)

/-- The first moment of a part of a loop. -/
def begins (m : Moment) (loop : ForLoop) (world : World) (part : ForPart × Control)
    (below : List Frame) : Moment :=
  ⟨world, { m.thread with control := part.2, stack := (part.1.frame? loop).toList ++ below }⟩

end Moment

/-- A thread that started a `for` statement has gone through some moments and is at another one, in
    a part of the statement. The scopes are those of the rounds up to then, the last one first. -/
inductive ForLoop.Goes (d : VarDecl) (loop : ForLoop) (scope : Ref .scope) (below : List Frame) :
    List (Ref .scope) → ForPart → List Moment → Moment → Prop
  | start {pos : Position} {m : Moment} (hs : m.thread.stack = below)
    (hc : m.thread.control =
      .exec (.forLoop pos (some (.declare d)) loop.condition loop.update loop.body) scope) :
    Goes d loop scope below [] .start [] m
  /-- the declaration gets a scope of its own -/
  | init {ms : List Moment} {m : Moment} (h : Goes d loop scope below [] .start ms m) :
    Goes d loop scope below [] (.init m.fresh) (ms ++ [m])
      (m.begins loop (m.world.withScope (blockScope scope none))
        (.init m.fresh, .exec (.varDecl d) m.fresh) below)
  /-- a part is in progress -/
  | within {rounds : List (Ref .scope)} {part : ForPart} {f : Frame} {ms : List Moment}
    {m m' : Moment} (h : Goes d loop scope below rounds part ms m)
    (hf : part.frame? loop = some f) (hm : m.Within (f :: below)) (hstep : m.Step m') :
    Goes d loop scope below rounds part (ms ++ [m]) m'
  /-- the first round gets a copy of the scope of the declaration -/
  | first {own : Ref .scope} {ms : List Moment} {m : Moment}
    (h : Goes d loop scope below [] (.init own) ms m)
    (hm : m.Ended (.forStart loop own :: below) none) :
    Goes d loop scope below [m.fresh] (loop.opening m.fresh).1 (ms ++ [m])
      (m.begins loop (m.copying own) (loop.opening m.fresh) below)
  /-- the condition holds -/
  | holds {r : Ref .scope} {rounds : List (Ref .scope)} {ms : List Moment} {m : Moment} {v : Value}
    (h : Goes d loop scope below (r :: rounds) (.check r) ms m)
    (hs : m.thread.stack = .forTest loop r :: below) (hc : m.thread.control = .ret v)
    (hv : v.isTruthy = true) :
    Goes d loop scope below (r :: rounds) (.body r) (ms ++ [m])
      (m.begins loop m.world (.body r, .exec loop.body r) below)
  /-- the condition does not hold -/
  | fails {r : Ref .scope} {rounds : List (Ref .scope)} {ms : List Moment} {m : Moment} {v : Value}
    (h : Goes d loop scope below (r :: rounds) (.check r) ms m)
    (hs : m.thread.stack = .forTest loop r :: below) (hc : m.thread.control = .ret v)
    (hv : v.isTruthy = false) :
    Goes d loop scope below (r :: rounds) .after (ms ++ [m]) (m.left none below)
  /-- the next round gets a copy of the scope of a round whose body is at its end -/
  | next {r : Ref .scope} {rounds : List (Ref .scope)} {ms : List Moment} {m : Moment}
    {how : Option Abrupt} (h : Goes d loop scope below (r :: rounds) (.body r) ms m)
    (hm : m.Ended (.forBody loop r :: below) how) (hhow : how = none ∨ how = some .continueOn) :
    Goes d loop scope below (m.fresh :: r :: rounds) (loop.reopening m.fresh).1 (ms ++ [m])
      (m.begins loop (m.copying r) (loop.reopening m.fresh) below)
  /-- the update is at its end -/
  | updated {r : Ref .scope} {rounds : List (Ref .scope)} {ms : List Moment} {m : Moment}
    (h : Goes d loop scope below (r :: rounds) (.update r) ms m)
    (hm : m.Ended (.forUpdate loop r :: below) none) :
    Goes d loop scope below (r :: rounds) (loop.opening r).1 (ms ++ [m])
      (m.begins loop m.world (loop.opening r) below)
  | breaks {r : Ref .scope} {rounds : List (Ref .scope)} {ms : List Moment} {m : Moment}
    (h : Goes d loop scope below (r :: rounds) (.body r) ms m)
    (hm : m.Ended (.forBody loop r :: below) (some .breakOut)) :
    Goes d loop scope below (r :: rounds) .after (ms ++ [m]) (m.left none below)
  /-- any other jump leaves the statement -/
  | jumps {rounds : List (Ref .scope)} {part : ForPart} {f : Frame} {ms : List Moment} {m : Moment}
    {how : Abrupt} (h : Goes d loop scope below rounds part ms m)
    (hf : part.frame? loop = some f) (hm : m.Ended (f :: below) (some how))
    (hhow : ∀ r, part = .body r → how ≠ .breakOut ∧ how ≠ .continueOn) :
    Goes d loop scope below rounds .after (ms ++ [m]) (m.left (some how) below)
  /-- the statement is left, and the thread goes on -/
  | beyond {rounds : List (Ref .scope)} {ms : List Moment} {m m' : Moment}
    (h : Goes d loop scope below rounds .after ms m) (hstep : m.Step m') :
    Goes d loop scope below rounds .after (ms ++ [m]) m'

/-! ## Parts of a loop -/

namespace ForLoop

variable {d : VarDecl} {loop : ForLoop} {scope : Ref .scope} {below : List Frame}
  {rounds : List (Ref .scope)} {part : ForPart} {ms : List Moment} {m m' : Moment}

/-- The frame that waits for a part is on the stack. -/
theorem Goes.above {f : Frame} (h : Goes d loop scope below rounds part ms m)
    (hf : part.frame? loop = some f) : f :: below <:+ m.thread.stack := by
  cases h with
  | start | fails | breaks | jumps | beyond => cases hf
  | within h hf' hm hstep =>
    obtain rfl := Option.some.inj (hf.symm.trans hf')
    exact hstep.above hm.goes_on hm.above
  | init | first | holds | next | updated =>
    simp only [Moment.begins, hf, Option.toList_some, List.singleton_append]
    exact List.suffix_rfl

theorem Goes.starts (h : Goes d loop scope below rounds .start ms m) :
    rounds = [] ∧ m.thread.stack = below ∧ ∃ pos, m.thread.control =
      .exec (.forLoop pos (some (.declare d)) loop.condition loop.update loop.body) scope := by
  generalize hpart : ForPart.start = part at h
  cases h with
  | start hs hc => exact ⟨rfl, hs, _, hc⟩
  | within h hf => subst hpart; cases hf
  | first | updated =>
    unfold opening at hpart
    split at hpart <;> cases hpart
  | next =>
    unfold reopening opening at hpart
    split at hpart
    · cases hpart
    · split at hpart <;> cases hpart
  | _ => cases hpart

/-- The current round is the last one. -/
def Fits (rounds : List (Ref .scope)) : ForPart → Prop
  | .start | .init _ => rounds = []
  | .check round | .body round | .update round => ∃ rest, rounds = round :: rest
  | .after => True

theorem fits_opening (r : Ref .scope) (rest : List (Ref .scope)) :
    Fits (r :: rest) (loop.opening r).1 := by
  unfold opening
  split <;> exact ⟨rest, rfl⟩

theorem Goes.fits (h : Goes d loop scope below rounds part ms m) : Fits rounds part := by
  induction h with
  | start | init => rfl
  | within _ _ _ _ ih => exact ih
  | first | updated => exact fits_opening _ _
  | holds => exact ⟨_, rfl⟩
  | next =>
    unfold reopening
    split
    · exact ⟨_, rfl⟩
    · exact fits_opening _ _
  | _ => trivial

/-! ## From moment to moment -/

/-- A test begins as the opening of a round. -/
theorem testFor_eq (r : Ref .scope) : testFor loop r below =
    .go (loop.opening r).2 (((loop.opening r).1.frame? loop).toList ++ below) := by
  unfold testFor opening
  cases loop.condition <;> rfl

theorem run_startFor (w : World) (own : Ref .scope) : (startFor loop own below).run w =
    (.ok (testFor loop ⟨w.heap.scopes.cells.size⟩ below),
      w.withScope (w.heap.scopes.get own)) :=
  rfl

theorem run_nextFor (w : World) (r : Ref .scope) : (nextFor loop r below).run w =
    (.ok (.go (loop.reopening ⟨w.heap.scopes.cells.size⟩).2
        (((loop.reopening ⟨w.heap.scopes.cells.size⟩).1.frame? loop).toList ++ below)),
      w.withScope (w.heap.scopes.get r)) := by
  have hcopy {β : Type} (f : Ref .scope → Effect β) :
      (inHeap (·.copyScope r) >>= f).run w =
        (f ⟨w.heap.scopes.cells.size⟩).run (w.withScope (w.heap.scopes.get r)) := rfl
  rw [nextFor, hcopy]
  unfold reopening
  cases loop.update with
  | some e => rfl
  | none => exact congrArg (fun move => (Except.ok move, _)) (testFor_eq _)

/-- A declaration at its end leads to the first round. -/
theorem run_first {own : Ref .scope} (hm : m.Ended (.forStart loop own :: below) none)
    (ps : Promises) : (m.thread.step ps).run m.world =
      (.ok (.go (loop.opening m.fresh).2
        (((loop.opening m.fresh).1.frame? loop).toList ++ below)), m.copying own) := by
  cases hm with
  | normal w v base =>
    exact (run_startFor w own).trans (congrArg (fun move => (Except.ok move, _)) (testFor_eq _))

/-- A body at its end leads to the next round. -/
theorem run_next {r : Ref .scope} {how : Option Abrupt}
    (hm : m.Ended (.forBody loop r :: below) how) (hhow : how = none ∨ how = some .continueOn)
    (ps : Promises) : (m.thread.step ps).run m.world =
      (.ok (.go (loop.reopening m.fresh).2
        (((loop.reopening m.fresh).1.frame? loop).toList ++ below)), m.copying r) := by
  cases hm with
  | normal w v base => exact run_nextFor w r
  | abrupt w jump base =>
    obtain rfl : jump = .continueOn := by simpa using hhow
    exact run_nextFor w r

section Step

variable {r own : Ref .scope} {rest : List (Ref .scope)} {f : Frame} {how : Option Abrupt}

/-- A jump that the loop does not catch. -/
theorem Goes.step_jump {jump : Abrupt} (h : Goes d loop scope below rounds part ms m)
    (hstep : m.Step m') (hf : part.frame? loop = some f) (hm : m.Ended (f :: below) (some jump))
    (hjump : ∀ r, part = .body r → jump ≠ .breakOut ∧ jump ≠ .continueOn)
    (hunwind : f.unwind jump below = Pure.pure (.go (.leave jump) below)) :
    Goes d loop scope below rounds .after (ms ++ [m]) m' := by
  have heq : m' = m.left (some jump) below := hstep.eq_of_go fun ps => by
    cases hm with
    | abrupt w jump base => exact congrArg (fun x : Effect Move => x.run w) hunwind
  exact heq ▸ .jumps h hf hm hjump

theorem Goes.step_start (h : Goes d loop scope below rounds .start ms m) (hstep : m.Step m') :
    Goes d loop scope below [] (.init m.fresh) (ms ++ [m]) m' := by
  obtain ⟨rfl, hs, pos, hc⟩ := h.starts
  have heq : m' = m.begins loop (m.world.withScope (blockScope scope none))
      (.init m.fresh, .exec (.varDecl d) m.fresh) below := hstep.eq_of_go fun ps => by
    obtain ⟨w, control, stack, base⟩ := m
    dsimp only at hs hc
    subst hs hc
    rfl
  exact heq ▸ .init h

/-- The declaration has come to its end. -/
theorem Goes.step_init (h : Goes d loop scope below [] (.init own) ms m) (hstep : m.Step m')
    (hm : m.Ended (.forStart loop own :: below) how) :
    ∃ rounds' part', Goes d loop scope below rounds' part' (ms ++ [m]) m' := by
  cases how with
  | none =>
    obtain rfl : m' = m.begins loop (m.copying own) (loop.opening m.fresh) below :=
      hstep.eq_of_go (run_first hm)
    exact ⟨_, _, .first h hm⟩
  | some jump => exact ⟨_, _, h.step_jump hstep rfl hm (by simp) (by cases jump <;> rfl)⟩

/-- The check has come to its end. -/
theorem Goes.step_check (h : Goes d loop scope below (r :: rest) (.check r) ms m)
    (hstep : m.Step m') (hm : m.Ended (.forTest loop r :: below) how) :
    ∃ rounds' part', Goes d loop scope below rounds' part' (ms ++ [m]) m' := by
  cases how with
  | none =>
    have hrun (v : Value) (w : World) (ps : Promises) :
        ((Frame.forTest loop r).receive ps v below).run w = (.ok (if v.isTruthy
          then .go (.exec loop.body r) (.forBody loop r :: below) else .done below), w) := by
      unfold Frame.receive
      dsimp only
      split <;> rfl
    cases hm with
    | normal w v base =>
      cases hv : v.isTruthy with
      | true =>
        obtain rfl : m' = Moment.begins ⟨w, ⟨.ret v, .forTest loop r :: below, base⟩⟩ loop w
            (.body r, .exec loop.body r) below :=
          hstep.eq_of_go fun ps => (hrun v w ps).trans (by rw [if_pos hv]; rfl)
        exact ⟨_, _, .holds h rfl rfl hv⟩
      | false =>
        obtain rfl : m' = Moment.left ⟨w, ⟨.ret v, .forTest loop r :: below, base⟩⟩ none below :=
          hstep.eq_of_go fun ps => (hrun v w ps).trans (by rw [hv]; rfl)
        exact ⟨_, _, .fails h rfl rfl hv⟩
  | some jump => exact ⟨_, _, h.step_jump hstep rfl hm (by simp) (by cases jump <;> rfl)⟩

/-- The body has come to its end, or is left by a jump. -/
theorem Goes.step_body (h : Goes d loop scope below (r :: rest) (.body r) ms m)
    (hstep : m.Step m') (hm : m.Ended (.forBody loop r :: below) how) :
    ∃ rounds' part', Goes d loop scope below rounds' part' (ms ++ [m]) m' := by
  by_cases hhow : how = none ∨ how = some .continueOn
  · obtain rfl : m' = m.begins loop (m.copying r) (loop.reopening m.fresh) below :=
      hstep.eq_of_go (run_next hm hhow)
    exact ⟨_, _, .next h hm hhow⟩
  · cases how with
    | none => exact absurd (.inl rfl) hhow
    | some jump =>
      cases jump with
      | breakOut =>
        obtain rfl : m' = m.left none below := hstep.eq_of_go fun ps => by
          cases hm with
          | abrupt w jump base => rfl
        exact ⟨_, _, .breaks h hm⟩
      | continueOn => exact absurd (.inr rfl) hhow
      | returned => exact ⟨_, _, h.step_jump hstep rfl hm (by simp) rfl⟩
      | thrown => exact ⟨_, _, h.step_jump hstep rfl hm (by simp) rfl⟩

/-- The update has come to its end. -/
theorem Goes.step_update (h : Goes d loop scope below (r :: rest) (.update r) ms m)
    (hstep : m.Step m') (hm : m.Ended (.forUpdate loop r :: below) how) :
    ∃ rounds' part', Goes d loop scope below rounds' part' (ms ++ [m]) m' := by
  cases how with
  | none =>
    obtain rfl : m' = m.begins loop m.world (loop.opening r) below :=
      hstep.eq_of_go fun ps => by
        cases hm with
        | normal w v base => exact congrArg (fun move => (Except.ok move, w)) (testFor_eq r)
    exact ⟨_, _, .updated h hm⟩
  | some jump => exact ⟨_, _, h.step_jump hstep rfl hm (by simp) (by cases jump <;> rfl)⟩

/-- A thread that is in a part of a statement goes on as the statement says. -/
theorem Goes.step (h : Goes d loop scope below rounds part ms m) (hstep : m.Step m') :
    ∃ rounds' part', Goes d loop scope below rounds' part' (ms ++ [m]) m' := by
  have hfits := h.fits
  cases part with
  | start => exact ⟨_, _, h.step_start hstep⟩
  | init own =>
    obtain rfl : rounds = [] := hfits
    obtain hw | ⟨how, hend⟩ := Moment.within_or_ended (h.above rfl)
    · exact ⟨_, _, .within h rfl hw hstep⟩
    · exact h.step_init hstep hend
  | check r =>
    obtain ⟨rest, rfl⟩ := hfits
    obtain hw | ⟨how, hend⟩ := Moment.within_or_ended (h.above rfl)
    · exact ⟨_, _, .within h rfl hw hstep⟩
    · exact h.step_check hstep hend
  | body r =>
    obtain ⟨rest, rfl⟩ := hfits
    obtain hw | ⟨how, hend⟩ := Moment.within_or_ended (h.above rfl)
    · exact ⟨_, _, .within h rfl hw hstep⟩
    · exact h.step_body hstep hend
  | update r =>
    obtain ⟨rest, rfl⟩ := hfits
    obtain hw | ⟨how, hend⟩ := Moment.within_or_ended (h.above rfl)
    · exact ⟨_, _, .within h rfl hw hstep⟩
    · exact h.step_update hstep hend
  | after => exact ⟨_, _, .beyond h hstep⟩

end Step

/-- Whatever a thread goes through from the start of a `for` statement on, it goes through the parts
    of the statement. -/
theorem goes_of_chain {first : Moment} {pos : Position} (hs : first.thread.stack = below)
    (hc : first.thread.control =
      .exec (.forLoop pos (some (.declare d)) loop.condition loop.update loop.body) scope)
    (hchain : (first :: ms).IsChain Moment.Step) :
    ∃ before now, first :: ms = before ++ [now] ∧
      ∃ rounds part, Goes d loop scope below rounds part before now :=
  Moment.along_chain ⟨_, _, .start hs hc⟩ (fun ⟨_, _, h⟩ hstep => h.step hstep) hchain

end ForLoop

end CoScript
