import CoScript.Proofs.Loop.Rounds
import CoScript.Proofs.Reach.History

/-!
# The scopes of the rounds of a loop

The check and the body of each round of a `for` loop run in a scope that no other round has. The
update runs in the scope of the round that it leads to, which starts with the values that the round
before has left. Once the body of a round has come to its end, neither the loop nor any other task
writes the scope of the round or makes anything inside, except in code that was made inside: a
function that the round made can go on to change what it has captured.

Results:
* `ForLoop.Owns`: what it means that the scope of a round belongs to the round.
* `ForLoop.Goes.nodup`: each round has a scope of its own.
* `ForLoop.avoids_after_body`: the end of a body does not reach the scope of its round.
* `Session.for_rounds`: the rounds of a loop in a session.
-/

namespace CoScript

variable {d : VarDecl} {loop : ForLoop} {scope r : Ref .scope} {below : List Frame}
  {rounds : List (Ref .scope)} {part : ForPart} {ms : List Moment} {m : Moment}

/-! ## Specification -/

/-- The scope of a round belongs to the round, in the turns from the start of a loop on: a task
    makes it, the others leave it alone from then on, and so does the task itself once a body in it
    has come to its end. Code that was made inside may still be entered. -/
structure ForLoop.Owns (loop : ForLoop) (below : List Frame) (id : TaskId) (r : Ref .scope)
    (ts : List TaskTurn) : Prop where
  made : ∃ turns t later, ts = turns ++ t :: later ∧ t.id = id ∧ t.Makes r ∧
    ∀ other ≠ id, Apart r (TaskTurn.ofTask other later)
  ended : ∀ {turns t later how}, ts = turns ++ t :: later → t.id = id →
    t.Ended (.forBody loop r :: below) how → t.Spares r ∧ Apart r (TaskTurn.ofTask id later)

namespace ForLoop

/-! ## The scopes of a loop -/

/-- A round that begins has a scope, and the one after it is another. -/
theorem lt_fresh_begins (m : Moment) (loop : ForLoop) (s : Ref .scope)
    (part : ForPart × Control) (below : List Frame) :
    m.fresh.index < (m.begins loop (m.copying s) part below).fresh.index := by
  simp [Moment.begins, Moment.copying, Moment.fresh, World.withScope]

/-- While scopes are only added, each round has one of its own. -/
theorem Goes.nodup (h : Goes d loop scope below rounds part ms m)
    (hgrows : (ms ++ [m]).IsChain (·.fresh.index ≤ ·.fresh.index)) :
    rounds.Nodup ∧ ∀ r ∈ rounds, r.index < m.fresh.index := by
  induction h with
  | start | init => simp
  | first => simpa using lt_fresh_begins ..
  | @next r rounds ms m how h hm hhow ih =>
    obtain ⟨hnodup, hlt⟩ := ih hgrows.left_of_append
    have hnew := lt_fresh_begins m loop r (loop.reopening m.fresh) below
    refine ⟨List.nodup_cons.mpr ⟨fun hmem => Nat.lt_irrefl _ (hlt _ hmem), hnodup⟩,
      List.forall_mem_cons.mpr ⟨hnew, fun r hr => (hlt r hr).trans hnew⟩⟩
  | _ =>
    rename_i ih
    obtain ⟨hnodup, hlt⟩ := ih hgrows.left_of_append
    refine ⟨hnodup, fun r hr => (hlt r hr).trans_le ?_⟩
    exact (List.isChain_append.mp hgrows).2.2 _ (by simp) _ rfl

/-- The scope of a round is made by a copy of another scope. -/
theorem Goes.exists_maker (h : Goes d loop scope below rounds part ms m) :
    ∀ r ∈ rounds, ∃ a ∈ ms, a.fresh = r ∧
      ∃ s, ∀ tasks, (a.thread.act a.world tasks).2 = a.copying s := by
  induction h with
  | start | init => simp
  | @first own ms m h hm =>
    refine List.forall_mem_singleton.mpr ⟨m, by simp, rfl, own, fun tasks => ?_⟩
    rw [act_of_go (run_first hm)]
  | @next r rounds ms m how h hm hhow ih =>
    refine List.forall_mem_cons.mpr ⟨⟨m, by simp, rfl, r, fun tasks => ?_⟩, fun r' hr' => ?_⟩
    · rw [act_of_go (run_next hm hhow)]
    · obtain ⟨a, ha, hmake⟩ := ih r' hr'
      exact ⟨a, List.mem_append_left _ ha, hmake⟩
  | _ =>
    rename_i ih
    intro r hr
    obtain ⟨a, ha, hmake⟩ := ih r hr
    exact ⟨a, List.mem_append_left _ ha, hmake⟩

/-! ## After the body of a round -/

/-- The end of a body does not reach the scope of its round. -/
theorem avoids_after_body {K : Ref .scope → Prop} {how : Option Abrupt}
    (hm : m.Ended (.forBody loop r :: below) how) (ps : Promises)
    (hparent : ∀ p, (m.world.heap.scopes.get r).parent = some p → m.world.heap.Clear K p)
    (hbelow : StackClear K m.world below) :
    (m.thread.step ps).Avoids K m.world (Move.Clear K) := by
  cases hm with
  | normal w v base => exact avoids_nextFor hparent hbelow
  | abrupt w how base =>
    cases how with
    | breakOut => exact .pure (.done hbelow)
    | continueOn => exact avoids_nextFor hparent hbelow
    | returned | thrown => exact .pure (.leave hbelow)

end ForLoop

namespace Session.History

variable {config : Config} {host : Host} {mach : Machine Thread Value World}
  {before later rest turns : List TaskTurn} {first t : TaskTurn} {how : Option Abrupt}

/-- At the end of a body, the loop goes on without reaching the scope of the round. -/
theorem leaves_round {loop : ForLoop} (hh : host.heap.Placed)
    (h : History config host (before ++ t :: later) mach) (hfirst : first.Sound)
    (hl : first.world.Later NoScope t.world) (hr : ¬ first.world.heap.scopes.Has r)
    (hm : t.Ended (.forBody loop r :: first.thread.stack) how) :
    t.Spares r ∧ Apart r (TaskTurn.ofTask t.id later) := by
  have hsound := (h.later_turns hh).1
  have hhas : t.world.heap.scopes.Has r :=
    (hsound.thread.stack (.forBody loop r) (by rw [hm.stack]; exact List.mem_cons_self) r
      (by simp)).has
  have hw := hl.keeping_of_new hr hhas
  have hbelow := (hl.clear_of_older hr hfirst.thread).stack
  have havoids := ForLoop.avoids_after_body (K := (· = r)) hm (.ofTasks t.tasks)
    (fun p hp => Heap.clear_parent hw.heap.toScoped hp) hbelow
  obtain ⟨hgrows, hall⟩ := Thread.act_of_avoids havoids hw
  exact ⟨hgrows.grows, h.apart_after hh hgrows.after hall⟩

/-- The scope of a round belongs to the round. -/
theorem owns_of_goes (hh : host.heap.Placed)
    (h : History config host (before ++ first :: rest) mach) {past : List Moment} {now : Moment}
    (hmoments : (first :: TaskTurn.ofTask first.id rest).map (·.toMoment) = past ++ [now])
    (hgoes : loop.Goes d scope first.thread.stack rounds part past now) (hr : r ∈ rounds) :
    loop.Owns first.thread.stack first.id r (first :: rest) := by
  have hsplit {turns t later} (hts : first :: rest = turns ++ t :: later) :
      before ++ first :: rest = (before ++ turns) ++ t :: later := by
    rw [hts, List.append_assoc]
  obtain ⟨a, ha, rfl, s, hcopy⟩ := hgoes.exists_maker r hr
  obtain ⟨t, ht, rfl⟩ : ∃ t ∈ first :: TaskTurn.ofTask first.id rest, t.toMoment = a :=
    List.mem_map.mp (hmoments ▸ List.mem_append_left _ ha)
  rw [← TaskTurn.ofTask_cons_of_eq rfl] at ht
  obtain ⟨hmem, hid⟩ := TaskTurn.mem_ofTask.mp ht
  have hmakes : t.Makes t.fresh := by
    refine ⟨Nat.lt_irrefl _, ?_⟩
    rw [TaskTurn.after, hcopy]
    simp [Scopes.Has, Moment.copying, Moment.fresh, World.withScope]
  obtain ⟨hfirst, hl⟩ := h.later_of_mem hh hmem
  constructor
  · obtain ⟨turns, later, hts⟩ := List.append_of_mem hmem
    refine ⟨turns, t, later, hts, hid, hmakes, fun other hother => ?_⟩
    exact (hsplit hts ▸ h).apart_others hh hmakes (hid ▸ hother)
  · intro turns t' later how hts hid' hm
    rw [← hid']
    refine (hsplit hts ▸ h).leaves_round hh hfirst ?_ (fun hr => hmakes.new (hl.grows.has hr)) hm
    exact (h.later_of_mem hh (hts ▸ by simp)).2

end Session.History

/-- Whatever a session does, a task that starts a `for` loop with a declaration goes through rounds,
    each in a scope of its own, which is a copy of the one of the round before as that was at the
    end of its body. The scope of a round belongs to the round, and scopes are written in turns
    only. -/
theorem Session.for_rounds {config : Config} {host : Host} {mach : Machine Thread Value World}
    {before rest : List TaskTurn} {first : TaskTurn} {pos : Position} (hh : host.heap.Placed)
    (h : History config host (before ++ first :: rest) mach)
    (hc : first.thread.control =
      .exec (.forLoop pos (some (.declare d)) loop.condition loop.update loop.body) scope) :
    (∃ rounds part past now,
      (first :: TaskTurn.ofTask first.id rest).map (·.toMoment) = past ++ [now] ∧
      loop.Goes d scope first.thread.stack rounds part past now ∧ rounds.Nodup ∧
      ∀ r ∈ rounds, loop.Owns first.thread.stack first.id r (first :: rest)) ∧
    (first :: rest).IsChain fun t t' => t'.world.heap.scopes = t.after.heap.scopes := by
  obtain ⟨hchain, hsound⟩ := h.task_turns hh
  have hgrows : ((first :: TaskTurn.ofTask first.id rest).map (·.toMoment)).IsChain
      (·.fresh.index ≤ ·.fresh.index) :=
    List.isChain_map _ |>.mpr <| hchain.imp_of_mem_imp fun t t' ht _ hbefore =>
      ((hsound t ht).later.trans hbefore.later).grows.scopes_le
  obtain ⟨past, now, hmoments, rounds, part, hgoes⟩ := ForLoop.goes_of_chain rfl hc (h.steps hh)
  change (first :: TaskTurn.ofTask first.id rest).map (·.toMoment) = past ++ [now] at hmoments
  refine ⟨⟨rounds, part, past, now, hmoments, hgoes, ?_, fun r hr =>
    h.owns_of_goes hh hmoments hgoes hr⟩, h.still.1.right_of_append⟩
  exact (hgoes.nodup (hmoments ▸ hgrows)).1

/-- A host that brings nothing. -/
theorem placed_none {maxDepth : ℕ} : (Host.none maxDepth).heap.Placed where
  outward r p hp := by simp [Host.none, Heap.empty, Scopes.get, Scopes.empty] at hp
  functions r s hs := by
    rw [Heap.function_of_le _ (Nat.zero_le _)] at hs
    cases hs
  classes r hr := absurd hr (Nat.not_lt_zero _)

/-- The declaration of a variable. -/
def endlessStart : VarDecl :=
  ⟨⟨1, 6⟩, .block, "i", none⟩

/-- A write of this variable. -/
def endlessUpdate : Expr :=
  .assign ⟨1, 14⟩ .set (.name ⟨1, 14⟩ "i") (.literal ⟨1, 18⟩ .null)

/-- A loop without a condition, which writes its variable between two rounds. -/
def endless : ForLoop :=
  ⟨none, some endlessUpdate, .block ⟨⟨1, 24⟩, []⟩⟩

/-- The machine that is about to run the loop. -/
def aboutToLoop : Machine Thread Value World :=
  Machine.startMain script "main" ⟨.program [] [.forLoop ⟨1, 1⟩ (some (.declare endlessStart))
    endless.condition endless.update endless.body], [], 0⟩
    (Session.new ⟨10, false, by decide⟩ (.none 100)).machine

/-- The same machine with other scopes, when its task has come to a point of the program. -/
def loopingAt (scopes : Scopes) (control : Control) (stack : List Frame) :
    Machine Thread Value World :=
  let world := aboutToLoop.world
  { aboutToLoop.withRunning [⟨⟨0⟩, control, stack, 0⟩] with
    world := { world with heap := { world.heap with scopes } } }

/-- The loop, up to the end of the body of its second round. -/
theorem Session.for_rounds_endless : ∃ (before rest : List TaskTurn) (first : TaskTurn)
    (mach : Machine Thread Value World) (pos : Position) (scope : Ref .scope),
    rest.map (·.thread.control) =
      [.exec (.varDecl endlessStart) ⟨2⟩, .ret .undefined,
        .exec endless.body ⟨3⟩, .statements [] ⟨4⟩, .ret .undefined,
        .eval endlessUpdate ⟨5⟩, .eval (.literal ⟨1, 18⟩ .null) ⟨5⟩, .ret .null, .ret .null,
        .exec endless.body ⟨5⟩, .statements [] ⟨6⟩, .ret .undefined] ∧
    History ⟨10, false, by decide⟩ (.none 100) (before ++ first :: rest) mach ∧
    first.thread.control = .exec (.forLoop pos (some (.declare endlessStart)) endless.condition
      endless.update endless.body) scope ∧
    (∃ rounds part past now,
      (first :: TaskTurn.ofTask first.id rest).map (·.toMoment) = past ++ [now] ∧
      endless.Goes endlessStart scope first.thread.stack rounds part past now ∧ rounds.Nodup ∧
      ∀ r ∈ rounds, endless.Owns first.thread.stack first.id r (first :: rest)) ∧
    (first :: rest).IsChain fun t t' => t'.world.heap.scopes = t.after.heap.scopes := by
  let start : Stmt := .forLoop ⟨1, 1⟩ (some (.declare endlessStart)) endless.condition
    endless.update endless.body
  let below : List Frame := [.sequence [] ⟨1⟩]
  let program := aboutToLoop.world.heap.scopes
  let own := (program.new (some ⟨1⟩) false).2
  let declared := own.bind ⟨2⟩ "i" ⟨.undefined, false⟩
  let round₁ := (declared.copy ⟨2⟩).2
  let body₁ := (round₁.new (some ⟨3⟩) false).2
  let round₂ := (body₁.copy ⟨3⟩).2
  let updated := round₂.bind ⟨5⟩ "i" ⟨.null, false⟩
  let body₂ := (updated.new (some ⟨5⟩) false).2
  have h₀ : History ⟨10, false, by decide⟩ (.none 100) _ aboutToLoop :=
    .start .new rfl "main" (show Control.FromOutside (.program [] [start]) from trivial)
  have h₁ : History _ _ _ (loopingAt program (.statements [start] ⟨1⟩) []) :=
    h₀.tick_of_running rfl
  have h₂ : History _ _ _ (loopingAt program (.exec start ⟨1⟩) below) := h₁.tick_of_running rfl
  have h₃ : History _ _ _ (loopingAt own (.exec (.varDecl endlessStart) ⟨2⟩)
    (.forStart endless ⟨2⟩ :: below)) := h₂.tick_of_running rfl
  have h₄ : History _ _ _ (loopingAt declared (.ret .undefined)
    (.forStart endless ⟨2⟩ :: below)) := h₃.tick_of_running rfl
  have h₅ : History _ _ _ (loopingAt round₁ (.exec endless.body ⟨3⟩)
    (.forBody endless ⟨3⟩ :: below)) := h₄.tick_of_running rfl
  have h₆ : History _ _ _ (loopingAt body₁ (.statements [] ⟨4⟩)
    (.forBody endless ⟨3⟩ :: below)) := h₅.tick_of_running rfl
  have h₇ : History _ _ _ (loopingAt body₁ (.ret .undefined)
    (.forBody endless ⟨3⟩ :: below)) := h₆.tick_of_running rfl
  have h₈ : History _ _ _ (loopingAt round₂ (.eval endlessUpdate ⟨5⟩)
    (.forUpdate endless ⟨5⟩ :: below)) := h₇.tick_of_running rfl
  have h₉ : History _ _ _ (loopingAt round₂ (.eval (.literal ⟨1, 18⟩ .null) ⟨5⟩)
    (.write (.variable "i" ⟨5⟩ ⟨1, 14⟩) :: .forUpdate endless ⟨5⟩ :: below)) :=
    h₈.tick_of_running rfl
  have h₁₀ : History _ _ _ (loopingAt round₂ (.ret .null)
    (.write (.variable "i" ⟨5⟩ ⟨1, 14⟩) :: .forUpdate endless ⟨5⟩ :: below)) :=
    h₉.tick_of_running rfl
  have h₁₁ : History _ _ _ (loopingAt updated (.ret .null)
    (.forUpdate endless ⟨5⟩ :: below)) := h₁₀.tick_of_running rfl
  have h₁₂ : History _ _ _ (loopingAt updated (.exec endless.body ⟨5⟩)
    (.forBody endless ⟨5⟩ :: below)) := h₁₁.tick_of_running rfl
  have h₁₃ : History _ _ _ (loopingAt body₂ (.statements [] ⟨6⟩)
    (.forBody endless ⟨5⟩ :: below)) := h₁₂.tick_of_running rfl
  have h₁₄ : History _ _ _ (loopingAt body₂ (.ret .undefined)
    (.forBody endless ⟨5⟩ :: below)) := h₁₃.tick_of_running rfl
  have h := h₁₄.tick_of_running rfl
  simp only [List.nil_append, List.cons_append] at h
  have hrounds := @for_rounds _ endless _ _ _ _ [_, _] _ _ _ placed_none h rfl
  exact ⟨[_, _], _, _, _, _, _, rfl, h, rfl, hrounds⟩

end CoScript
