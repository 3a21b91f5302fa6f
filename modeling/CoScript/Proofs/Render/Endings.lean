import CoScript.Proofs.Render.Pictures
import Mathlib.Data.Finset.Card
import Mathlib.Data.List.Nodup
import Mathlib.Logic.Relation

/-!
# Which texts have an end

A text goes on for ever only along promises that are settled with one another in a circle: nothing
is marked there, so nothing stops it. Everything else comes to an end, since a container is marked
while its text is made and shows as `[Circular]` inside. The fuel that `Heap.render` begins with is
enough wherever there is an end.

Results:
* `Heap.renderFrom_isSome`: the text of a value that leads to no circle of promises has an end.
* `Picture.Depicts.not_loops`: the text of a value that leads to one has none.
* `Heap.render_cyclic_data`: which values have a text, which text it is, and the marks.
-/

namespace CoScript

open Relation

/-! ## Circles of promises -/

/-- A promise is settled with another one. -/
def Promises.SettledWith (ps : Promises) (i j : TaskId) : Prop :=
  ps.result? i = some (.promise j)

/-- A promise leads to itself through promises that are settled with one another. -/
def Promises.Loops (ps : Promises) (id : TaskId) : Prop :=
  TransGen ps.SettledWith id id

/-- A promise that loops is settled with one that loops. -/
theorem Promises.Loops.next {ps : Promises} {id : TaskId} (hid : ps.Loops id) :
    ∃ j, ps.SettledWith id j ∧ ps.Loops j := by
  obtain ⟨j, hj, hback⟩ := TransGen.head'_iff.mp hid
  exact ⟨j, hj, TransGen.tail'_iff.mpr ⟨id, hback, hj⟩⟩

/-- A value leads to another through values that show in its text, in any number of steps. -/
def Heap.Contains (h : Heap) (ps : Promises) : Value → Value → Prop :=
  ReflTransGen fun v w => w ∈ h.parts ps v

/-! ## Texts without end -/

/-- A promise that loops has no text. -/
theorem Heap.renderFrom_of_loops (h : Heap) {ps : Promises} (fuel : Nat) (path : List Container)
    (nested : Bool) {id : TaskId} (hid : ps.Loops id) :
    h.renderFrom ps fuel path nested (.promise id) = none := by
  induction fuel generalizing nested id with
  | zero => rfl
  | succ fuel ih =>
    obtain ⟨j, hj, hloop⟩ := hid.next
    have hparts : h.parts ps (.promise id) = [.promise j] := by
      rw [Heap.parts, hj, Option.toList_some]
    have hrest := ih true hloop
    simp only [Heap.renderFrom_succ, hparts, Value.comesAgain, Value.container?, Option.any_none,
      Option.toList_none, List.nil_append, List.mapM_cons, hrest]
    rfl

namespace Picture

variable {h : Heap} {ps : Promises}

/-- A picture has a value in full somewhere. -/
inductive Has (w : Value) : Picture → Prop
  | here (parts : List Picture) : Has w (.full w parts)
  | inside {v : Value} {parts : List Picture} {p : Picture} (hp : p ∈ parts) (hw : Has w p) :
    Has w (.full v parts)

/-- A value that a picture has in full has a picture of its own. -/
theorem Has.depicts {w : Value} {p : Picture} (hw : Has w p) {path : List Container} {v : Value}
    (hp : p.Depicts h ps path v) : ∃ path' p', Depicts h ps path' p' w := by
  induction hw generalizing path v with
  | here parts =>
    obtain ⟨rfl, -⟩ := depicts_full.mp hp
    exact ⟨path, _, hp⟩
  | @inside u parts p hmem hw ih =>
    obtain ⟨-, -, hparts⟩ := depicts_full.mp hp
    obtain ⟨i, hi, rfl⟩ := List.getElem_of_mem hmem
    exact ih ((List.forall₂_iff_get.mp hparts).2 i hi (hparts.length_eq ▸ hi))

/-- A picture that is not only a mark has its value in full. -/
theorem Depicts.has {path : List Container} {p : Picture} {v : Value} (hp : p.Depicts h ps path v)
    (hv : v.comesAgain path = false) : Has v p := by
  cases p with
  | circular => simp [hv] at hp
  | full w parts =>
    obtain ⟨rfl, -⟩ := depicts_full.mp hp
    exact .here parts

/-- With a value a picture has all parts of it in full, unless they are containers around the
    picture: a part that comes again inside the picture is in full further up. -/
theorem Has.parts {w : Value} {p : Picture} (hw : Has w p) {path : List Container} {v : Value}
    (hp : p.Depicts h ps path v) {u : Value} (hu : u ∈ h.parts ps w) :
    Has u p ∨ u.comesAgain path = true := by
  -- What is true of a part is true of the whole, whose own container joins the path.
  have hout {v : Value} {parts : List Picture} {path : List Container} {q : Picture}
      (hq : q ∈ parts) (hu : Has u q ∨ u.comesAgain (v.container?.toList ++ path) = true) :
      Has u (.full v parts) ∨ u.comesAgain path = true := by
    refine hu.elim (fun hu => .inl (.inside hq hu)) fun hu => ?_
    obtain ⟨c, hc, huc⟩ := Value.comesAgain_iff.mp hu
    refine (List.mem_append.mp hc).elim (fun hc => ?_) fun hc =>
      .inr (Value.comesAgain_iff.mpr ⟨c, hc, huc⟩)
    obtain rfl := Value.eq_of_container? huc (Option.mem_toList.mp hc)
    exact .inl (.here parts)
  induction hw generalizing path v with
  | here parts =>
    obtain ⟨rfl, -, hparts⟩ := depicts_full.mp hp
    obtain ⟨i, hi, rfl⟩ := List.getElem_of_mem hu
    have hi' : i < parts.length := hparts.length_eq ▸ hi
    have hpart := (List.forall₂_iff_get.mp hparts).2 i hi' hi
    refine hout (List.getElem_mem hi') ?_
    cases hagain : ((h.parts ps w)[i]).comesAgain (w.container?.toList ++ path) with
    | false => exact .inl (hpart.has hagain)
    | true => exact .inr rfl
  | @inside u' parts q hmem hw ih =>
    obtain ⟨rfl, -, hparts⟩ := depicts_full.mp hp
    obtain ⟨i, hi, rfl⟩ := List.getElem_of_mem hmem
    exact hout (List.getElem_mem hi)
      (ih ((List.forall₂_iff_get.mp hparts).2 i hi (hparts.length_eq ▸ hi)))

/-- A picture of a value has everything in full that the value leads to. -/
theorem Depicts.has_of_contains {p : Picture} {v w : Value} (hp : p.Depicts h ps [] v)
    (hw : h.Contains ps v w) : Has w p := by
  have hnot (u : Value) : u.comesAgain [] = false :=
    Bool.eq_false_iff.mpr fun hu => by simp [Value.comesAgain_iff] at hu
  induction hw with
  | refl => exact hp.has (hnot v)
  | tail _ hpart ih =>
    exact (ih.parts hp hpart).resolve_right fun hagain => by simp [hnot] at hagain

/-- A value that has a picture leads to no circle of promises. -/
theorem Depicts.not_loops {p : Picture} {v : Value} (hp : p.Depicts h ps [] v) {id : TaskId}
    (hid : h.Contains ps v (.promise id)) : ¬ps.Loops id := by
  intro hloop
  obtain ⟨path, q, hq⟩ := (hp.has_of_contains hid).depicts hp
  have hsome : h.renderFrom ps q.height path false (.promise id) = some (q.text h ps false) :=
    (h.renderFrom_eq_some_iff ps _ _ _ _ _).mpr ⟨q, ⟨hq, Nat.le_refl _⟩, rfl⟩
  rw [h.renderFrom_of_loops _ _ _ hloop] at hsome
  cases hsome

end Picture

/-! ## Texts with an end -/

/-- A result for each item. -/
theorem isSome_mapM {α β : Type} {f : α → Option β} {items : List α} :
    (items.mapM f).isSome ↔ ∀ a ∈ items, (f a).isSome := by
  induction items with
  | nil => simp
  | cons a r ih =>
    rw [List.mapM_cons, List.forall_mem_cons, ← ih]
    cases f a <;> cases r.mapM f <;> simp

namespace Heap

variable (h : Heap)

/-- The containers of a heap. -/
def containers : List Container :=
  (List.range h.arrays.size).map (fun i => .array ⟨i⟩) ++
    (List.range h.objects.size).map (fun i => .object ⟨i⟩) ++
    (List.range h.instances.size).map (fun i => .inst ⟨i⟩)

theorem length_containers : h.containers.length = h.containerCount := by
  simp [containers, containerCount, Nat.add_assoc]

/-- A container with something in it is one of the heap. -/
theorem mem_containers {ps : Promises} {v w : Value} {c : Container} (hv : v.container? = some c)
    (hw : w ∈ h.parts ps v) : c ∈ h.containers := by
  have hgetD {α : Type} {cells : Array α} {i : Nat} {a : α} (hi : cells.size ≤ i) :
      cells.getD i a = a := by
    rw [Array.getD_eq_getD_getElem?, Array.getElem?_eq_none hi, Option.getD_none]
  cases v <;> cases hv
  case array r =>
    have hr : r.index < h.arrays.size := by
      refine Nat.lt_of_not_le fun hle => ?_
      rw [parts, array, hgetD hle] at hw
      cases hw
    simpa [containers] using ⟨_, hr, rfl⟩
  case object r =>
    have hr : r.index < h.objects.size := by
      refine Nat.lt_of_not_le fun hle => ?_
      rw [parts, object, hgetD hle] at hw
      cases hw
    simpa [containers] using ⟨_, hr, rfl⟩
  case inst r =>
    have hr : r.index < h.instances.size := by
      refine Nat.lt_of_not_le fun hle => ?_
      rw [parts, instanceOf, hgetD hle] at hw
      cases hw
    simpa [containers] using ⟨_, hr, rfl⟩

/-- Of the values that are no containers only a promise has a part. -/
theorem promise_of_mem_parts {ps : Promises} {v w : Value} (hv : v.container? = none)
    (hw : w ∈ h.parts ps v) : ∃ id, v = .promise id ∧ ps.result? id = some w := by
  cases v with
  | promise id => exact ⟨id, rfl, Option.mem_toList.mp hw⟩
  | array r | object r | inst r => cases hv
  | _ => cases (hw : w ∈ ([] : List Value))

/-- The containers of a heap that are not on a path. -/
def unmarked (path : List Container) : Finset Container :=
  h.containers.toFinset \ path.toFinset

/-- One container fewer is left when another one joins the path. -/
theorem card_unmarked_cons_lt {c : Container} {path : List Container} (hc : c ∈ h.containers)
    (hpath : c ∉ path) : (h.unmarked (c :: path)).card < (h.unmarked path).card := by
  refine Finset.card_lt_card (Finset.ssubset_iff_subset_ne.mpr ⟨?_, fun heq => ?_⟩)
  · refine Finset.sdiff_subset_sdiff (Finset.Subset.refl _) fun d hd => ?_
    simpa using Or.inr (List.mem_toFinset.mp hd)
  · have hmem : c ∈ h.unmarked path := by simp [unmarked, hc, hpath]
    rw [← heq] at hmem
    simp [unmarked] at hmem

/-- Different promises that are settled with one another, the last of them with a value. -/
def Passed (ps : Promises) (v : Value) (passed : List TaskId) : Prop :=
  passed.Nodup ∧ ∀ i ∈ passed, i.index < ps.count ∧
    ∀ id, v = .promise id → TransGen ps.SettledWith i id

/-- Different promises are no more than there are. -/
theorem Passed.length_le {ps : Promises} {v : Value} {passed : List TaskId}
    (hpassed : Passed ps v passed) : passed.length ≤ ps.count := by
  have hnodup : (passed.map (·.index)).Nodup :=
    hpassed.1.map fun i j hij => by cases i; cases j; cases hij; rfl
  have hsub : passed.map (·.index) ⊆ List.range ps.count := fun i hi => by
    obtain ⟨j, hj, rfl⟩ := List.mem_map.mp hi
    exact List.mem_range.mpr (hpassed.2 j hj).1
  simpa using (hnodup.subperm hsub).length_le

/-- A promise that leads to no circle comes after others only once. -/
theorem Passed.cons {ps : Promises} {id : TaskId} {w : Value} {passed : List TaskId}
    (hpassed : Passed ps (.promise id) passed) (hid : id.index < ps.count)
    (hw : ps.result? id = some w) (hloop : ¬ps.Loops id) : Passed ps w (id :: passed) := by
  refine ⟨List.nodup_cons.mpr ⟨fun hmem => hloop ((hpassed.2 id hmem).2 id rfl), hpassed.1⟩, ?_⟩
  intro i hi
  have hnext {j : TaskId} (hj : w = .promise j) : ps.SettledWith id j := hw.trans (hj ▸ rfl)
  rcases List.mem_cons.mp hi with rfl | hi
  · exact ⟨hid, fun j hj => .single (hnext hj)⟩
  · exact ⟨(hpassed.2 i hi).1, fun j hj => ((hpassed.2 i hi).2 id rfl).tail (hnext hj)⟩

/-- Fuel that lasts: each container comes once at most, each promise once between two of them, and
    `passed` of them have come since the last container. -/
def enough (ps : Promises) (path : List Container) (passed : List TaskId) : Nat :=
  (h.unmarked path).card * (ps.count + 1) + (ps.count - passed.length) + 1

/-- Fuel that lasts for a container lasts for its parts. -/
theorem enough_cons_lt (ps : Promises) {c : Container} {path : List Container}
    (passed : List TaskId) (hc : c ∈ h.containers) (hpath : c ∉ path) :
    h.enough ps (c :: path) [] < h.enough ps path passed := by
  have hfewer := Nat.mul_le_mul_right (ps.count + 1) (h.card_unmarked_cons_lt hc hpath)
  rw [Nat.succ_mul] at hfewer
  simp only [enough, List.length_nil]
  omega

/-- The text of a value that leads to no circle of promises has an end. -/
theorem renderFrom_isSome {ps : Promises}
    (hps : ∀ id w, ps.result? id = some w → id.index < ps.count) {fuel : Nat}
    (path : List Container) (passed : List TaskId) {v : Value} (nested : Bool)
    (hfuel : h.enough ps path passed ≤ fuel) (hpassed : Passed ps v passed)
    (hloops : ∀ id, h.Contains ps v (.promise id) → ¬ps.Loops id) :
    (h.renderFrom ps fuel path nested v).isSome := by
  induction fuel generalizing path passed v nested with
  | zero => simp [enough] at hfuel
  | succ fuel ih =>
    rw [renderFrom_succ]
    split
    · rfl
    next hagain =>
      rw [Option.isSome_map, isSome_mapM]
      intro w hw
      have hinside : ∀ id, h.Contains ps w (.promise id) → ¬ps.Loops id :=
        fun id hid => hloops id (.head hw hid)
      cases hv : v.container? with
      | some c =>
        have hpath : c ∉ path := fun hc => hagain (Value.comesAgain_iff.mpr ⟨c, hc, hv⟩)
        have hless := h.enough_cons_lt ps passed (h.mem_containers hv hw) hpath
        exact ih _ [] true (by simpa using Nat.le_of_lt_succ (Nat.lt_of_lt_of_le hless hfuel))
          ⟨List.nodup_nil, by simp⟩ hinside
      | none =>
        obtain ⟨id, rfl, hid⟩ := h.promise_of_mem_parts hv hw
        have hnext := hpassed.cons (hps id w hid) hid (hloops id .refl)
        have hcount := hnext.length_le
        refine ih _ _ true ?_ hnext hinside
        simp only [enough, Option.toList_none, List.nil_append, List.length_cons] at hfuel hcount ⊢
        omega

/-- Where the text of a value has an end, `Heap.render` comes to it. -/
theorem render_eq_some_iff {ps : Promises}
    (hps : ∀ id w, ps.result? id = some w → id.index < ps.count) (v : Value) (nested : Bool)
    (text : String) : h.render ps v nested = some text ↔
      ∃ fuel, h.renderFrom ps fuel [] nested v = some text := by
  refine ⟨fun hv => ⟨_, hv⟩, fun ⟨fuel, hv⟩ => ?_⟩
  obtain ⟨p, ⟨hp, -⟩, -⟩ := (h.renderFrom_eq_some_iff ps _ _ _ _ _).mp hv
  have henough : h.enough ps [] [] ≤ h.renderFuel ps := by
    have hcard : (h.unmarked []).card ≤ h.containerCount :=
      h.length_containers ▸ (Finset.card_le_card Finset.sdiff_subset).trans
        (List.toFinset_card_le _)
    have hmul := Nat.mul_le_mul_right (ps.count + 1) hcard
    simp only [enough, renderFuel, List.length_nil, Nat.succ_mul]
    omega
  obtain ⟨text', htext⟩ := Option.isSome_iff_exists.mp
    (h.renderFrom_isSome hps [] [] nested henough ⟨List.nodup_nil, by simp⟩ fun id => hp.not_loops)
  rcases Nat.le_total fuel (h.renderFuel ps) with hle | hle
  · exact h.renderFrom_mono ps hle hv
  · have hmore := h.renderFrom_mono ps hle htext
    rw [hv] at hmore
    rw [render, htext, hmore]

end Heap

/-! ## Cyclic data -/

/-- What the text of a value is, whatever the values in it share and lead back to. It exists exactly
    if the value leads to no circle of promises that are settled with one another. It is the text of
    a picture that shows `[Circular]` at a place exactly if the array, object or instance that is
    there lies on the way to the place, and each other value in full. And it is made with one set of
    marks, which is after each call what it was before. -/
theorem Heap.render_cyclic_data {β : Type} (h : Heap) (tasks : Array (Task β Value)) (v : Value)
    (nested : Bool) :
    let ps := Promises.ofTasks tasks
    ((h.render ps v nested).isSome ↔ ¬∃ id, h.Contains ps v (.promise id) ∧ ps.Loops id) ∧
    (∀ text, h.render ps v nested = some text ↔
      ∃ fuel, h.renderFrom ps fuel [] nested v = some text) ∧
    (∀ text, h.render ps v nested = some text ↔
      ∃ p : Picture, p.Depicts h ps [] v ∧ p.text h ps nested = text) ∧
    ∀ fuel nested w marked, (h.renderMarking ps fuel nested w).run marked =
      (h.renderFrom ps fuel marked nested w, marked) := by
  intro ps
  have hps : ∀ id w, ps.result? id = some w → id.index < ps.count := by
    intro id w hw
    refine Nat.lt_of_not_le fun hle => ?_
    have hnone : tasks[id.index]? = none := Array.getElem?_eq_none hle
    simp [ps, Promises.result?, Promises.ofTasks, hnone, TaskState.result?] at hw
  have hfuel := h.render_eq_some_iff hps v nested
  have hpicture (text : String) : h.render ps v nested = some text ↔
      ∃ p : Picture, p.Depicts h ps [] v ∧ p.text h ps nested = text := by
    rw [hfuel]
    simp only [h.renderFrom_eq_some_iff ps]
    constructor
    · rintro ⟨fuel, p, ⟨hp, -⟩, htext⟩
      exact ⟨p, hp, htext⟩
    · rintro ⟨p, hp, htext⟩
      exact ⟨p.height, p, ⟨hp, Nat.le_refl _⟩, htext⟩
  refine ⟨⟨fun hv => ?_, fun hloops => ?_⟩, hfuel, hpicture, h.run_renderMarking ps⟩
  · obtain ⟨text, htext⟩ := Option.isSome_iff_exists.mp hv
    obtain ⟨p, hp, -⟩ := (hpicture text).mp htext
    rintro ⟨id, hid, hloop⟩
    exact hp.not_loops hid hloop
  · have hsome := h.renderFrom_isSome hps [] [] nested (Nat.le_refl _) ⟨List.nodup_nil, by simp⟩
      fun id hid hloop => hloops ⟨id, hid, hloop⟩
    obtain ⟨text, htext⟩ := Option.isSome_iff_exists.mp hsome
    rw [(hfuel text).mpr ⟨_, htext⟩]
    rfl

/-- What is shared shows in full each time, what contains itself only once. -/
example : ({ Heap.empty with arrays := #[#[], #[.array ⟨0⟩, .array ⟨0⟩, .array ⟨1⟩]] }).render
    ⟨0, fun _ => .pending⟩ (.array ⟨1⟩) false = some "[[], [], [Circular]]" := by
  decide

end CoScript
