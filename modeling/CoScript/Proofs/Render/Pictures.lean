import CoScript.Store.Render
import Mathlib.Data.List.Forall2

/-!
# Pictures of values

The text of a value is made of the texts of the values in it. A picture is the tree of these values,
with a mark instead of a value where an array, an object or an instance comes again inside itself.
The definition of what a picture shows goes by places: a place is a list of numbers, each of which
picks a part of the value reached so far. How the texts of the parts stand in the text of the whole
is said here once more, apart from the making of the text.

Results:
* `Heap.run_renderMarking`: the marks are after each call what they were before it.
* `Heap.renderFrom_succ`: one equation for all kinds of values, from the parts of a value.
* `Picture.Depicts`: what a picture shows at each of its places.
* `Heap.renderFrom_eq_some_iff`: the text of a value is the text of its picture.
-/

namespace CoScript

open Text

/-! ## Values and their parts -/

/-- The container that a value is, if it is one. -/
def Value.container? : Value → Option Container
  | .array r => some (.array r)
  | .object r => some (.object r)
  | .inst r => some (.inst r)
  | _ => none

/-- A container is one value only. -/
theorem Value.eq_of_container? {v w : Value} {c : Container} (hv : v.container? = some c)
    (hw : w.container? = some c) : v = w := by
  cases v <;> cases hv <;> cases w <;> cases hw <;> rfl

/-- Whether a value is one of the containers of a path. -/
def Value.comesAgain (path : List Container) (v : Value) : Bool :=
  v.container?.any path.contains

/-- A value comes again when it is a container of the path. -/
theorem Value.comesAgain_iff {path : List Container} {v : Value} :
    v.comesAgain path = true ↔ ∃ c ∈ path, v.container? = some c := by
  simp only [comesAgain, Option.any_eq_true, List.contains_iff_mem]
  exact ⟨fun ⟨c, hc, hm⟩ => ⟨c, hm, hc⟩, fun ⟨c, hm, hc⟩ => ⟨c, hc, hm⟩⟩

/-- The value that a task ended with, unless it failed. -/
def TaskState.result? : TaskState Value → Option Value
  | .fulfilled w | .thrown w _ => some w
  | .pending | .failed _ => none

/-- The text of a promise, from the text of its result. -/
def TaskState.textWith (texts : List String) : TaskState Value → String
  | .pending => "Promise \x7b <pending> \x7d"
  | .failed f => "Promise \x7b <rejected> " ++ f.cause.kind ++ " \x7d"
  | .fulfilled _ => "Promise \x7b " ++ texts.headD "" ++ " \x7d"
  | .thrown _ _ => "Promise \x7b <rejected> " ++ texts.headD "" ++ " \x7d"

/-- The value that a promise is settled with, unless it failed. -/
def Promises.result? (ps : Promises) (id : TaskId) : Option Value :=
  (ps.state id).result?

/-- Keys with the texts of their values, between braces. -/
def textOfFields (keys texts : List String) : String :=
  "\x7b" ++ ", ".intercalate (List.zipWith (fun key text => key ++ ": " ++ text) keys texts) ++
    "\x7d"

namespace Heap

variable (h : Heap) (ps : Promises)

/-- The values that show in the text of a value. -/
def parts : Value → List Value
  | .array r => (h.array r).toList
  | .object r => (h.object r).values
  | .inst r => (h.instanceOf r).fields.values
  | .promise id => (ps.result? id).toList
  | _ => []

/-- The text of a value, from the texts of its parts. -/
def textWith (nested : Bool) (v : Value) (texts : List String) : String :=
  match v with
  | .undefined => "undefined"
  | .null => "null"
  | .bool b => if b then "true" else "false"
  | .number x => Decimal.numberText x
  | .string s => if nested then String.ofList ('"' :: (escapeInPasses s.toList ++ ['"'])) else s
  | .array _ => "[" ++ ", ".intercalate texts ++ "]"
  | .object r => textOfFields (h.object r).keys texts
  | .inst r =>
    let i := h.instanceOf r
    (h.cls i.cls).name ++ " " ++ textOfFields i.fields.keys texts
  | .cls r => "[class " ++ (h.cls r).name ++ "]"
  | .promise id => (ps.state id).textWith texts
  | .function r =>
    let name := (h.functionName r).getD ""
    "[Function: " ++ (if name.isEmpty then "anonymous" else name) ++ "]"

end Heap

/-! ## The making of a text -/

theorem fieldsText_zip (keys texts : List String) :
    fieldsText (keys.zip texts) = textOfFields keys texts := by
  have hentries : (keys.zip texts).map (fun e => e.1 ++ ": " ++ e.2) =
      List.zipWith (fun key text => key ++ ": " ++ text) keys texts := by
    rw [List.zip, List.map_zipWith]
  rw [fieldsText, textOfFields, ← hentries, braces, join_eq_intercalate]
  split
  next hempty =>
    rw [List.isEmpty_iff.mp hempty, List.map_nil, String.intercalate_nil]
    decide
  next => rfl

namespace Rendering

variable {α β : Type} {marked : List Container}

theorem run_map {x : Rendering α} {out : Option α} (hx : x.run.run marked = (out, marked))
    (f : α → β) : (x >>= fun a => pure (f a)).run.run marked = (out.map f, marked) := by
  rw [OptionT.run_bind, Option.elimM, StateT.run_bind, hx]
  cases out <;> rfl

/-- The texts of parts, each made under the same marks. -/
theorem run_mapM {f : α → Rendering β} {g : α → Option β} (items : List α)
    (hf : ∀ a, (f a).run.run marked = (g a, marked)) :
    (items.mapM f).run.run marked = (items.mapM g, marked) := by
  induction items with
  | nil => rfl
  | cons a r ih =>
    rw [List.mapM_cons, List.mapM_cons, OptionT.run_bind, Option.elimM, StateT.run_bind, hf]
    cases g a with
    | none => rfl
    | some b =>
      refine (run_map ih (b :: ·)).trans ?_
      cases r.mapM g <;> rfl

/-- The texts of entries, each beside its key. -/
theorem run_entries {f : Value → Rendering β} {g : Value → Option β} (m : Ordered Value)
    (hf : ∀ v, (f v).run.run marked = (g v, marked)) :
    (m.entries.mapM fun e => f e.2 >>= fun text => pure (e.1, text)).run.run marked =
      ((m.values.mapM g).map (m.keys.zip ·), marked) := by
  rw [run_mapM m.entries fun e => run_map (hf e.2) (e.1, ·), Ordered.values, Ordered.keys]
  refine congrArg (·, marked) ?_
  induction m.entries with
  | nil => rfl
  | cons e r ih =>
    simp only [List.mapM_cons, List.map_cons, ih]
    cases g e.2 with
    | none => rfl
    | some b => cases (r.map (·.2)).mapM g <;> rfl

/-- A container is marked for as long as its text is made. -/
theorem run_marking {c : Container} {text : Rendering String} {out : Option String}
    (htext : text.run.run (c :: marked) = (out, c :: marked)) :
    (marking c text).run.run marked =
      (if marked.contains c then some "[Circular]" else out, marked) := by
  rw [marking, OptionT.run_mk, StateT.run_bind, StateT.run_get, pure_bind]
  split
  · rfl
  · rw [StateT.run_bind, StateT.run_modify, pure_bind, StateT.run_bind, htext]
    exact congrArg (out, ·) (List.erase_cons_head c marked)

end Rendering

namespace Heap

variable (h : Heap) (ps : Promises)

/-- The text of a value is a mark where it comes again, and else made of the texts of its parts, and
    with it all marks are gone that came with it. -/
theorem run_renderMarking_succ {fuel : Nat}
    (ih : ∀ w marked, (h.renderMarking ps fuel true w).run marked =
      (h.renderFrom ps fuel marked true w, marked))
    (nested : Bool) (v : Value) (marked : List Container) :
    (h.renderMarking ps (fuel + 1) nested v).run marked =
      (if v.comesAgain marked then some "[Circular]"
      else ((h.parts ps v).mapM (h.renderFrom ps fuel (v.container?.toList ++ marked) true)).map
        (h.textWith ps nested v), marked) := by
  have hpart (marked : List Container) (w : Value) :
      (OptionT.mk (h.renderMarking ps fuel true w)).run.run marked =
        (h.renderFrom ps fuel marked true w, marked) := ih w marked
  have hentries (m : Ordered Value) (marked : List Container) :=
    Rendering.run_map (Rendering.run_entries m (hpart marked)) fieldsText
  simp only [Option.map_map, Function.comp_def, fieldsText_zip] at hentries
  cases v with
  | array r =>
    have hitems := Rendering.run_mapM (h.array r).toList (hpart (.array r :: marked))
    rw [renderMarking]
    refine (Rendering.run_marking (Rendering.run_map hitems _)).trans ?_
    simp only [join_eq_intercalate]
    rfl
  | object r =>
    rw [renderMarking]
    exact Rendering.run_marking (hentries (h.object r) (.object r :: marked))
  | inst r =>
    have hfields := hentries (h.instanceOf r).fields (.inst r :: marked)
    rw [renderMarking]
    refine (Rendering.run_marking (Rendering.run_map hfields _)).trans ?_
    rw [Option.map_map]
    rfl
  | promise id =>
    change _ = (Option.map (fun texts => (ps.state id).textWith texts)
      ((ps.state id).result?.toList.mapM (h.renderFrom ps fuel marked true)), marked)
    rw [renderMarking]
    cases ps.state id with
    | pending | failed f => rfl
    | fulfilled w | thrown w pos =>
      refine (Rendering.run_map (hpart marked w) _).trans ?_
      simp only [TaskState.result?, Option.toList_some, List.mapM_cons, List.mapM_nil]
      cases h.renderFrom ps fuel marked true w <;> rfl
  | string s =>
    cases nested with
    | false => rfl
    | true =>
      change (some (quote s), marked) = (some (String.ofList _), marked)
      rw [quote, escape_eq_escapeInPasses]
  | _ => rfl

/-- The marks are after each call what they were before it, and the text is that of the value
    inside the marked containers. -/
theorem run_renderMarking (fuel : Nat) (nested : Bool) (v : Value) (marked : List Container) :
    (h.renderMarking ps fuel nested v).run marked =
      (h.renderFrom ps fuel marked nested v, marked) := by
  induction fuel generalizing nested v marked with
  | zero => rfl
  | succ fuel ih =>
    have hrun := h.run_renderMarking_succ ps (ih true) nested v marked
    rw [renderFrom, hrun]

/-- The text of a value is a mark where it comes again, and else made of the texts of its parts. -/
theorem renderFrom_succ (fuel : Nat) (path : List Container) (nested : Bool) (v : Value) :
    h.renderFrom ps (fuel + 1) path nested v =
      if v.comesAgain path then some "[Circular]"
      else ((h.parts ps v).mapM (h.renderFrom ps fuel (v.container?.toList ++ path) true)).map
        (h.textWith ps nested v) := by
  rw [renderFrom, h.run_renderMarking_succ ps (h.run_renderMarking ps fuel true)]

end Heap

/-! ## Pictures -/

/-- The values that a text shows: one with the pictures of its parts, or a mark instead of it. -/
inductive Picture where
  | circular
  | full (value : Value) (parts : List Picture)

namespace Picture

/-- The text of a picture. -/
def text (h : Heap) (ps : Promises) (nested : Bool) : Picture → String
  | .circular => "[Circular]"
  | .full v parts => h.textWith ps nested v (parts.map (text h ps true))

/-- The picture at a place. -/
def at? : List Nat → Picture → Option Picture
  | [], p => some p
  | _ :: _, .circular => none
  | i :: place, .full _ parts => parts[i]?.bind (at? place)

/-- How deep a picture is. -/
def height : Picture → Nat
  | .circular => 1
  | .full _ parts => (parts.map height).foldr max 0 + 1

end Picture

namespace Heap

variable (h : Heap) (ps : Promises)

/-- The value at a place inside another. -/
def valueAt? : List Nat → Value → Option Value
  | [], v => some v
  | i :: place, v => (h.parts ps v)[i]?.bind (valueAt? place)

/-- The containers that a place lies in, the value at the place itself not among them. -/
def wayTo : List Nat → Value → List Container
  | [], _ => []
  | i :: place, v =>
    ((h.parts ps v)[i]?.map (wayTo place)).getD [] ++ v.container?.toList

end Heap

namespace Picture

variable (h : Heap) (ps : Promises)

/-- A picture begins with a value: with a mark if it is one of the containers of the way there, else
    with the value itself and all its parts. -/
def Shows (way : List Container) (v : Value) : Picture → Prop
  | .circular => ∃ c ∈ way, v.container? = some c
  | .full w parts =>
    w = v ∧ parts.length = (h.parts ps v).length ∧ ¬∃ c ∈ way, v.container? = some c

/-- A picture shows a value that lies in the containers of `path`: at each of its places stands the
    value that is there, unless that lies on the way to the place. -/
def Depicts (path : List Container) (p : Picture) (v : Value) : Prop :=
  ∀ place q, p.at? place = some q →
    ∃ w, h.valueAt? ps place v = some w ∧ q.Shows h ps (h.wayTo ps place v ++ path) w

variable {h ps} {path : List Container} {v w : Value} {parts : List Picture}

@[simp] theorem depicts_circular : circular.Depicts h ps path v ↔ v.comesAgain path = true := by
  rw [Value.comesAgain_iff]
  constructor
  · intro hp
    obtain ⟨w, hw, hshows⟩ := hp [] .circular rfl
    cases hw
    exact hshows
  · intro hv place q hq
    cases place with
    | nil =>
      cases hq
      exact ⟨v, rfl, hv⟩
    | cons i place => cases hq

/-- A picture of a value that does not come again is made of pictures of its parts. -/
theorem depicts_full : (full w parts).Depicts h ps path v ↔
    w = v ∧ v.comesAgain path = false ∧
      List.Forall₂ (Depicts h ps (v.container?.toList ++ path)) parts (h.parts ps v) := by
  rw [← Bool.not_eq_true, Value.comesAgain_iff]
  constructor
  · intro hp
    obtain ⟨u, hu, hw, hlen, hway⟩ := hp [] _ rfl
    cases hu
    refine ⟨hw, hway, List.forall₂_iff_get.mpr ⟨hlen, fun i hi hi' place q hq => ?_⟩⟩
    have hq' : (full w parts).at? (i :: place) = some q := by
      simpa [at?, List.getElem?_eq_getElem hi] using hq
    simpa [Heap.valueAt?, Heap.wayTo, List.getElem?_eq_getElem hi'] using hp _ q hq'
  · rintro ⟨rfl, hway, hparts⟩ place q hq
    obtain ⟨hlen, hparts⟩ := List.forall₂_iff_get.mp hparts
    cases place with
    | nil =>
      cases hq
      exact ⟨w, rfl, rfl, hlen, hway⟩
    | cons i place =>
      obtain ⟨r, hr, hq⟩ := Option.bind_eq_some_iff.mp hq
      obtain ⟨hi, rfl⟩ := List.getElem?_eq_some_iff.mp hr
      have hi' : i < (h.parts ps w).length := hlen ▸ hi
      simpa [Heap.valueAt?, Heap.wayTo, List.getElem?_eq_getElem hi'] using
        hparts i hi hi' place q hq

theorem height_full_le {n : Nat} : (full v parts).height ≤ n + 1 ↔ ∀ p ∈ parts, p.height ≤ n := by
  rw [height, Nat.succ_le_succ_iff]
  induction parts with
  | nil => simp
  | cons p r ih => simp only [List.map_cons, List.foldr_cons, Nat.max_le, ih, List.forall_mem_cons]

end Picture

/-! ## Texts and pictures -/

/-- Texts of items one by one are texts of pictures of them. -/
theorem mapM_eq_some_iff_pictures {f : Value → Option String} {R : Picture → Value → Prop}
    {g : Picture → String} (hf : ∀ v text, f v = some text ↔ ∃ p, R p v ∧ g p = text)
    (items : List Value) (texts : List String) :
    items.mapM f = some texts ↔ ∃ parts, List.Forall₂ R parts items ∧ parts.map g = texts := by
  induction items generalizing texts with
  | nil => simp [List.mapM_nil, eq_comm]
  | cons v r ih =>
    rw [List.mapM_cons]
    constructor
    · intro hv
      obtain ⟨text, htext, hv⟩ := Option.bind_eq_some_iff.mp hv
      obtain ⟨rest, hrest, hv⟩ := Option.bind_eq_some_iff.mp hv
      obtain ⟨p, hp, rfl⟩ := (hf v text).mp htext
      obtain ⟨parts, hparts, rfl⟩ := (ih rest).mp hrest
      cases hv
      exact ⟨p :: parts, .cons hp hparts, rfl⟩
    · rintro ⟨_, hpictures, rfl⟩
      obtain ⟨p, parts, hp, hparts, rfl⟩ := List.forall₂_cons_right_iff.mp hpictures
      rw [(hf v _).mpr ⟨p, hp, rfl⟩, (ih _).mpr ⟨parts, hparts, rfl⟩]
      rfl

namespace Heap

variable (h : Heap) (ps : Promises)

/-- The text of a value is the text of a picture of it, as far as the fuel allows. -/
theorem renderFrom_eq_some_iff (fuel : Nat) (path : List Container) (nested : Bool) (v : Value)
    (text : String) : h.renderFrom ps fuel path nested v = some text ↔
      ∃ p : Picture, (p.Depicts h ps path v ∧ p.height ≤ fuel) ∧ p.text h ps nested = text := by
  induction fuel generalizing path nested v text with
  | zero =>
    constructor
    · intro hv
      cases hv
    · rintro ⟨p, ⟨-, hheight⟩, -⟩
      cases p <;> simp [Picture.height] at hheight
  | succ fuel ih =>
    rw [renderFrom_succ]
    split
    next hagain =>
      constructor
      · intro hv
        cases hv
        exact ⟨.circular, ⟨Picture.depicts_circular.mpr hagain, by simp [Picture.height]⟩,
          by simp [Picture.text]⟩
      · rintro ⟨p, ⟨hp, -⟩, rfl⟩
        cases p with
        | circular => simp [Picture.text]
        | full w parts => simp [hagain, Picture.depicts_full] at hp
    next hagain =>
      have hparts := mapM_eq_some_iff_pictures (ih (v.container?.toList ++ path) true)
        (h.parts ps v)
      simp only [Option.map_eq_some_iff, hparts]
      constructor
      · rintro ⟨_, ⟨parts, hdepicts, rfl⟩, rfl⟩
        refine ⟨.full v parts, ⟨Picture.depicts_full.mpr ⟨rfl, by simpa using hagain, ?_⟩,
          Picture.height_full_le.mpr fun p hp => ?_⟩, by rw [Picture.text]⟩
        · exact hdepicts.imp fun _ _ hp => hp.1
        · obtain ⟨i, hi, rfl⟩ := List.getElem_of_mem hp
          exact ((List.forall₂_iff_get.mp hdepicts).2 i hi
            (hdepicts.length_eq ▸ hi)).2
      · rintro ⟨p, ⟨hp, hheight⟩, rfl⟩
        cases p with
        | circular => exact absurd (Picture.depicts_circular.mp hp) hagain
        | full w parts =>
          obtain ⟨rfl, -, hdepicts⟩ := Picture.depicts_full.mp hp
          rw [Picture.height_full_le] at hheight
          refine ⟨_, ⟨parts, List.forall₂_iff_get.mpr ⟨hdepicts.length_eq, fun i hi hi' => ?_⟩,
            rfl⟩, by rw [Picture.text]⟩
          exact ⟨(List.forall₂_iff_get.mp hdepicts).2 i hi hi',
            hheight _ (List.getElem_mem hi)⟩

/-- More fuel gives the same text. -/
theorem renderFrom_mono {fuel fuel' : Nat} (hle : fuel ≤ fuel') {path : List Container}
    {nested : Bool} {v : Value} {text : String}
    (hv : h.renderFrom ps fuel path nested v = some text) :
    h.renderFrom ps fuel' path nested v = some text := by
  rw [renderFrom_eq_some_iff] at hv ⊢
  obtain ⟨p, ⟨hp, hheight⟩, htext⟩ := hv
  exact ⟨p, ⟨hp, Nat.le_trans hheight hle⟩, htext⟩

end Heap

end CoScript
