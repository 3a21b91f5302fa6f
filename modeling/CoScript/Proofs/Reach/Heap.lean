import CoScript.Proofs.Try.Completion
import CoScript.Store.Root

/-!
# What code can reach

Code runs in a scope, and it writes that scope, scopes around it and new ones inside. So it leaves
scopes alone that are not around its own. What a part of the evaluation makes of the heap is said
relative to a set of scopes that it must not reach: they keep what they hold, and no function and no
class is made in a place from which they can be reached.

Results:
* `Scopes.Inside`: the scopes from which a scope can be reached.
* `Heap.Scoped`: scopes, functions and classes lie in scopes that exist.
* `Heap.Clear`: a scope from which none of some scopes can be reached.
* `Heap.Grows`: what is made of a heap without reaching some scopes, with one lemma an operation.
-/

namespace CoScript

/-! ## Scopes inside scopes -/

namespace Scopes

/-- A scope exists. -/
def Has (s : Scopes) (r : Ref .scope) : Prop :=
  r.index < s.cells.size

instance (s : Scopes) (r : Ref .scope) : Decidable (s.Has r) :=
  inferInstanceAs (Decidable (_ < _))

/-- A scope is another one or lies inside it. -/
inductive Inside (s : Scopes) (outer : Ref .scope) : Ref .scope → Prop
  | self : Inside s outer outer
  | up {r p : Ref .scope} (hp : (s.get r).parent = some p) (h : Inside s outer p) :
    Inside s outer r

/-- A scope is younger than the one around it. -/
def Outward (s : Scopes) : Prop :=
  ∀ r p, (s.get r).parent = some p → p.index < r.index

variable {s s' : Scopes} {r r' outer : Ref .scope}

theorem get_of_not_has (hr : ¬ s.Has r) : s.get r = default := by
  rw [get, Array.getD_eq_getD_getElem?, Array.getElem?_eq_none (Nat.le_of_not_lt hr),
    Option.getD_none]

/-- A scope with another one around it exists. -/
theorem has_of_parent {p : Ref .scope} (hp : (s.get r).parent = some p) : s.Has r := by
  refine Decidable.byContradiction fun hr => ?_
  rw [get_of_not_has hr] at hp
  cases hp

theorem Outward.has {p : Ref .scope} (hs : s.Outward) (hp : (s.get r).parent = some p) :
    s.Has p :=
  Nat.lt_trans (hs r p hp) (has_of_parent hp)

/-- Only younger scopes lie inside a scope. -/
theorem Inside.le (hs : s.Outward) (h : s.Inside outer r) : outer.index ≤ r.index := by
  induction h with
  | self => exact Nat.le_refl _
  | up hp _ ih => exact Nat.le_trans ih (Nat.le_of_lt (hs _ _ hp))

/-- The scope that a name or a function leads to is around the place where the search begins. -/
theorem inside_of_climb {p : Scope → Bool} {n : Nat} (h : s.climb p n r = some r') :
    s.Inside r' r := by
  induction n generalizing r with
  | zero =>
    rw [climb] at h
    split at h <;> cases h
    exact .self
  | succ n ih =>
    rw [climb] at h
    split at h
    · cases h
      exact .self
    · split at h
      · rename_i hp
        exact .up hp (ih h)
      · cases h

theorem inside_functionScope (s : Scopes) (r : Ref .scope) :
    s.Inside (s.functionScope r) r := by
  unfold functionScope
  cases hc : s.climb (fun c => c.isFunction || c.parent.isNone) r.index r with
  | none => exact .self
  | some t => exact inside_of_climb hc

theorem inside_assignTarget {name : String} (h : s.assignTarget r name = .ok r') :
    s.Inside r' r := by
  unfold assignTarget at h
  split at h
  · cases h
  · rename_i t ht
    split at h <;> cases h
    exact inside_of_climb ht

/-- Scopes that are there when others are made lie inside the same ones as before. -/
theorem inside_iff (hs : s.Outward)
    (hsame : ∀ r, s.Has r → (s'.get r).parent = (s.get r).parent) (hr : s.Has r) :
    s'.Inside outer r ↔ s.Inside outer r := by
  constructor
  · intro h
    induction h with
    | self => exact .self
    | up hp _ ih =>
      rw [hsame _ hr] at hp
      exact .up hp (ih (hs.has hp))
  · intro h
    induction h with
    | self => exact .self
    | up hp _ ih => exact .up ((hsame _ hr).trans hp) (ih (hs.has hp))

/-! ### Writes -/

theorem get_push {c : Scope} (hr : s.Has r) : (⟨s.cells.push c⟩ : Scopes).get r = s.get r := by
  simp [get, Array.getD_eq_getD_getElem?, Array.getElem?_push, Nat.ne_of_lt hr]

theorem get_bind_of_ne (s : Scopes) {name : String} {b : Binding} (hr : r' ≠ r) :
    (s.bind r name b).get r' = s.get r' := by
  have hne : ¬ r.index = r'.index := fun h => hr (Ref.index_inj.mp h).symm
  simp [bind, modify, get, Array.getD_eq_getD_getElem?, Array.getElem?_modify, hne]

theorem parent_bind (s : Scopes) (r r' : Ref .scope) (name : String) (b : Binding) :
    ((s.bind r name b).get r').parent = (s.get r').parent := by
  by_cases hr : r' = r
  · subst hr
    unfold bind modify get
    simp only [Array.getD_eq_getD_getElem?, Array.getElem?_modify, if_true]
    cases s.cells[r'.index]? <;> rfl
  · rw [get_bind_of_ne s hr]

theorem size_bind (s : Scopes) (r : Ref .scope) (name : String) (b : Binding) :
    (s.bind r name b).cells.size = s.cells.size :=
  Array.size_modify ..

/-- A new scope inside one that exists. -/
theorem Outward.push (hs : s.Outward) {c : Scope} (hc : ∀ p, c.parent = some p → s.Has p) :
    Outward ⟨s.cells.push c⟩ := by
  intro r p hp
  by_cases hr : s.Has r
  · rw [get_push hr] at hp
    exact hs r p hp
  · by_cases hlast : r.index = s.cells.size
    · have hget : (⟨s.cells.push c⟩ : Scopes).get r = c := by
        have heq : r = ⟨s.cells.size⟩ := by cases r; simp_all
        rw [heq, get_push_size]
      rw [hget] at hp
      exact hlast ▸ hc p hp
    · have hhas := has_of_parent hp
      simp only [Has, Array.size_push] at hhas hr
      omega

end Scopes

/-! ## Heaps in order -/

/-- The scope that a function of the script was made in. -/
def Function.scope? : Function → Option (Ref .scope)
  | .closure c => some c.scope
  | _ => none

/-- Scopes, functions and classes lie in scopes that exist. -/
structure Heap.Placed (h : Heap) : Prop where
  outward : h.scopes.Outward
  functions : ∀ r s, (h.function r).scope? = some s → h.scopes.Has s
  classes : ∀ r : Ref .cls, r.index < h.classes.size → h.scopes.Has (h.cls r).scope

/-- What lies in a scope does so in one that exists, and there are scopes. -/
structure Heap.Scoped (h : Heap) : Prop extends h.Placed where
  nonempty : 0 < h.scopes.cells.size

/-- None of the scopes in `K` can be reached from a scope. -/
structure Heap.Clear (K : Ref .scope → Prop) (h : Heap) (r : Ref .scope) : Prop where
  has : h.scopes.Has r
  not_inside : ∀ k, K k → ¬ h.scopes.Inside k r

/-- What is made of a heap without reaching the scopes in `K`. Scopes stay where they are, functions
    get no more than a name and classes no more than methods, and what is new lies clear of `K`. -/
structure Heap.Grows (K : Ref .scope → Prop) (h h' : Heap) : Prop where
  scopes_le : h.scopes.cells.size ≤ h'.scopes.cells.size
  parent : ∀ r, h.scopes.Has r → (h'.scopes.get r).parent = (h.scopes.get r).parent
  kept : ∀ k, K k → h'.scopes.get k = h.scopes.get k
  functions_le : h.functions.size ≤ h'.functions.size
  function : ∀ r : Ref .function, r.index < h.functions.size →
    (h'.function r).scope? = (h.function r).scope?
  newFunction : ∀ r : Ref .function, h.functions.size ≤ r.index →
    ∀ s, (h'.function r).scope? = some s → h'.Clear K s
  classes_le : h.classes.size ≤ h'.classes.size
  cls : ∀ r : Ref .cls, r.index < h.classes.size → (h'.cls r).scope = (h.cls r).scope
  newClass : ∀ r : Ref .cls, h.classes.size ≤ r.index → r.index < h'.classes.size →
    h'.Clear K (h'.cls r).scope

namespace Heap

variable {K : Ref .scope → Prop} {h h' h'' : Heap} {r : Ref .scope}

theorem function_of_le (h : Heap) {r : Ref .function} (hr : h.functions.size ≤ r.index) :
    h.function r = .print := by
  rw [function, Array.getD_eq_getD_getElem?, Array.getElem?_eq_none hr, Option.getD_none]
  rfl

/-- A scope that exists and is not reached from itself. -/
theorem Clear.not_mem (hr : h.Clear K r) : ¬ K r :=
  fun hk => hr.not_inside r hk .self

theorem Clear.of_inside {t : Ref .scope} (hh : h.Scoped) (hr : h.Clear K r)
    (ht : h.scopes.Inside t r) : h.Clear K t := by
  induction ht with
  | self => exact hr
  | up hp _ ih =>
    exact ih ⟨hh.outward.has hp, fun k hk hin => hr.not_inside k hk (.up hp hin)⟩

theorem Clear.parent {p : Ref .scope} (hh : h.Scoped) (hr : h.Clear K r)
    (hp : (h.scopes.get r).parent = some p) : h.Clear K p :=
  hr.of_inside hh (.up hp .self)

/-- With nothing to stay clear of, it is enough that the scope exists. -/
theorem clear_none (hr : h.scopes.Has r) : h.Clear (fun _ => False) r :=
  ⟨hr, fun _ hk => hk.elim⟩

namespace Grows

theorem refl (h : Heap) : h.Grows K h where
  scopes_le := Nat.le_refl _
  parent _ _ := rfl
  kept _ _ := rfl
  functions_le := Nat.le_refl _
  function _ _ := rfl
  newFunction r hr s hs := by
    rw [h.function_of_le hr] at hs
    cases hs
  classes_le := Nat.le_refl _
  cls _ _ := rfl
  newClass r hr hlt := absurd hr (Nat.not_le_of_lt hlt)

theorem has (hg : h.Grows K h') (hr : h.scopes.Has r) : h'.scopes.Has r :=
  Nat.lt_of_lt_of_le hr hg.scopes_le

/-- What is clear of some scopes stays so. -/
theorem clear {K' : Ref .scope → Prop} (hg : h.Grows K' h') (hh : h.Scoped) (hr : h.Clear K r) :
    h'.Clear K r :=
  ⟨hg.has hr.has, fun k hk hin =>
    hr.not_inside k hk ((Scopes.inside_iff hh.outward hg.parent hr.has).mp hin)⟩

theorem trans (hg : h.Grows K h') (hg' : h'.Grows K h'') (hh' : h'.Scoped) : h.Grows K h'' where
  scopes_le := Nat.le_trans hg.scopes_le hg'.scopes_le
  parent r hr := (hg'.parent r (hg.has hr)).trans (hg.parent r hr)
  kept k hk := (hg'.kept k hk).trans (hg.kept k hk)
  functions_le := Nat.le_trans hg.functions_le hg'.functions_le
  function r hr :=
    (hg'.function r (Nat.lt_of_lt_of_le hr hg.functions_le)).trans (hg.function r hr)
  newFunction r hr s hs := by
    by_cases hlt : r.index < h'.functions.size
    · rw [hg'.function r hlt] at hs
      exact hg'.clear hh' (hg.newFunction r hr s hs)
    · exact hg'.newFunction r (Nat.le_of_not_lt hlt) s hs
  classes_le := Nat.le_trans hg.classes_le hg'.classes_le
  cls r hr := (hg'.cls r (Nat.lt_of_lt_of_le hr hg.classes_le)).trans (hg.cls r hr)
  newClass r hr hlt := by
    by_cases hlt' : r.index < h'.classes.size
    · rw [hg'.cls r hlt']
      exact hg'.clear hh' (hg.newClass r hr hlt')
    · exact hg'.newClass r (Nat.le_of_not_lt hlt') hlt

/-- A change of what is no scope, no function and no class. -/
theorem of_eq (hf : h'.functions = h.functions) (hc : h'.classes = h.classes)
    (hs : h'.scopes = h.scopes) : h.Grows K h' where
  scopes_le := Nat.le_of_eq (by rw [hs])
  parent r _ := by rw [hs]
  kept k _ := by rw [hs]
  functions_le := Nat.le_of_eq (by rw [hf])
  function r _ := by rw [Heap.function, Heap.function, hf]
  newFunction r hr s hs' := by
    rw [h'.function_of_le (hf ▸ hr)] at hs'
    cases hs'
  classes_le := Nat.le_of_eq (by rw [hc])
  cls r _ := by rw [Heap.cls, Heap.cls, hc]
  newClass r hr hlt := absurd (hc ▸ hlt) (Nat.not_lt_of_le hr)

/-- A change of scopes only. -/
theorem of_scopes {ss : Scopes} (hle : h.scopes.cells.size ≤ ss.cells.size)
    (hparent : ∀ r, h.scopes.Has r → (ss.get r).parent = (h.scopes.get r).parent)
    (hkept : ∀ k, K k → ss.get k = h.scopes.get k) : h.Grows K { h with scopes := ss } where
  scopes_le := hle
  parent := hparent
  kept := hkept
  functions_le := Nat.le_refl _
  function _ _ := rfl
  newFunction r hr s hs := by
    rw [function_of_le { h with scopes := ss } hr] at hs
    cases hs
  classes_le := Nat.le_refl _
  cls _ _ := rfl
  newClass r hr hlt := absurd hr (Nat.not_le_of_lt hlt)

end Grows

theorem function_newFunction (h : Heap) (f : Function) {r : Ref .function}
    (hr : r.index = h.functions.size) : (h.newFunction f).2.function r = f := by
  simp [Heap.newFunction, Heap.function, Array.getD_eq_getD_getElem?, hr]

theorem function_newFunction_of_ne (h : Heap) (f : Function) {r : Ref .function}
    (hr : r.index ≠ h.functions.size) : (h.newFunction f).2.function r = h.function r := by
  simp [Heap.newFunction, Heap.function, Array.getD_eq_getD_getElem?, Array.getElem?_push, hr]

namespace Placed

/-- A function is made in a scope that exists. -/
theorem newFunction (hh : h.Placed) {f : Function}
    (hf : ∀ s, f.scope? = some s → h.scopes.Has s) : (h.newFunction f).2.Placed where
  outward := hh.outward
  functions r s hs := by
    by_cases heq : r.index = h.functions.size
    · rw [h.function_newFunction f heq] at hs
      exact hf s hs
    · rw [h.function_newFunction_of_ne f heq] at hs
      exact hh.functions r s hs
  classes := hh.classes

/-- A scope is made inside one that exists, or inside none. -/
theorem push (hh : h.Placed) {c : Scope} (hc : ∀ p, c.parent = some p → h.scopes.Has p) :
    Scoped { h with scopes := ⟨h.scopes.cells.push c⟩ } := by
  have hle : h.scopes.cells.size ≤ (h.scopes.cells.push c).size := by simp
  exact {
    outward := hh.outward.push hc
    nonempty := by simp
    functions := fun r s hs => Nat.lt_of_lt_of_le (hh.functions r s hs) hle
    classes := fun r hr => Nat.lt_of_lt_of_le (hh.classes r hr) hle }

end Placed

namespace Scoped

/-- Also a class that was never made has a scope that exists. -/
theorem has_cls (hh : h.Scoped) (r : Ref .cls) : h.scopes.Has (h.cls r).scope := by
  by_cases hr : r.index < h.classes.size
  · exact hh.classes r hr
  · rw [Heap.cls, Array.getD_eq_getD_getElem?, Array.getElem?_eq_none (Nat.le_of_not_lt hr)]
    exact hh.nonempty

theorem of_eq (hh : h.Scoped) (hf : h'.functions = h.functions) (hc : h'.classes = h.classes)
    (hs : h'.scopes = h.scopes) : h'.Scoped where
  outward := hs ▸ hh.outward
  nonempty := hs ▸ hh.nonempty
  functions r s := by
    rw [Heap.function, hf, hs]
    exact hh.functions r s
  classes r := by
    rw [Heap.cls, hc, hs]
    exact hh.classes r

/-- A change of scopes only. -/
theorem of_scopes (hh : h.Scoped) {s : Scopes} (hs : s.Outward)
    (hle : h.scopes.cells.size ≤ s.cells.size) : Scoped { h with scopes := s } where
  outward := hs
  nonempty := Nat.lt_of_lt_of_le hh.nonempty hle
  functions r t ht := Nat.lt_of_lt_of_le (hh.functions r t ht) hle
  classes r hr := Nat.lt_of_lt_of_le (hh.classes r hr) hle

theorem bind (hh : h.Scoped) (r : Ref .scope) (name : String) (b : Binding) :
    Scoped { h with scopes := h.scopes.bind r name b } :=
  hh.of_scopes (fun r' p hp => hh.outward r' p (h.scopes.parent_bind r r' name b ▸ hp))
    (Nat.le_of_eq (h.scopes.size_bind r name b).symm)

theorem bindAll (hh : h.Scoped) (r : Ref .scope) (bs : List (String × Binding)) :
    (h.bindAll r bs).Scoped := by
  induction bs generalizing h with
  | nil => exact hh
  | cons b bs ih => exact ih (hh.bind r b.1 b.2)

end Scoped

/-- A program starts in a scope of its own, inside one with the names that every script knows. -/
theorem Placed.newGlobals (hh : h.Placed) (names : List (String × Value)) :
    (h.newGlobals names).2.Scoped ∧ (h.newGlobals names).2.scopes.Has (h.newGlobals names).1 := by
  have hroot : (h.newRoot).2.Scoped :=
    ((hh.newFunction (f := .print) (by simp [Function.scope?])).push (by simp)).bindAll _ _
  have hsize (h : Heap) (r : Ref .scope) (bs : List (String × Binding)) :
      (h.bindAll r bs).scopes.cells.size = h.scopes.cells.size := by
    induction bs generalizing h with
    | nil => rfl
    | cons b bs ih =>
      exact (ih { h with scopes := h.scopes.bind r b.1 b.2 }).trans (h.scopes.size_bind ..)
  refine ⟨(hroot.bindAll _ _).push ?_, by simp [Heap.newGlobals, newScope, Scopes.new, Scopes.Has]⟩
  rintro _ ⟨⟩
  rw [Scopes.Has, hsize]
  simp [newRoot, newScope, Scopes.new, hsize, Heap.newFunction]

/-! ## Operations -/

section Operations

/-- A heap in which the scopes in `K` exist. -/
structure Keeping (K : Ref .scope → Prop) (h : Heap) : Prop extends h.Scoped where
  kept : ∀ k, K k → h.scopes.Has k

theorem Keeping.grows (hh : h.Keeping K) (hg : h.Grows K h') (hh' : h'.Scoped) : h'.Keeping K :=
  ⟨hh', fun k hk => hg.has (hh.kept k hk)⟩

/-- A binding is written clear of `K`. -/
theorem grows_bind (hh : h.Scoped) (hr : h.Clear K r) (name : String) (b : Binding) :
    h.Grows K { h with scopes := h.scopes.bind r name b } ∧
      Scoped { h with scopes := h.scopes.bind r name b } := by
  refine ⟨.of_scopes (Nat.le_of_eq (h.scopes.size_bind r name b).symm)
    (fun r' _ => h.scopes.parent_bind r r' name b) fun k hk => ?_, hh.bind r name b⟩
  exact h.scopes.get_bind_of_ne fun heq => hr.not_mem (heq ▸ hk)

/-- A scope is made in a place that is clear of `K`, and is so itself. -/
theorem grows_push (hh : h.Keeping K) {c : Scope} (hc : ∀ p, c.parent = some p → h.Clear K p) :
    h.Grows K { h with scopes := ⟨h.scopes.cells.push c⟩ } ∧
      Scoped { h with scopes := ⟨h.scopes.cells.push c⟩ } ∧
      Clear K { h with scopes := ⟨h.scopes.cells.push c⟩ } ⟨h.scopes.cells.size⟩ := by
  have hg : h.Grows K { h with scopes := ⟨h.scopes.cells.push c⟩ } :=
    .of_scopes (by simp) (fun r hr => by rw [Scopes.get_push hr])
      fun k hk => Scopes.get_push (hh.kept k hk)
  refine ⟨hg, hh.toPlaced.push fun p hp => (hc p hp).has, by simp [Scopes.Has],
    fun k hk hin => ?_⟩
  generalize hlast : (⟨h.scopes.cells.size⟩ : Ref .scope) = last at hin
  cases hin with
  | self =>
    have hhas := hh.kept k hk
    rw [← hlast] at hhas
    exact absurd hhas (Nat.lt_irrefl _)
  | up hp hin =>
    rw [← hlast, get_push_size] at hp
    exact (hg.clear hh.toScoped (hc _ hp)).not_inside k hk hin

/-- A function is made in a place that is clear of `K`. -/
theorem grows_newFunction (hh : h.Scoped) {f : Function}
    (hf : ∀ s, f.scope? = some s → h.Clear K s) :
    h.Grows K (h.newFunction f).2 ∧ (h.newFunction f).2.Scoped := by
  refine ⟨{
    scopes_le := Nat.le_refl _
    parent := fun _ _ => rfl
    kept := fun _ _ => rfl
    functions_le := by simp [newFunction]
    function := fun r hr => by rw [h.function_newFunction_of_ne f (Nat.ne_of_lt hr)]
    newFunction := fun r hr s hs => ?_
    classes_le := Nat.le_refl _
    cls := fun _ _ => rfl
    newClass := fun r hr hlt => absurd hr (Nat.not_le_of_lt hlt) },
    hh.toPlaced.newFunction fun s hs => (hf s hs).has, hh.nonempty⟩
  by_cases heq : r.index = h.functions.size
  · rw [h.function_newFunction f heq] at hs
    exact ⟨(hf s hs).has, (hf s hs).not_inside⟩
  · rw [h.function_newFunction_of_ne f heq, h.function_of_le hr] at hs
    cases hs

/-- A class is declared in a place that is clear of `K`. -/
theorem grows_newClass (hh : h.Scoped) {c : Class} (hc : h.Clear K c.scope) :
    h.Grows K (h.newClass c).2 ∧ (h.newClass c).2.Scoped := by
  have hold (r : Ref .cls) (hr : r.index ≠ h.classes.size) :
      (h.newClass c).2.cls r = h.cls r := by
    simp [newClass, cls, Array.getD_eq_getD_getElem?, Array.getElem?_push, hr]
  have hlast (r : Ref .cls) (hr : r.index = h.classes.size) : (h.newClass c).2.cls r = c := by
    simp [newClass, cls, Array.getD_eq_getD_getElem?, hr]
  have hclear : (h.newClass c).2.Clear K c.scope := ⟨hc.has, hc.not_inside⟩
  refine ⟨{
    scopes_le := Nat.le_refl _
    parent := fun _ _ => rfl
    kept := fun _ _ => rfl
    functions_le := Nat.le_refl _
    function := fun _ _ => rfl
    newFunction := fun r hr s hs => by
      rw [(h.newClass c).2.function_of_le hr] at hs
      cases hs
    classes_le := by simp [newClass]
    cls := fun r hr => by rw [hold r (Nat.ne_of_lt hr)]
    newClass := fun r hr hlt => ?_ }, {
    outward := hh.outward
    nonempty := hh.nonempty
    functions := hh.functions
    classes := fun r hr => ?_ }⟩
  · have heq : r.index = h.classes.size := by
      simp only [newClass, Array.size_push] at hlt
      omega
    rw [hlast r heq]
    exact hclear
  · by_cases heq : r.index = h.classes.size
    · rw [hlast r heq]
      exact hc.has
    · rw [hold r heq]
      refine hh.classes r ?_
      simp only [newClass, Array.size_push] at hr
      omega

/-- Functions that keep their code, and classes that keep their scopes. -/
theorem grows_modify (hh : h.Scoped) (hs : h'.scopes = h.scopes)
    (hfs : h'.functions.size = h.functions.size)
    (hf : ∀ r, (h'.function r).scope? = (h.function r).scope?)
    (hcs : h'.classes.size = h.classes.size) (hc : ∀ r, (h'.cls r).scope = (h.cls r).scope) :
    h.Grows K h' ∧ h'.Scoped := by
  refine ⟨{
    scopes_le := Nat.le_of_eq (by rw [hs])
    parent := fun r _ => by rw [hs]
    kept := fun k _ => by rw [hs]
    functions_le := Nat.le_of_eq hfs.symm
    function := fun r _ => hf r
    newFunction := fun r hr s hs' => ?_
    classes_le := Nat.le_of_eq hcs.symm
    cls := fun r _ => hc r
    newClass := fun r hr hlt => absurd hr (Nat.not_le_of_lt (hcs ▸ hlt)) }, {
    outward := hs ▸ hh.outward
    nonempty := hs ▸ hh.nonempty
    functions := fun r s => ?_
    classes := fun r hr => ?_ }⟩
  · rw [h'.function_of_le (hfs ▸ hr)] at hs'
    cases hs'
  · rw [hf r, hs]
    exact hh.functions r s
  · rw [hc r, hs]
    exact hh.classes r (hcs ▸ hr)

theorem grows_nameFunction (hh : h.Scoped) (v : Value) (name : String) :
    h.Grows K (h.nameFunction v name) ∧ (h.nameFunction v name).Scoped := by
  cases v with
  | function r =>
    refine grows_modify hh rfl (Array.size_modify ..) (fun r' => ?_) rfl fun _ => rfl
    simp only [nameFunction, function, Array.getD_eq_getD_getElem?, Array.getElem?_modify]
    split
    · cases h.functions[r'.index]? with
      | none => rfl
      | some f => cases f <;> rfl
    · rfl
  | _ => exact ⟨.refl h, hh⟩

theorem grows_setMethods (hh : h.Scoped) (r : Ref .cls) (methods : Ordered (Ref .function)) :
    h.Grows K { h with classes := h.classes.modify r.index fun c => { c with methods } } ∧
      Scoped { h with classes := h.classes.modify r.index fun c => { c with methods } } := by
  refine grows_modify hh rfl rfl (fun _ => rfl) (Array.size_modify ..) fun r' => ?_
  simp only [cls, Array.getD_eq_getD_getElem?, Array.getElem?_modify]
  split
  · cases h.classes[r'.index]? <;> rfl
  · rfl

end Operations

end Heap

end CoScript
