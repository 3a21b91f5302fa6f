import CoScript.Eval.Call
import Mathlib.Data.List.Nodup
import Mathlib.Logic.Relation

/-!
# Classes above one another

A class is declared over one that exists already, and that does not change. So a class is younger
than the one above it, the way up from a class has an end, and on it no class comes twice. The
fields of an instance are those of the topmost class first, and its constructor is the one of the
nearest class that has one.

Results:
* `Heap.Ranked`: each class is younger than the one above it; `Heap.Ranked.newClass`.
* `Heap.Ranked.acyclic`: no class is above itself.
* `Heap.Ranked.classChain_up`: the chain of a class goes on with the chain of the one above it.
* `pendingFields_up`, `constructorOf?_up`: fields and constructors along the chain.
-/

namespace CoScript

/-! ## Specification -/

namespace Heap

/-- Each class is younger than the one above it. -/
def Ranked (h : Heap) : Prop :=
  ∀ r s, (h.cls r).superclass = some s → s.index < r.index

/-- A class is right above another one. -/
def Extends (h : Heap) (r s : Ref .cls) : Prop :=
  (h.cls r).superclass = some s

end Heap

variable {h : Heap} {r s : Ref .cls}

/-! ## Chains -/

namespace Heap

theorem ranked_empty : Heap.empty.Ranked := by
  intro r s hs
  simp [Heap.empty, cls] at hs

/-- A class that is declared over one that exists is younger. -/
theorem Ranked.newClass (hh : h.Ranked) {c : Class}
    (hc : ∀ s, c.superclass = some s → s.index < h.classes.size) : (h.newClass c).2.Ranked := by
  intro r s hs
  by_cases hr : r.index = h.classes.size
  · have hnew : (h.newClass c).2.cls r = c := by
      simp [Heap.newClass, cls, Array.getD_eq_getD_getElem?, hr]
    rw [hnew] at hs
    exact hr ▸ hc s hs
  · have hold : (h.newClass c).2.cls r = h.cls r := by
      simp [Heap.newClass, cls, Array.getD_eq_getD_getElem?, Array.getElem?_push, hr]
    rw [hold] at hs
    exact hh r s hs

/-- All that is found on the way up is older. -/
theorem Ranked.lt_of_transGen (hh : h.Ranked) (hs : Relation.TransGen h.Extends r s) :
    s.index < r.index := by
  induction hs with
  | single hs => exact hh _ _ hs
  | tail _ hs ih => exact Nat.lt_trans (hh _ _ hs) ih

/-- No class is above itself. -/
theorem Ranked.acyclic (hh : h.Ranked) (r : Ref .cls) : ¬ Relation.TransGen h.Extends r r :=
  fun hr => Nat.lt_irrefl _ (hh.lt_of_transGen hr)

/-- What holds of topmost classes and passes from each class to those below it holds of all. -/
theorem Ranked.induction (hh : h.Ranked) {P : Ref .cls → Prop}
    (root : ∀ r, (h.cls r).superclass = none → P r)
    (up : ∀ r s, (h.cls r).superclass = some s → P s → P r) (r : Ref .cls) : P r := by
  generalize hm : r.index = m
  induction m using Nat.strongRecOn generalizing r with
  | ind m ih =>
    cases hs : (h.cls r).superclass with
    | none => exact root r hs
    | some s => exact up r s hs (ih s.index (hm ▸ hh r s hs) s rfl)

theorem climbClasses_root (hr : (h.cls r).superclass = none) (n : Nat) :
    h.climbClasses n r = [r] := by
  cases n with
  | zero => rfl
  | succ n => rw [climbClasses, hr]

theorem classChain_root (hr : (h.cls r).superclass = none) : h.classChain r = [r] :=
  climbClasses_root hr _

/-- As many steps as a class is old are enough, and more do no harm. -/
theorem Ranked.climbClasses_eq (hh : h.Ranked) (r : Ref .cls) :
    ∀ n, r.index ≤ n → h.climbClasses n r = h.classChain r := by
  induction r using hh.induction with
  | root r hr =>
    intro n _
    rw [climbClasses_root hr, classChain_root hr]
  | up r s hs ih =>
    have hstep (n : Nat) (hn : r.index ≤ n) : h.climbClasses n r = r :: h.classChain s := by
      obtain ⟨n, rfl⟩ : ∃ k, n = k + 1 := ⟨n - 1, by have := hh r s hs; omega⟩
      rw [climbClasses, hs]
      exact congrArg (r :: ·) (ih n (by have := hh r s hs; omega))
    exact fun n hn => (hstep n hn).trans (hstep r.index (Nat.le_refl _)).symm

/-- The chain of a class goes on with the chain of the one above it. -/
theorem Ranked.classChain_up (hh : h.Ranked) (hs : (h.cls r).superclass = some s) :
    h.classChain r = r :: h.classChain s := by
  rw [← hh.climbClasses_eq r (r.index + 1) (Nat.le_succ _), climbClasses, hs]
  exact congrArg (r :: ·) (hh.climbClasses_eq s _ (Nat.le_of_lt (hh r s hs)))

/-- The chain of a class holds the class and all that is above it. -/
theorem Ranked.mem_classChain (hh : h.Ranked) :
    s ∈ h.classChain r ↔ Relation.ReflTransGen h.Extends r s := by
  induction r using hh.induction with
  | root r hr =>
    rw [classChain_root hr, List.mem_singleton]
    constructor
    · rintro rfl
      exact .refl
    · intro hs
      obtain hs | ⟨p, hp, -⟩ := hs.cases_head
      · exact hs.symm
      · cases hr.symm.trans hp
  | up r p hp ih =>
    rw [hh.classChain_up hp, List.mem_cons, ih]
    constructor
    · rintro (rfl | hs)
      · exact .refl
      · exact .head hp hs
    · intro hs
      obtain hs | ⟨p', hp', hs⟩ := hs.cases_head
      · exact .inl hs.symm
      · obtain rfl : p' = p := Option.some.inj (hp'.symm.trans hp)
        exact .inr hs

/-- No class comes twice. -/
theorem Ranked.nodup_classChain (hh : h.Ranked) (r : Ref .cls) : (h.classChain r).Nodup := by
  induction r using hh.induction with
  | root r hr =>
    rw [classChain_root hr]
    exact List.nodup_singleton _
  | up r p hp ih =>
    rw [hh.classChain_up hp]
    refine List.nodup_cons.mpr ⟨fun hr => ?_, ih⟩
    exact hh.acyclic r (.head' hp (hh.mem_classChain.mp hr))

end Heap

/-! ## Fields and constructors -/

/-- The fields of an instance depend on the classes only. -/
theorem pendingFields_congr {h' : Heap} (hc : h'.classes = h.classes) (r : Ref .cls) :
    pendingFields h' r = pendingFields h r := by
  have hcls (r : Ref .cls) : h'.cls r = h.cls r := by rw [Heap.cls, hc, Heap.cls]
  have hclimb (n : Nat) (r : Ref .cls) : h'.climbClasses n r = h.climbClasses n r := by
    induction n generalizing r with
    | zero => rfl
    | succ n ih => simp only [Heap.climbClasses, hcls, ih]
  simp only [pendingFields, Heap.classChain, hclimb, hcls]

theorem pendingFields_root (hr : (h.cls r).superclass = none) :
    pendingFields h r = (h.cls r).fields.map (⟨r, ·⟩) := by
  simp [pendingFields, Heap.classChain_root hr]

/-- The fields of the classes above come first. -/
theorem pendingFields_up (hh : h.Ranked) (hs : (h.cls r).superclass = some s) :
    pendingFields h r = pendingFields h s ++ (h.cls r).fields.map (⟨r, ·⟩) := by
  simp [pendingFields, hh.classChain_up hs]

/-- A constructor of the class itself. -/
theorem constructorOf?_own {f : Ref .function} {c : Closure}
    (hf : (h.cls r).methods.get? "constructor" = some f) (hc : h.function f = .closure c) :
    constructorOf? h r = some c := by
  have hmethod : h.method? r "constructor" = some f := by
    rw [Heap.method?, Heap.classChain]
    cases r.index with
    | zero => simp [Heap.climbClasses, hf]
    | succ n =>
      rw [Heap.climbClasses]
      split <;> simp [hf]
  rw [constructorOf?, hmethod]
  simp [hc]

/-- A class without a constructor has the one of the class above it. -/
theorem constructorOf?_up (hh : h.Ranked) (hs : (h.cls r).superclass = some s)
    (hr : (h.cls r).methods.get? "constructor" = none) :
    constructorOf? h r = constructorOf? h s := by
  simp [constructorOf?, Heap.method?, hh.classChain_up hs, hr]

theorem constructorOf?_root (hr : (h.cls r).superclass = none)
    (hm : (h.cls r).methods.get? "constructor" = none) : constructorOf? h r = none := by
  simp [constructorOf?, Heap.method?, Heap.classChain_root hr, hm]

end CoScript
