import CoScript.Proofs.Reach.Heap

/-!
# The scopes around a place

The scopes around a place form a chain, from the place itself to a scope with nothing around it. A
search along this chain ends at the innermost scope with the property that is searched for, and
fails only if no scope of the chain has it.

Results:
* `Scopes.Inside.total`: of two scopes around a place, one is around the other.
* `Scopes.Nearest`: the innermost scope around a place with a property.
* `Scopes.climb_spec`: where a search ends.
* `Scopes.find?_eq_some_iff`, `Scopes.find?_eq_none_iff`: the scope that a name leads to.
* `Scopes.Forest.nearest_functionScope`: the scope of the function around a place.
-/

namespace CoScript

/-! ## Specification -/

/-- A scope binds a name. -/
def Scope.Binds (c : Scope) (name : String) : Prop :=
  (c.bindings.get? name).isSome

namespace Scopes

variable {s : Scopes} {r t u outer : Ref .scope} {name : String}

/-- Scopes as they come about: a scope is younger than the one around it, and one with nothing
    around it counts as that of a function. -/
structure Forest (s : Scopes) : Prop where
  outward : s.Outward
  root : ∀ r, (s.get r).parent = none → (s.get r).isFunction = true

/-- The innermost scope around a place with a property. -/
structure Nearest (s : Scopes) (p : Scope → Prop) (r t : Ref .scope) : Prop where
  around : s.Inside t r
  has : p (s.get t)
  innermost : ∀ u, s.Inside u r → p (s.get u) → s.Inside u t

/-! ## The chain around a place -/

theorem Inside.trans (h : s.Inside outer t) (h' : s.Inside t r) : s.Inside outer r := by
  induction h' with
  | self => exact h
  | up hp _ ih => exact .up hp ih

/-- Scopes that lie inside each other are the same. -/
theorem Inside.antisymm (hs : s.Outward) (h : s.Inside t r) (h' : s.Inside r t) : t = r :=
  Ref.index_inj.mp (Nat.le_antisymm (h.le hs) (h'.le hs))

/-- Of two scopes around a place, one is around the other. -/
theorem Inside.total (h : s.Inside t r) (h' : s.Inside u r) : s.Inside t u ∨ s.Inside u t := by
  induction h with
  | self => exact .inr h'
  | @up r p hp hin ih =>
    cases h' with
    | self => exact .inl (.up hp hin)
    | up hp' hin' =>
      have hsame : p = _ := Option.some.inj (hp.symm.trans hp')
      exact ih (hsame ▸ hin')

/-- Around a scope there is the scope itself, and what is around the one around it. -/
theorem inside_iff_of_parent {p : Ref .scope} (hp : (s.get r).parent = some p) :
    s.Inside t r ↔ t = r ∨ s.Inside t p := by
  constructor
  · intro h
    cases h with
    | self => exact .inl rfl
    | up hp' h =>
      have hsame : p = _ := Option.some.inj (hp.symm.trans hp')
      exact .inr (hsame ▸ h)
  · rintro (rfl | h)
    · exact .self
    · exact .up hp h

/-- Around a scope with nothing around it there is only the scope itself. -/
theorem inside_iff_of_root (hp : (s.get r).parent = none) : s.Inside t r ↔ t = r := by
  constructor
  · intro h
    cases h with
    | self => rfl
    | up hp' => cases hp.symm.trans hp'
  · rintro rfl
    exact .self

/-- What is around a scope that exists does so too. -/
theorem Inside.has (hs : s.Outward) (hr : s.Has r) (h : s.Inside t r) : s.Has t :=
  Nat.lt_of_le_of_lt (h.le hs) hr

/-- What lies inside a scope that exists does so too. -/
theorem Inside.has_of_outer (ht : s.Has t) (h : s.Inside t r) : s.Has r := by
  cases h with
  | self => exact ht
  | up hp _ => exact has_of_parent hp

/-- Around every scope there is one with nothing around it. -/
theorem exists_root (hs : s.Outward) (r : Ref .scope) :
    ∃ u, s.Inside u r ∧ (s.get u).parent = none := by
  generalize hn : r.index = n
  induction n using Nat.strongRecOn generalizing r with
  | ind n ih =>
    cases hp : (s.get r).parent with
    | none => exact ⟨r, .self, hp⟩
    | some p =>
      obtain ⟨u, hu, hroot⟩ := ih p.index (hn ▸ hs r p hp) p rfl
      exact ⟨u, .up hp hu, hroot⟩

/-! ## The innermost scope with a property -/

/-- There is only one innermost scope. -/
theorem Nearest.unique {p : Scope → Prop} (hs : s.Outward) (ht : s.Nearest p r t)
    (hu : s.Nearest p r u) : t = u :=
  (hu.innermost t ht.around ht.has).antisymm hs (ht.innermost u hu.around hu.has)

/-- The innermost scope from the one around a place is so from the place, if that does not have the
    property. -/
theorem Nearest.up {p : Scope → Prop} (hp : (s.get r).parent = some u) (hr : ¬ p (s.get r))
    (h : s.Nearest p u t) : s.Nearest p r t := by
  refine ⟨.up hp h.around, h.has, fun w hin hw => ?_⟩
  obtain rfl | hin := (inside_iff_of_parent hp).mp hin
  · exact absurd hw hr
  · exact h.innermost w hin hw

/-- A search that may go up to every scope around a place ends at the innermost one with the
    property, and fails only if none has it. -/
theorem climb_spec (hs : s.Outward) (p : Scope → Bool) {n : ℕ} (hn : r.index ≤ n) :
    match s.climb p n r with
    | some t => s.Nearest (p ·) r t
    | none => ∀ u, s.Inside u r → ¬ p (s.get u) := by
  fun_induction climb s p n r with
  | case1 r hr => exact ⟨.self, hr, fun _ hu _ => hu⟩
  | case2 r hr =>
    have hroot : (s.get r).parent = none :=
      Option.eq_none_iff_forall_not_mem.mpr fun o ho => absurd (hs r o ho) (by omega)
    intro u hu
    rwa [(inside_iff_of_root hroot).mp hu]
  | case3 n r hr => exact ⟨.self, hr, fun _ hu _ => hu⟩
  | case4 n r hr o hp ih =>
    have hlt := hs r o hp
    specialize ih (by omega)
    split at ih
    · exact ih.up hp hr
    · intro u hu
      obtain rfl | hu := (inside_iff_of_parent hp).mp hu
      · exact hr
      · exact ih u hu
  | case5 n r hr hroot =>
    intro u hu
    rwa [(inside_iff_of_root hroot).mp hu]

/-! ## Where a name and a function lead to -/

/-- A name leads to the innermost scope that binds it. -/
theorem find?_eq_some_iff (hs : s.Outward) :
    s.find? r name = some t ↔ s.Nearest (·.Binds name) r t := by
  have hspec := climb_spec hs (·.bindings.contains name) (Nat.le_refl r.index)
  rw [find?]
  split at hspec
  · rename_i u hu
    rw [hu, Option.some_inj]
    exact ⟨fun h => h ▸ hspec, fun h => hspec.unique hs h⟩
  · rename_i hnone
    rw [hnone]
    exact iff_of_false (by simp) fun h => hspec t h.around h.has

/-- A name leads nowhere when no scope around the place binds it. -/
theorem find?_eq_none_iff (hs : s.Outward) :
    s.find? r name = none ↔ ∀ u, s.Inside u r → ¬ (s.get u).Binds name := by
  have hspec := climb_spec hs (·.bindings.contains name) (Nat.le_refl r.index)
  rw [find?]
  split at hspec
  · rename_i u hu
    rw [hu]
    exact iff_of_false (by simp) fun h => h u hspec.around hspec.has
  · rename_i hnone
    exact iff_of_true hnone hspec

/-- In a forest the scope of the function is the innermost one that counts as such. -/
theorem Forest.nearest_functionScope (hs : s.Forest) (r : Ref .scope) :
    s.Nearest (·.isFunction) r (s.functionScope r) := by
  have hflag : ∀ u, ((s.get u).isFunction || (s.get u).parent.isNone) = (s.get u).isFunction := by
    intro u
    cases hp : (s.get u).parent with
    | none => rw [hs.root u hp, Bool.true_or]
    | some _ => rw [Option.isNone_some, Bool.or_false]
  have hspec :=
    climb_spec hs.outward (fun c => c.isFunction || c.parent.isNone) (Nat.le_refl r.index)
  rw [functionScope]
  split at hspec
  · rename_i t ht
    rw [ht]
    exact ⟨hspec.around, hflag t ▸ hspec.has,
      fun u hu h => hspec.innermost u hu ((hflag u).trans h)⟩
  · obtain ⟨u, hu, hroot⟩ := exists_root hs.outward r
    exact absurd ((hflag u).trans (hs.root u hroot)) (hspec u hu)

end Scopes

end CoScript
