import CoScript.Proofs.Module.Cache
import Mathlib.Data.Nat.Notation

/-!
# Resolvers that ask each other

A chain asks its members in turn, and several chains may ask the same resolver. What is read for one
of them is then known to the others. This is never seen: a module comes to what it would come to if
each file were read again, whatever was asked for before and through whichever resolver.

Results:
* `Resolvers.Current`: what is known of modules is what their files hold, as it is before any file
  was read (`Resolvers.current_of_unread`).
* `Resolvers.Current.reads_resolveIn`: what is asked of a resolver changes no more than what is
  known.
* `Resolvers.Current.answers_eq`: the answers to all that is asked in turn.
-/

namespace CoScript

/-! ## Specification -/

/-- What is known of the modules of a resolver is what their files hold. -/
def Resolver.Current (fs : Files) : Resolver → Prop
  | .json r => r.Current fs
  | .memory _ | .chain _ => True

/-- A resolver without what it has read. -/
def Resolver.unread : Resolver → Resolver
  | .json r => .json { r with known := .empty }
  | r => r

namespace Resolvers

/-- What is known of modules is what their files hold. -/
def Current (rs : Resolvers) : Prop :=
  ∀ i, (rs.cells.getD i default).Current rs.files

/-- Resolvers without what they have read. -/
def unread (rs : Resolvers) : Resolvers :=
  { rs with cells := rs.cells.map Resolver.unread }

/-- The first answer that is not that a module is unknown. -/
def firstKnown (answer : ResolverId → Resolution) : List ResolverId → Resolution
  | [] => .ok none
  | id :: rest =>
    match answer id with
    | .ok none => firstKnown answer rest
    | known => known

/-- What a module comes to if nothing is kept, through chains of at most `n` members of members. -/
def loadIn (rs : Resolvers) (specifier : String) : ℕ → ResolverId → Resolution
  | n, id =>
    match rs.cells.getD id.index default with
    | .memory modules => .ok (modules.get? specifier)
    | .json r => r.load rs.files specifier
    | .chain members =>
      match n with
      | 0 => .ok none
      | n + 1 => firstKnown (rs.loadIn specifier n) members

/-- What a module comes to if nothing is kept, so that a file is read whenever it is asked for. -/
def load (rs : Resolvers) (id : ResolverId) (specifier : String) : Resolution :=
  rs.loadIn specifier id.index id

/-- What modules come to that resolvers are asked for in turn. -/
def answers : Resolvers → List (ResolverId × String) → List Resolution
  | _, [] => []
  | rs, (id, specifier) :: rest =>
    let (answer, _, rs) := rs.resolve id specifier
    answer :: answers rs rest

/-- Resolvers have answered, and nothing but what is known is new. -/
structure Reads (rs : Resolvers) (answer : Resolution)
    (out : Resolution × List Loaded × Resolvers) :
    Prop where
  answer_eq : out.1 = answer
  current : out.2.2.Current
  unread_eq : out.2.2.unread = rs.unread

variable {rs rs' : Resolvers}

/-! ## What files give -/

theorem getD_unread (rs : Resolvers) (i : ℕ) :
    rs.unread.cells.getD i default = (rs.cells.getD i default).unread := by
  rw [unread, Array.getD_eq_getD_getElem?, Array.getD_eq_getD_getElem?, Array.getElem?_map]
  cases rs.cells[i]? <;> rfl

/-- What files give does not depend on what was read before. -/
theorem loadIn_unread (rs : Resolvers) (specifier : String) (n : ℕ) (id : ResolverId) :
    rs.unread.loadIn specifier n id = rs.loadIn specifier n id := by
  induction n generalizing id with
  | zero =>
    unfold loadIn
    rw [getD_unread]
    cases rs.cells.getD id.index default <;> rfl
  | succ n ih =>
    have hmembers : rs.unread.loadIn specifier n = rs.loadIn specifier n := funext ih
    unfold loadIn
    rw [getD_unread]
    cases rs.cells.getD id.index default with
    | memory | json => rfl
    | chain members => exact congrArg (firstKnown · members) hmembers

theorem loadIn_congr (h : rs.unread = rs'.unread) (specifier : String) (n : ℕ) (id : ResolverId) :
    rs.loadIn specifier n id = rs'.loadIn specifier n id := by
  rw [← loadIn_unread rs, h, loadIn_unread]

/-! ## What is known -/

/-- Resolvers that have read nothing know nothing that is not in a file. -/
theorem current_of_unread (h : rs.unread = rs) : rs.Current := by
  intro i
  rw [← h, getD_unread]
  cases rs.cells.getD i default with
  | json r =>
    intro specifier exports hknown
    cases hknown
  | memory | chain => trivial

theorem Current.set (h : rs.Current) (id : ResolverId) {r : Resolver} (hr : r.Current rs.files) :
    (rs.set id r).Current := by
  intro i
  obtain hi | hi := rs.getD_set id r i <;> rw [hi]
  · exact hr
  · exact h i

/-- A resolver that only knows more is the same without it. -/
theorem unread_set {id : ResolverId} {r r' : JsonResolver}
    (h : rs.cells.getD id.index default = .json r) (hpaths : r'.paths = r.paths) :
    (rs.set id (.json r')).unread = rs.unread := by
  have hcells : (rs.cells.setIfInBounds id.index (.json r')).map Resolver.unread =
      rs.cells.map Resolver.unread := by
    apply Array.ext_getElem?
    intro i
    rw [Array.getElem?_map, Array.getElem?_map, Array.getElem?_setIfInBounds]
    split
    · rename_i hi
      subst hi
      rw [Array.getD_eq_getD_getElem?] at h
      cases hcell : rs.cells[id.index]? with
      | none =>
        rw [hcell] at h
        cases h
      | some cell =>
        rw [hcell] at h
        obtain ⟨hlt, -⟩ := Array.getElem?_eq_some_iff.mp hcell
        rw [if_pos hlt]
        cases h
        simp [Resolver.unread, hpaths]
    · rfl
  rw [unread, unread, Resolvers.set, hcells]

/-! ## What is asked -/

/-- Members that are asked in turn. -/
theorem reads_firstOf {ask : ResolverId → Resolvers → Resolution × List Loaded × Resolvers}
    {answer : ResolverId → Resolution}
    (hask : ∀ id rs', rs'.Current → rs'.unread = rs.unread → rs.Reads (answer id) (ask id rs'))
    (members : List ResolverId) (hcurrent : rs'.Current) (hsame : rs'.unread = rs.unread) :
    rs.Reads (firstKnown answer members) (firstOf ask members rs') := by
  induction members generalizing rs' with
  | nil => exact ⟨rfl, hcurrent, hsame⟩
  | cons id rest ih =>
    have hid := hask id rs' hcurrent hsame
    rw [firstOf, firstKnown, ← hid.answer_eq]
    generalize ask id rs' = out at hid ⊢
    obtain ⟨cause | _ | exports, loaded, rs₁⟩ := out
    · exact ⟨rfl, hid.current, hid.unread_eq⟩
    · obtain ⟨hanswer, hcurrent₁, hsame₁⟩ := ih hid.current hid.unread_eq
      exact ⟨hanswer, hcurrent₁, hsame₁⟩
    · exact ⟨rfl, hid.current, hid.unread_eq⟩

theorem Reads.of_unread_eq {answer : Resolution} {out : Resolution × List Loaded × Resolvers}
    (h : rs'.Reads answer out) (hsame : rs'.unread = rs.unread) : rs.Reads answer out :=
  ⟨h.answer_eq, h.current, h.unread_eq.trans hsame⟩

/-- What is asked of a resolver is answered as if each file were read again, and changes nothing but
    what is known. -/
theorem Current.reads_resolveIn (h : rs.Current) (specifier : String) (n : ℕ) (id : ResolverId) :
    rs.Reads (rs.loadIn specifier n id) (resolveIn specifier n id rs) := by
  induction n using Nat.strongRecOn generalizing rs id with
  | ind n ih =>
    have hid := h id.index
    unfold loadIn resolveIn
    cases hcell : rs.cells.getD id.index default with
    | memory modules => exact ⟨rfl, h, rfl⟩
    | json r =>
      rw [hcell] at hid
      have hr : r.Current rs.files := hid
      exact ⟨hr.resolve_eq_load specifier, h.set id (hr.resolve specifier),
        unread_set hcell (r.resolve_paths rs.files specifier)⟩
    | chain members =>
      cases n with
      | zero => exact ⟨rfl, h, rfl⟩
      | succ n =>
        refine reads_firstOf (fun id rs' hcurrent hsame => ?_) members h rfl
        rw [← loadIn_congr hsame]
        exact (ih n (Nat.lt_succ_self n) hcurrent id).of_unread_eq hsame

theorem Current.reads_resolve (h : rs.Current) (id : ResolverId) (specifier : String) :
    rs.Reads (rs.load id specifier) (rs.resolve id specifier) :=
  h.reads_resolveIn specifier id.index id

/-- Whatever is asked for in turn, and through whichever resolver, comes to what it would come to if
    each file were read again. -/
theorem Current.answers_eq (h : rs.Current) (asked : List (ResolverId × String)) :
    rs.answers asked = asked.map fun a => rs.load a.1 a.2 := by
  induction asked generalizing rs with
  | nil => rfl
  | cons a rest ih =>
    obtain ⟨id, specifier⟩ := a
    obtain ⟨hanswer, hcurrent, hsame⟩ := h.reads_resolve id specifier
    calc rs.answers ((id, specifier) :: rest)
        = (rs.resolve id specifier).1 :: (rs.resolve id specifier).2.2.answers rest := rfl
      _ = rs.load id specifier :: rest.map fun a => (rs.resolve id specifier).2.2.load a.1 a.2 := by
          rw [hanswer, ih hcurrent]
      _ = rs.load id specifier :: rest.map fun a => rs.load a.1 a.2 := by
          have hload : (rs.resolve id specifier).2.2.load = rs.load := by
            funext id' specifier'
            exact loadIn_congr hsame specifier' id'.index id'
          rw [hload]

end Resolvers

end CoScript
