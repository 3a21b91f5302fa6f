import CoScript.Module.Files
import CoScript.Module.HostValue

/-!
# Resolvers

A resolver says what a module exports, or that it does not know the module. It holds modules in
memory, reads them from JSON files, or asks other resolvers in turn. A file is read when its module
is first asked for; what was read stays known until the module gets another path.

Results:
* `JsonResolver.load`: the exports in the file of a module.
* `Resolvers.resolve`: the exports of a module and the files that were read for it.
-/

namespace CoScript

/-- What a resolver comes to: exports, `none` for a module it does not know, or a fault. -/
abbrev Resolution := Except FaultCause (Option Exports)

/-- A file that was read for a module. -/
structure Loaded where
  specifier : String
  path : String
  deriving Repr, DecidableEq

/-- Modules in JSON files. -/
structure JsonResolver where
  paths : Ordered String
  /-- what was read already -/
  known : Ordered Exports

namespace JsonResolver

/-- A resolver for modules and the paths of their files. -/
def ofPaths (paths : List (String × String)) : JsonResolver :=
  ⟨(Ordered.ofList paths).mapWithKey fun _ p => Path.normal p, .empty⟩

/-- A module gets a path; what was read for it before is forgotten. -/
def add (r : JsonResolver) (specifier path : String) : JsonResolver :=
  ⟨r.paths.set specifier (Path.normal path), r.known.erase specifier⟩

/-- The exports in a file. -/
def read (fs : Files) (specifier path : String) : Except FaultCause Exports :=
  match fs.read? path with
  | none => .error (.moduleUnreadable specifier path "no such file")
  | some text =>
    match Json.parse? text with
    | none => .error (.moduleUnreadable specifier path "not a JSON document")
    | some (.object members) => .ok ⟨jsonMembers members⟩
    | some _ => .error (.moduleNotObject path)

/-- The exports in the file of a module. -/
def load (r : JsonResolver) (fs : Files) (specifier : String) : Resolution :=
  match r.paths.get? specifier with
  | none => .ok none
  | some path => (read fs specifier path).map some

/-- The exports of a module, from what is known already or from its file. -/
def resolve (r : JsonResolver) (fs : Files) (specifier : String) :
    Resolution × List Loaded × JsonResolver :=
  match r.known.get? specifier with
  | some exports => (.ok (some exports), [], r)
  | none =>
    match r.paths.get? specifier with
    | none => (.ok none, [], r)
    | some path =>
      match read fs specifier path with
      | .error cause => (.error cause, [], r)
      | .ok exports =>
        (.ok (some exports), [⟨specifier, path⟩], { r with known := r.known.set specifier exports })

end JsonResolver

/-- The identity of a resolver. -/
structure ResolverId where
  index : Nat
  deriving Repr, DecidableEq, Inhabited

/-- A resolver. -/
inductive Resolver where
  /-- modules in memory -/
  | memory (modules : Ordered Exports)
  | json (files : JsonResolver)
  /-- resolvers to ask in turn, each made before this one -/
  | chain (members : List ResolverId)

instance : Inhabited Resolver := ⟨.memory .empty⟩

/-- Resolvers and the files that they read. -/
structure Resolvers where
  cells : Array Resolver
  files : Files

namespace Resolvers

/-- No resolvers. -/
def empty : Resolvers := ⟨#[], .none⟩

instance : Inhabited Resolvers := ⟨empty⟩

/-- A new resolver. -/
def new (rs : Resolvers) (r : Resolver) : ResolverId × Resolvers :=
  (⟨rs.cells.size⟩, { rs with cells := rs.cells.push r })

/-- A resolver in place of another. -/
def set (rs : Resolvers) (id : ResolverId) (r : Resolver) : Resolvers :=
  { rs with cells := rs.cells.setIfInBounds id.index r }

/-- Each resolver is what it was or, if it is the one replaced, the new one. -/
theorem getD_set (rs : Resolvers) (id : ResolverId) (r : Resolver) (i : Nat) :
    (rs.set id r).cells.getD i default = r ∨
      (rs.set id r).cells.getD i default = rs.cells.getD i default := by
  simp only [set, Array.getD_eq_getD_getElem?, Array.getElem?_setIfInBounds]
  split
  · rename_i hi
    subst hi
    split
    · exact .inl rfl
    · rename_i hlt
      rw [Array.getElem?_eq_none (Nat.not_lt.mp hlt)]
      exact .inr rfl
  · exact .inr rfl

/-- Asks resolvers in turn until one knows the module. -/
def firstOf (ask : ResolverId → Resolvers → Resolution × List Loaded × Resolvers) :
    List ResolverId → Resolvers → Resolution × List Loaded × Resolvers
  | [], rs => (.ok none, [], rs)
  | id :: rest, rs =>
    match ask id rs with
    | (.ok none, loaded, rs) =>
      let (answer, more, rs) := firstOf ask rest rs
      (answer, loaded ++ more, rs)
    | answer => answer

/-- The exports of a module, through chains of at most `n` members of members. -/
def resolveIn (specifier : String) :
    Nat → ResolverId → Resolvers → Resolution × List Loaded × Resolvers
  | n, id, rs =>
    match rs.cells.getD id.index default with
    | .memory modules => (.ok (modules.get? specifier), [], rs)
    | .json r =>
      let (answer, loaded, r) := r.resolve rs.files specifier
      (answer, loaded, rs.set id (.json r))
    | .chain members =>
      match n with
      | 0 => (.ok none, [], rs)
      | n + 1 => firstOf (resolveIn specifier n) members rs

/-- The exports of a module and the files that were read for it. The members of a chain are older
    than the chain, so they nest no deeper than its index. -/
def resolve (rs : Resolvers) (id : ResolverId) (specifier : String) :
    Resolution × List Loaded × Resolvers :=
  resolveIn specifier id.index id rs

end Resolvers

end CoScript
