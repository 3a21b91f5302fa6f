import CoScript.Module.Resolver

/-!
# What is kept of module files

A resolver keeps what it has read from the file of a module until the module gets another path. It
keeps nothing of a file that it cannot take exports from. As long as the files stay as they are,
what is kept makes no difference to any answer: each is what is in the file that was added last for
the module, whatever was added or asked for before.

Results:
* `JsonResolver.latest?_eq_none_iff`, `latest?_eq_some_iff`: the path that was added last.
* `JsonResolver.resolve_cases`: all that a resolver does when it is asked for a module.
* `JsonResolver.Current`: what is known of a module is what its file holds.
* `JsonResolver.Current.resolve_eq_load`: then what is known makes no difference to an answer.
* `JsonResolver.opened_after`: what is in the file that was added last.
* `JsonResolver.never_stale`: the whole, for all that is asked of a resolver in turn.
-/

namespace CoScript

namespace JsonResolver

/-! ## Specification -/

/-- What is asked of a resolver. -/
inductive Request where
  /-- a module gets the path of a file -/
  | add (specifier path : String)
  /-- a module is asked for -/
  | resolve (specifier : String)
  deriving Repr, DecidableEq

/-- The path that was added last for a module. -/
def latest? (specifier : String) : List Request → Option String
  | [] => none
  | .add other path :: rest =>
    (latest? specifier rest).or (if other = specifier then some path else none)
  | .resolve _ :: rest => latest? specifier rest

/-- What a module comes to when its file is opened, by the path of the file if there is one. -/
inductive Opened (fs : Files) (specifier : String) : Option String → Resolution → Prop
  | unknown : Opened fs specifier none (.ok none)
  | exports {path text : String} {members : List (String × Json)}
      (htext : fs.read? (Path.normal path) = some text)
      (hjson : Json.parse? text = some (.object members)) :
      Opened fs specifier (some path) (.ok (some ⟨jsonMembers members⟩))
  | unreadable {path : String} (htext : fs.read? (Path.normal path) = none) :
      Opened fs specifier (some path)
        (.error (.moduleUnreadable specifier (Path.normal path) "no such file"))
  | malformed {path text : String} (htext : fs.read? (Path.normal path) = some text)
      (hjson : Json.parse? text = none) :
      Opened fs specifier (some path)
        (.error (.moduleUnreadable specifier (Path.normal path) "not a JSON document"))
  | notObject {path text : String} {j : Json} (htext : fs.read? (Path.normal path) = some text)
      (hjson : Json.parse? text = some j) (hj : ∀ members, j ≠ .object members) :
      Opened fs specifier (some path) (.error (.moduleNotObject (Path.normal path)))

variable (fs : Files)

/-- A resolver after a request. -/
def serve (r : JsonResolver) : Request → JsonResolver
  | .add specifier path => r.add specifier path
  | .resolve specifier => (r.resolve fs specifier).2.2

/-- A resolver after requests. -/
def after (r : JsonResolver) (requests : List Request) : JsonResolver :=
  requests.foldl (serve fs) r

/-- What the modules that are asked for come to, in order. -/
def answers : JsonResolver → List Request → List Resolution
  | _, [] => []
  | r, .add specifier path :: rest => answers (r.add specifier path) rest
  | r, .resolve specifier :: rest =>
    let (answer, _, r) := r.resolve fs specifier
    answer :: answers r rest

/-- What they come to if nothing is kept, so that a file is read whenever its module is asked
    for. -/
def loads : JsonResolver → List Request → List Resolution
  | _, [] => []
  | r, .add specifier path :: rest => loads (r.add specifier path) rest
  | r, .resolve specifier :: rest => r.load fs specifier :: loads r rest

/-- What is known of a module is what its file holds. -/
def Current (r : JsonResolver) : Prop :=
  ∀ specifier exports, r.known.get? specifier = some exports →
    r.load fs specifier = .ok (some exports)

/-! ## The path that was added last -/

section Latest

variable {specifier : String} {requests : List Request}

theorem latest?_append (requests later : List Request) :
    latest? specifier (requests ++ later) =
      (latest? specifier later).or (latest? specifier requests) := by
  induction requests with
  | nil => rw [List.nil_append, latest?, Option.or_none]
  | cons request rest ih =>
    cases request with
    | resolve other => exact ih
    | add other path => rw [List.cons_append, latest?, ih, latest?, Option.or_assoc]

/-- A module has no path if none was added for it. -/
theorem latest?_eq_none_iff :
    latest? specifier requests = none ↔ ∀ path, .add specifier path ∉ requests := by
  induction requests with
  | nil => simp [latest?]
  | cons request rest ih =>
    cases request with
    | resolve other => simp [latest?, ih]
    | add other path =>
      by_cases h : other = specifier
      · simp [latest?, h, forall_and]
      · simp [latest?, h, ih, Ne.symm h]

/-- Behind the path that was added last none was added for the module. -/
theorem latest?_eq_some_iff {path : String} :
    latest? specifier requests = some path ↔
      ∃ before rest, requests = before ++ .add specifier path :: rest ∧
        ∀ other, .add specifier other ∉ rest := by
  constructor
  · intro h
    induction requests with
    | nil => cases h
    | cons request rest ih =>
      cases request with
      | resolve other =>
        obtain ⟨before, behind, rfl, hbehind⟩ := ih h
        exact ⟨.resolve other :: before, behind, rfl, hbehind⟩
      | add other path' =>
        rw [latest?, Option.or_eq_some_iff] at h
        -- a path further behind counts before the one here
        obtain h | ⟨hnone, hhere⟩ := h
        · obtain ⟨before, behind, rfl, hbehind⟩ := ih h
          exact ⟨.add other path' :: before, behind, rfl, hbehind⟩
        · split at hhere
          · rename_i hother
            subst hother
            cases hhere
            exact ⟨[], rest, rfl, latest?_eq_none_iff.mp hnone⟩
          · cases hhere
  · rintro ⟨before, rest, rfl, hrest⟩
    rw [latest?_append, latest?, latest?_eq_none_iff.mpr hrest, if_pos rfl]
    rfl

end Latest

/-! ## What a file gives -/

variable {fs : Files} {r r' : JsonResolver} {specifier : String}

/-- A file is opened by its path. -/
theorem opened_load {path? : Option String} (h : r.paths.get? specifier = path?.map Path.normal) :
    Opened fs specifier path? (r.load fs specifier) := by
  rw [load, h]
  cases path? with
  | none => exact .unknown
  | some path =>
    change Opened fs specifier (some path) ((read fs specifier (Path.normal path)).map some)
    unfold read
    split
    · rename_i htext
      exact .unreadable htext
    · rename_i text htext
      split
      · rename_i hjson
        exact .malformed htext hjson
      · rename_i members hjson
        exact .exports htext hjson
      · rename_i j hj hjson
        exact .notObject htext hjson hj

/-- A file that gives no exports is a module that is not found. -/
theorem Opened.kind_eq {path? : Option String} {cause : FaultCause}
    (h : Opened fs specifier path? (.error cause)) : cause.kind = "ModuleNotFound" := by
  cases h <;> rfl

/-- What a file gives depends on the paths alone. -/
theorem load_congr (h : r.paths = r'.paths) (specifier : String) :
    r.load fs specifier = r'.load fs specifier := by
  rw [load, load, h]

theorem load_add_of_ne (r : JsonResolver) {other : String} (h : specifier ≠ other) (path : String) :
    (r.add other path).load fs specifier = r.load fs specifier := by
  rw [load, load, add, Ordered.get?_set_of_ne _ h]

/-! ## What is known -/

/-- An answer is what is known, or it is what the file of the module gives. Exports that the file
    gives become known. -/
theorem resolve_cases (r : JsonResolver) (fs : Files) (specifier : String) :
    (∃ exports, r.known.get? specifier = some exports ∧
      r.resolve fs specifier = (.ok (some exports), [], r)) ∨
    (∃ path exports, r.load fs specifier = .ok (some exports) ∧
      r.resolve fs specifier = (.ok (some exports), [⟨specifier, path⟩],
        { r with known := r.known.set specifier exports })) ∨
    r.resolve fs specifier = (r.load fs specifier, [], r) := by
  unfold resolve load
  split
  · rename_i exports hknown
    exact .inl ⟨exports, hknown, rfl⟩
  · right
    split
    · exact .inr rfl
    · rename_i path hpath
      cases hread : read fs specifier path with
      | error cause => exact .inr rfl
      | ok exports => exact .inl ⟨path, exports, rfl, rfl⟩

/-- An answer keeps the paths. -/
theorem resolve_paths (r : JsonResolver) (fs : Files) (specifier : String) :
    (r.resolve fs specifier).2.2.paths = r.paths := by
  obtain ⟨_, -, h⟩ | ⟨_, _, -, h⟩ | h := r.resolve_cases fs specifier <;> rw [h]

/-- A module that cannot be loaded leaves no trace. -/
theorem resolve_error {cause : FaultCause} (h : (r.resolve fs specifier).1 = .error cause) :
    (r.resolve fs specifier).2.2 = r := by
  obtain ⟨_, -, heq⟩ | ⟨_, _, -, heq⟩ | heq := r.resolve_cases fs specifier
  · rw [heq]
  · rw [heq] at h
    cases h
  · rw [heq]

theorem current_ofPaths (fs : Files) (paths : List (String × String)) :
    (ofPaths paths).Current fs := by
  intro specifier exports h
  cases h

namespace Current

/-- What is known makes no difference to an answer. -/
theorem resolve_eq_load (h : r.Current fs) (specifier : String) :
    (r.resolve fs specifier).1 = r.load fs specifier := by
  obtain ⟨exports, hknown, heq⟩ | ⟨path, exports, hload, heq⟩ | heq := r.resolve_cases fs specifier
  · rw [heq, h specifier exports hknown]
  · rw [heq, hload]
  · rw [heq]

/-- A path that is added takes with it what was known. -/
theorem add (h : r.Current fs) (specifier path : String) : (r.add specifier path).Current fs := by
  intro other exports hknown
  by_cases hother : other = specifier
  · subst hother
    rw [JsonResolver.add, Ordered.get?_erase_self] at hknown
    cases hknown
  · rw [JsonResolver.add, Ordered.get?_erase_of_ne _ hother] at hknown
    rw [load_add_of_ne r hother]
    exact h other exports hknown

/-- What becomes known is what the file holds. -/
theorem resolve (h : r.Current fs) (specifier : String) :
    (r.resolve fs specifier).2.2.Current fs := by
  intro other exports' hknown
  rw [load_congr (r.resolve_paths fs specifier)]
  obtain ⟨_, -, heq⟩ | ⟨path, exports, hload, heq⟩ | heq := r.resolve_cases fs specifier
  · rw [heq] at hknown
    exact h other exports' hknown
  · rw [heq] at hknown
    by_cases hother : other = specifier
    · subst hother
      rw [Ordered.get?_set_self] at hknown
      rw [hload, hknown]
    · rw [Ordered.get?_set_of_ne _ hother] at hknown
      exact h other exports' hknown
  · rw [heq] at hknown
    exact h other exports' hknown

theorem serve (h : r.Current fs) (request : Request) : (r.serve fs request).Current fs := by
  cases request with
  | add specifier path => exact h.add specifier path
  | resolve specifier => exact h.resolve specifier

/-- Whatever is asked, what is known is what the files hold. -/
theorem after (h : r.Current fs) (requests : List Request) : (r.after fs requests).Current fs := by
  induction requests generalizing r with
  | nil => exact h
  | cons request rest ih => exact ih (h.serve request)

end Current

/-! ## What is asked in turn -/

theorem after_append (r : JsonResolver) (earlier later : List Request) :
    r.after fs (earlier ++ later) = (r.after fs earlier).after fs later :=
  List.foldl_append

theorem answers_append (r : JsonResolver) (earlier later : List Request) :
    r.answers fs (earlier ++ later) = r.answers fs earlier ++
      (r.after fs earlier).answers fs later := by
  induction earlier generalizing r with
  | nil => rfl
  | cons request rest ih =>
    cases request with
    | add specifier path => exact ih (r.add specifier path)
    | resolve specifier =>
      exact congrArg ((r.resolve fs specifier).1 :: ·) (ih (r.resolve fs specifier).2.2)

/-- What files give depends on the paths alone. -/
theorem loads_congr (h : r.paths = r'.paths) (requests : List Request) :
    r.loads fs requests = r'.loads fs requests := by
  induction requests generalizing r r' with
  | nil => rfl
  | cons request rest ih =>
    cases request with
    | add specifier path => exact ih (by rw [add, add, h])
    | resolve specifier => rw [loads, loads, load_congr h, ih h]

/-- What is known makes no difference to all that is asked in turn. -/
theorem Current.answers_eq_loads (h : r.Current fs) (requests : List Request) :
    r.answers fs requests = r.loads fs requests := by
  induction requests generalizing r with
  | nil => rfl
  | cons request rest ih =>
    cases request with
    | add specifier path => exact ih (h.add specifier path)
    | resolve specifier =>
      calc r.answers fs (.resolve specifier :: rest)
          = (r.resolve fs specifier).1 :: (r.resolve fs specifier).2.2.answers fs rest := rfl
        _ = r.load fs specifier :: (r.resolve fs specifier).2.2.loads fs rest := by
            rw [h.resolve_eq_load, ih (h.resolve specifier)]
        _ = r.load fs specifier :: r.loads fs rest := by
            rw [loads_congr (r.resolve_paths fs specifier)]

/-- A module that is asked for makes no difference to what is asked later. -/
theorem Current.answers_resolve (h : r.Current fs) (specifier : String) (later : List Request) :
    r.answers fs (.resolve specifier :: later) = r.load fs specifier :: r.answers fs later := by
  rw [h.answers_eq_loads, h.answers_eq_loads, loads]

/-- The path of a module is the one that was added last, or else the one from before. -/
theorem after_paths (r : JsonResolver) (requests : List Request) :
    (r.after fs requests).paths.get? specifier =
      ((latest? specifier requests).map Path.normal).or (r.paths.get? specifier) := by
  induction requests generalizing r with
  | nil => rfl
  | cons request rest ih =>
    rw [after, List.foldl_cons, ← after, ih]
    cases request with
    | resolve other => rw [serve, resolve_paths, latest?]
    | add other path =>
      rw [serve, add, latest?]
      by_cases h : other = specifier
      · subst h
        rw [Ordered.get?_set_self, if_pos rfl]
        cases latest? other rest <;> rfl
      · rw [Ordered.get?_set_of_ne _ (Ne.symm h), if_neg h, Option.or_none]

/-- The paths that a resolver starts with are added to it one after the other. -/
theorem ofPaths_eq_after (fs : Files) (paths : List (String × String)) :
    ofPaths paths = (ofPaths []).after fs (paths.map fun e => .add e.1 e.2) := by
  -- over any paths that are there already, so that the induction goes through
  have hset (m : Ordered String) :
      (⟨(paths.foldl (fun m e => m.set e.1 e.2) m).mapWithKey fun _ p => Path.normal p, .empty⟩ :
        JsonResolver) =
      (⟨m.mapWithKey fun _ p => Path.normal p, .empty⟩ : JsonResolver).after fs
        (paths.map fun e => .add e.1 e.2) := by
    induction paths generalizing m with
    | nil => rfl
    | cons e rest ih =>
      rw [List.foldl_cons, ih, Ordered.mapWithKey_set]
      rfl
  exact hset .empty

/-- What a module comes to is what is in the file that was added last for it. -/
theorem opened_after (fs : Files) (paths : List (String × String)) (requests : List Request)
    (specifier : String) :
    Opened fs specifier (latest? specifier (paths.map (fun e => .add e.1 e.2) ++ requests))
      (((ofPaths paths).after fs requests).load fs specifier) := by
  apply opened_load
  rw [ofPaths_eq_after fs, ← after_append, after_paths]
  exact Option.or_none

/-- What is kept of files is never seen. All that is asked of a resolver is answered as if each file
    were read again. A module comes to the exports in the file that was added last for it, to
    nothing if there is none, and to a fault if the file cannot be read, is no JSON document or
    holds no object; such a fault leaves no trace. And the modules that are asked for later come to
    what they would come to otherwise. -/
theorem never_stale (fs : Files) (paths : List (String × String)) :
    (∀ requests, (ofPaths paths).answers fs requests = (ofPaths paths).loads fs requests) ∧
    ∀ earlier specifier later, ∃ answer,
      (ofPaths paths).answers fs (earlier ++ .resolve specifier :: later) =
        (ofPaths paths).answers fs earlier ++
          answer :: ((ofPaths paths).after fs earlier).answers fs later ∧
      Opened fs specifier (latest? specifier
        (paths.map (fun e => .add e.1 e.2) ++ earlier)) answer ∧
      ∀ cause, answer = .error cause → cause.kind = "ModuleNotFound" ∧
        (ofPaths paths).after fs (earlier ++ [.resolve specifier]) =
          (ofPaths paths).after fs earlier := by
  have hstart := current_ofPaths fs paths
  refine ⟨hstart.answers_eq_loads, fun earlier specifier later => ?_⟩
  have hnow := hstart.after earlier
  have hopened := opened_after fs paths earlier specifier
  refine ⟨((ofPaths paths).after fs earlier).load fs specifier, ?_, hopened, fun cause hcause => ?_⟩
  · rw [answers_append, hnow.answers_resolve]
  · rw [hcause] at hopened
    refine ⟨hopened.kind_eq, ?_⟩
    rw [after_append]
    exact resolve_error ((hnow.resolve_eq_load specifier).trans hcause)

/-- The module gets another path after it was read. -/
example : ((ofPaths [("m", "a.json")]).answers
      ⟨[], .ofList [("a.json", "\x7b\"x\": 1\x7d"), ("b.json", "\x7b\"y\": 1\x7d")]⟩
      [.resolve "m", .add "m" "./b.json", .resolve "m"]).map
        (fun answer => answer.toOption.join.map Ordered.keys) =
    [some ["x"], some ["y"]] := by
  decide +kernel

end JsonResolver

end CoScript
