/-!
# Maps in order of insertion

A map from names that remembers the order in which its keys came. Writing a key that is there keeps
its place.

Results:
* `get?_set_self`, `get?_set_of_ne`: a write is seen at its key and nowhere else.
* `get?_erase_self`, `get?_erase_of_ne`: and so is an erasure.
* `keys_set_of_mem`: writing a key that is there moves nothing.
* `All`: what holds of all values of a map.
-/

namespace CoScript

/-- A map from names, in order of insertion. -/
structure Ordered (α : Type) where
  entries : List (String × α)
  deriving Repr

namespace Ordered

variable {α β : Type}

/-- The map without keys. -/
def empty : Ordered α := ⟨[]⟩

instance : Inhabited (Ordered α) := ⟨empty⟩

/-- The value at a key in a list of entries. -/
def find (key : String) : List (String × α) → Option α
  | [] => none
  | (k, v) :: r => if k = key then some v else find key r

/-- The value at a key. -/
def get? (m : Ordered α) (key : String) : Option α :=
  find key m.entries

/-- Whether a key is there. -/
def contains (m : Ordered α) (key : String) : Bool :=
  (m.get? key).isSome

/-- The entries with a value put at a key: in its place, or at the end. -/
def put (key : String) (value : α) : List (String × α) → List (String × α)
  | [] => [(key, value)]
  | (k, v) :: r => if k = key then (k, value) :: r else (k, v) :: put key value r

/-- The map with a value at a key. -/
def set (m : Ordered α) (key : String) (value : α) : Ordered α :=
  ⟨put key value m.entries⟩

/-- The map without a key. -/
def erase (m : Ordered α) (key : String) : Ordered α :=
  ⟨m.entries.filter (·.1 ≠ key)⟩

/-- The keys in order. -/
def keys (m : Ordered α) : List String :=
  m.entries.map (·.1)

/-- The values in order of their keys. -/
def values (m : Ordered α) : List α :=
  m.entries.map (·.2)

/-- The number of keys. -/
def size (m : Ordered α) : Nat :=
  m.entries.length

/-- Every value changed by a function of its key and itself. -/
def mapWithKey (f : String → α → β) (m : Ordered α) : Ordered β :=
  ⟨m.entries.map fun e => (e.1, f e.1 e.2)⟩

/-- The map that a list of entries builds; of entries with one key the last value counts. -/
def ofList (entries : List (String × α)) : Ordered α :=
  entries.foldl (fun m e => m.set e.1 e.2) empty

theorem find_put_self (key : String) (value : α) (es : List (String × α)) :
    find key (put key value es) = some value := by
  induction es with
  | nil => simp [put, find]
  | cons e r ih => grind [put, find]

theorem find_put_of_ne {key other : String} (h : other ≠ key) (value : α)
    (es : List (String × α)) : find other (put key value es) = find other es := by
  induction es with
  | nil => simp [put, find, Ne.symm h]
  | cons e r ih => grind [put, find]

/-- A write is seen at its key. -/
theorem get?_set_self (m : Ordered α) (key : String) (value : α) :
    (m.set key value).get? key = some value :=
  find_put_self key value m.entries

/-- A write is not seen at other keys. -/
theorem get?_set_of_ne (m : Ordered α) {key other : String} (h : other ≠ key) (value : α) :
    (m.set key value).get? other = m.get? other :=
  find_put_of_ne h value m.entries

theorem find_filter_self (key : String) (es : List (String × α)) :
    find key (es.filter (·.1 ≠ key)) = none := by
  induction es with
  | nil => rfl
  | cons e r ih => grind [find]

theorem find_filter_of_ne {key other : String} (h : other ≠ key) (es : List (String × α)) :
    find other (es.filter (·.1 ≠ key)) = find other es := by
  induction es with
  | nil => rfl
  | cons e r ih => grind [find]

/-- A key that is erased is not there. -/
theorem get?_erase_self (m : Ordered α) (key : String) : (m.erase key).get? key = none :=
  find_filter_self key m.entries

/-- Other keys stay when one is erased. -/
theorem get?_erase_of_ne (m : Ordered α) {key other : String} (h : other ≠ key) :
    (m.erase key).get? other = m.get? other :=
  find_filter_of_ne h m.entries

/-- A write before all values are changed is a changed write after it. -/
theorem mapWithKey_set (f : String → α → β) (m : Ordered α) (key : String) (value : α) :
    (m.set key value).mapWithKey f = (m.mapWithKey f).set key (f key value) := by
  obtain ⟨es⟩ := m
  simp only [set, mapWithKey, mk.injEq]
  induction es with
  | nil => rfl
  | cons e r ih => grind [put]

/-- Writing a key that is there moves nothing. -/
theorem keys_set_of_mem (m : Ordered α) {key : String} (h : m.contains key) (value : α) :
    (m.set key value).keys = m.keys := by
  obtain ⟨es⟩ := m
  simp only [contains, get?, keys, set] at h ⊢
  induction es with
  | nil => simp [find] at h
  | cons e r ih => grind [put, find]

/-- The value at a key after all values are changed. -/
theorem get?_mapWithKey (f : String → α → β) (m : Ordered α) (key : String) :
    (m.mapWithKey f).get? key = (m.get? key).map (f key) := by
  obtain ⟨es⟩ := m
  simp only [get?, mapWithKey]
  induction es with
  | nil => rfl
  | cons e es ih =>
    simp only [List.map_cons, find]
    split
    · rename_i hk
      rw [hk]
      rfl
    · exact ih

/-! ## All values -/

/-- All values of a map satisfy `P`. -/
def All (P : α → Prop) (m : Ordered α) : Prop :=
  ∀ e ∈ m.entries, P e.2

variable {P Q : α → Prop} {m : Ordered α} {key : String} {v : α}

theorem all_empty : (empty : Ordered α).All P := by
  simp [All, empty]

theorem All.get? (hm : m.All P) (h : m.get? key = some v) : P v := by
  obtain ⟨es⟩ := m
  simp only [All, Ordered.get?] at hm h
  induction es with
  | nil => cases h
  | cons e es ih =>
    rw [find] at h
    split at h
    · cases h
      exact hm _ List.mem_cons_self
    · exact ih (fun e he => hm e (List.mem_cons_of_mem _ he)) h

theorem All.set (hm : m.All P) (hv : P v) : (m.set key v).All P := by
  obtain ⟨es⟩ := m
  simp only [All, Ordered.set] at hm ⊢
  induction es with
  | nil => simpa [put] using hv
  | cons e es ih =>
    obtain ⟨he, hes⟩ := List.forall_mem_cons.mp hm
    rw [put]
    split
    · exact List.forall_mem_cons.mpr ⟨hv, hes⟩
    · exact List.forall_mem_cons.mpr ⟨he, ih hes⟩

theorem all_ofList {es : List (String × α)} (h : ∀ e ∈ es, P e.2) : (ofList es).All P := by
  have hfold (m : Ordered α) (hm : m.All P) :
      (es.foldl (fun m e => m.set e.1 e.2) m).All P := by
    induction es generalizing m with
    | nil => exact hm
    | cons e es ih =>
      obtain ⟨he, hes⟩ := List.forall_mem_cons.mp h
      exact ih hes _ (hm.set he)
  exact hfold _ all_empty

theorem All.mono (hm : m.All P) (h : ∀ v, P v → Q v) : m.All Q :=
  fun e he => h _ (hm e he)

end Ordered

end CoScript
