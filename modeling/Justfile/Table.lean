/-!
# Ordered tables

Tables from strings to values that keep the order in which keys first came. Putting a value at a
key that is there keeps the key's place.

* `Table.find?_put_self`, `Table.find?_put_of_ne`: what a table holds after a `put`.
-/

namespace Justfile

/-- A table in order of first occurrence of the keys. -/
structure Table (α : Type) where
  entries : List (String × α)
  deriving DecidableEq

namespace Table

variable {α : Type}

/-- The table without entries. -/
def empty : Table α := ⟨[]⟩

instance : Inhabited (Table α) := ⟨empty⟩

/-- The value at a key. -/
def find? (t : Table α) (key : String) : Option α :=
  t.entries.lookup key

/-- Whether a key is in the table. -/
def contains (t : Table α) (key : String) : Bool :=
  (t.find? key).isSome

/-- The keys in order. -/
def keys (t : Table α) : List String :=
  t.entries.map (·.1)

/-- The values in order. -/
def values (t : Table α) : List α :=
  t.entries.map (·.2)

/-- Whether the table has no entries. -/
def isEmpty (t : Table α) : Bool :=
  t.entries.isEmpty

/-- The number of entries. -/
def size (t : Table α) : Nat :=
  t.entries.length

/-- A list of entries with a value put at a key: in its place, or at the end. -/
def putIn (key : String) (value : α) : List (String × α) → List (String × α)
  | [] => [(key, value)]
  | (k, v) :: rest => if key == k then (k, value) :: rest else (k, v) :: putIn key value rest

/-- The table with a value put at a key: in its place, or at the end. -/
def put (t : Table α) (key : String) (value : α) : Table α :=
  ⟨putIn key value t.entries⟩

/-- The value just put is found. -/
@[simp] theorem find?_put_self (t : Table α) (key : String) (value : α) :
    (t.put key value).find? key = some value := by
  obtain ⟨entries⟩ := t
  simp only [put, find?]
  induction entries with
  | nil => simp [putIn]
  | cons e rest ih =>
    obtain ⟨k, v⟩ := e
    by_cases h : key = k
    · simp [putIn, h]
    · have hb : (key == k) = false := by simpa using h
      simp [putIn, hb, List.lookup_cons, ih]

/-- Values at other keys stay. -/
theorem find?_put_of_ne (t : Table α) {key other : String} (value : α) (h : other ≠ key) :
    (t.put key value).find? other = t.find? other := by
  obtain ⟨entries⟩ := t
  simp only [put, find?]
  induction entries with
  | nil => simp [putIn, h]
  | cons e rest ih =>
    obtain ⟨k, v⟩ := e
    have ho : (other == key) = false := by simpa using h
    by_cases hk : key = k
    · subst hk; simp [putIn, List.lookup_cons, ho]
    · simp [putIn, hk, List.lookup_cons, ih]

end Table

end Justfile
