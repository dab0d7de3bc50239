/-!
Finite tables from names to values.
-/

namespace LineScript

/-- A table keeps one entry for each of its names, in the order in which the names were added. -/
structure Table (α : Type) where
  entries : List (String × α) := []
deriving Repr, DecidableEq

namespace Table

variable {α : Type}

/-- The value under a name in a list of entries. -/
def find? (name : String) : List (String × α) → Option α
  | [] => none
  | (other, value) :: rest => if other = name then some value else find? name rest

/-- Replaces the value under a name, or adds an entry at the end. -/
def put (name : String) (value : α) : List (String × α) → List (String × α)
  | [] => [(name, value)]
  | (other, old) :: rest =>
    if other = name then (name, value) :: rest else (other, old) :: put name value rest

/-- The value under a name. -/
def get? (t : Table α) (name : String) : Option α :=
  find? name t.entries

/-- Whether a name has an entry. -/
def contains (t : Table α) (name : String) : Bool :=
  (t.get? name).isSome

/-- Gives a name a value, whether it had one or not. -/
def insert (t : Table α) (name : String) (value : α) : Table α :=
  ⟨put name value t.entries⟩

/-- Gives a name another value, if it has one. -/
def replace? (t : Table α) (name : String) (value : α) : Option (Table α) :=
  if t.contains name then some (t.insert name value) else none

/-- The number of names. -/
def size (t : Table α) : Nat :=
  t.entries.length

theorem find?_put_self (name : String) (value : α) (entries : List (String × α)) :
    find? name (put name value entries) = some value := by
  induction entries with
  | nil => simp only [put, find?, if_true]
  | cons entry rest ih =>
    obtain ⟨other, old⟩ := entry
    by_cases h : other = name
    · simp only [put, h, if_true, find?]
    · simp only [put, h, if_false, find?, ih]

theorem find?_put_of_ne {name other : String} (h : other ≠ name) (value : α)
    (entries : List (String × α)) : find? other (put name value entries) = find? other entries := by
  induction entries with
  | nil => simp only [put, find?, Ne.symm h, if_false]
  | cons entry rest ih =>
    obtain ⟨key, old⟩ := entry
    by_cases hk : key = name
    · simp only [put, hk, if_true, find?, Ne.symm h, if_false]
    · simp only [put, hk, if_false, find?, ih]

@[simp] theorem get?_insert_self (t : Table α) (name : String) (value : α) :
    (t.insert name value).get? name = some value :=
  find?_put_self name value t.entries

theorem get?_insert_of_ne (t : Table α) {name other : String} (h : other ≠ name) (value : α) :
    (t.insert name value).get? other = t.get? other :=
  find?_put_of_ne h value t.entries

/-- Insertion adds one name and removes none. -/
theorem contains_insert (t : Table α) (name other : String) (value : α) :
    (t.insert name value).contains other = (decide (other = name) || t.contains other) := by
  by_cases h : other = name
  · subst h
    simp only [contains, get?_insert_self, Option.isSome_some, decide_true, Bool.true_or]
  · simp only [contains, get?_insert_of_ne t h, h, decide_false, Bool.false_or]

end Table

end LineScript
