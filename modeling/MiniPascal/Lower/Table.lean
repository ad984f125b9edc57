/-!
# Tables

A table maps names to entries.  A name has at most one entry: inserting replaces the old one.
-/

namespace MiniPascal

structure Table (α : Type) where
  entries : List (String × α) := []

namespace Table

variable {α : Type}

def empty : Table α := {}

def get? (t : Table α) (name : String) : Option α := t.entries.lookup name

def contains (t : Table α) (name : String) : Bool := (t.get? name).isSome

/-- The table with `value` as the entry of `name`. -/
def insert (t : Table α) (name : String) (value : α) : Table α :=
  { entries := (name, value) :: t.entries.filter fun e => e.1 != name }

/-- The names that have an entry which satisfies `p`, in alphabetical order. -/
def namesWhere (t : Table α) (p : α → Bool) : List String :=
  ((t.entries.filter fun e => p e.2).map Prod.fst).mergeSort fun a b => !(b < a : Bool)

@[simp] theorem get?_empty (name : String) : (empty : Table α).get? name = none := rfl

@[simp] theorem get?_insert_self (t : Table α) (name : String) (value : α) :
    (t.insert name value).get? name = some value := by
  simp [get?, insert]

theorem lookup_filter_ne (es : List (String × α)) {name other : String} (h : other ≠ name) :
    (es.filter fun e => e.1 != name).lookup other = es.lookup other := by
  induction es with
  | nil => rfl
  | cons e es ih =>
    obtain ⟨key, value⟩ := e
    by_cases hkey : key = name
    · subst hkey
      have differs : (other == key) = false := by simpa using h
      simp [List.lookup_cons, differs, ih]
    · simp [hkey, List.lookup_cons, ih]

theorem get?_insert_of_ne (t : Table α) {name other : String} (value : α) (h : other ≠ name) :
    (t.insert name value).get? other = t.get? other := by
  have differs : (other == name) = false := by simpa using h
  simp [get?, insert, List.lookup_cons, differs, lookup_filter_ne _ h]

end Table

end MiniPascal
