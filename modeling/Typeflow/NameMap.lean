import Typeflow.Text.Chars

/-! Finite maps from names, listed in increasing order of their names. -/
namespace Typeflow

/-- Names are compared by their characters. -/
instance decidableNameLt (a b : String) : Decidable (a < b) :=
  decidable_of_iff (Text.chars a < Text.chars b) (by rw [Text.chars_eq, Text.chars_eq]; exact Iff.rfl)

/-- The pairs stand in strictly increasing order of their names when built from `empty`. -/
structure NameMap (α : Type) where
  toList : List (String × α) := []

namespace NameMap

variable {α β : Type}

instance : Inhabited (NameMap α) := ⟨{}⟩

def empty : NameMap α := {}

/-- Replaces the value of a name that is present and keeps the order otherwise. -/
def insertPair (name : String) (value : α) : List (String × α) → List (String × α)
  | [] => [(name, value)]
  | (key, old) :: rest =>
    if name = key then (name, value) :: rest
    else if name < key then (name, value) :: (key, old) :: rest
    else (key, old) :: insertPair name value rest

def lookupPair (name : String) : List (String × α) → Option α
  | [] => none
  | (key, value) :: rest => if name = key then some value else lookupPair name rest

def find? (m : NameMap α) (name : String) : Option α := lookupPair name m.toList

def insert (m : NameMap α) (name : String) (value : α) : NameMap α :=
  ⟨insertPair name value m.toList⟩

def erase (m : NameMap α) (name : String) : NameMap α :=
  ⟨m.toList.filter fun pair => pair.1 ≠ name⟩

def contains (m : NameMap α) (name : String) : Bool := (m.find? name).isSome

def findD (m : NameMap α) (name : String) (default : α) : α := (m.find? name).getD default

/-- A name that is present keeps its value. -/
def insertNew (m : NameMap α) (name : String) (value : α) : NameMap α :=
  if m.contains name then m else m.insert name value

def names (m : NameMap α) : List String := m.toList.map (·.1)

def values (m : NameMap α) : List α := m.toList.map (·.2)

def size (m : NameMap α) : Nat := m.toList.length

def isEmpty (m : NameMap α) : Bool := m.toList.isEmpty

def map (f : α → β) (m : NameMap α) : NameMap β := ⟨m.toList.map fun pair => (pair.1, f pair.2)⟩

def filterMap (f : String → α → Option β) (m : NameMap α) : NameMap β :=
  ⟨m.toList.filterMap fun pair => (f pair.1 pair.2).map (pair.1, ·)⟩

/-- Later pairs win over earlier ones of the same name. -/
def ofList (pairs : List (String × α)) : NameMap α :=
  pairs.foldl (fun m pair => m.insert pair.1 pair.2) empty

private theorem lookupPair_insertPair (name other : String) (value : α) (pairs : List (String × α)) :
    lookupPair other (insertPair name value pairs) =
      if other = name then some value else lookupPair other pairs := by
  induction pairs with
  | nil => simp [insertPair, lookupPair]
  | cons pair rest ih =>
    obtain ⟨key, old⟩ := pair
    by_cases hk : name = key
    · subst hk
      by_cases ho : other = name <;> simp [insertPair, lookupPair, ho]
    · by_cases hl : name < key
      · simp [insertPair, hk, hl, lookupPair]
      · by_cases ho : other = key
        · subst ho
          simp [insertPair, hk, hl, lookupPair, Ne.symm hk]
        · simp [insertPair, hk, hl, lookupPair, ho, ih]

@[simp] theorem find?_empty (name : String) : (empty : NameMap α).find? name = none := rfl

@[simp] theorem find?_insert (m : NameMap α) (name other : String) (value : α) :
    (m.insert name value).find? other = if other = name then some value else m.find? other :=
  lookupPair_insertPair name other value m.toList

private theorem lookupPair_filter (name other : String) (pairs : List (String × α)) :
    lookupPair other (pairs.filter fun pair => pair.1 ≠ name) =
      if other = name then none else lookupPair other pairs := by
  induction pairs with
  | nil => simp [lookupPair]
  | cons pair rest ih =>
    obtain ⟨key, old⟩ := pair
    by_cases hk : key = name
    · subst hk
      by_cases ho : other = key <;> simp_all [lookupPair]
    · by_cases ho : other = key
      · subst ho
        simp [lookupPair, hk]
      · simp_all [lookupPair]

@[simp] theorem find?_erase (m : NameMap α) (name other : String) :
    (m.erase name).find? other = if other = name then none else m.find? other :=
  lookupPair_filter name other m.toList

end NameMap

end Typeflow
