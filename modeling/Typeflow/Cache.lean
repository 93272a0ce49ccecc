/-! Memo tables. A key that is being computed holds a place without a value, which a lookup of the
same key from inside the computation sees. -/
namespace Typeflow

structure Cache (κ α : Type) where
  entries : List (κ × Option α) := []
  /-- How often a key was not present. -/
  misses : Nat := 0
  deriving Inhabited

namespace Cache

variable {κ α σ ε : Type} [BEq κ]

/-- What is kept for a key, which may be a place without a value. -/
def find? (c : Cache κ α) (key : κ) : Option (Option α) := c.entries.lookup key

def contains (c : Cache κ α) (key : κ) : Bool := (c.find? key).isSome

def size (c : Cache κ α) : Nat := c.entries.length

/-- Sets the value of the first equal key, or adds the key at the end. -/
def putEntry (key : κ) (value : Option α) : List (κ × Option α) → List (κ × Option α)
  | [] => [(key, value)]
  | (other, old) :: rest =>
    if key == other then (other, value) :: rest else (other, old) :: putEntry key value rest

def put (c : Cache κ α) (key : κ) (value : Option α) : Cache κ α :=
  { c with entries := putEntry key value c.entries }

private theorem lookup_putEntry_self {key : κ} (h : (key == key) = true) (value : Option α)
    (entries : List (κ × Option α)) :
    (putEntry key value entries).lookup key = some value := by
  induction entries with
  | nil => simp [putEntry, List.lookup_cons, h]
  | cons entry rest ih =>
    obtain ⟨other, old⟩ := entry
    cases hk : key == other <;> simp [putEntry, List.lookup_cons, hk, ih]

/-- A key that equals itself is found with the value last put. -/
theorem find?_put_self {key : κ} (h : (key == key) = true) (c : Cache κ α) (value : Option α) :
    (c.put key value).find? key = some value :=
  lookup_putEntry_self h value c.entries

def erase (c : Cache κ α) (key : κ) : Cache κ α :=
  { c with entries := c.entries.filter fun entry => !(key == entry.1) }

def clear (c : Cache κ α) : Cache κ α := { c with entries := [] }

/-- Takes a place for a key that is not present. -/
def reserve (c : Cache κ α) (key : κ) : Cache κ α :=
  { entries := c.entries ++ [(key, none)], misses := c.misses + 1 }

end Cache

/-- Where a state keeps a memo table. -/
structure CacheField (σ κ α : Type) where
  read : σ → Cache κ α
  write : Cache κ α → σ → σ

/-- Looks a key up, and computes and keeps its value when it is not present. A computation that
fails leaves no entry behind. -/
def CacheField.recall {σ κ α ε : Type} [BEq κ] (field : CacheField σ κ α) (key : κ)
    (make : EStateM ε σ (Option α)) : EStateM ε σ (Option α) := fun s =>
  match (field.read s).find? key with
  | some kept => .ok kept s
  | none =>
    match make (field.write ((field.read s).reserve key) s) with
    | .ok value s => .ok value (field.write ((field.read s).put key value) s)
    | .error e s => .error e (field.write ((field.read s).erase key) s)

/-- A kept entry answers at once, and nothing is computed. -/
theorem CacheField.recall_of_find? {σ κ α ε : Type} [BEq κ] {field : CacheField σ κ α} {key : κ}
    {s : σ} {kept : Option α} (h : (field.read s).find? key = some kept)
    (make : EStateM ε σ (Option α)) : field.recall key make s = .ok kept s := by
  simp [CacheField.recall, h]

/-- What is computed for a key that is not present is kept. -/
theorem CacheField.recall_of_make {σ κ α ε : Type} [BEq κ] {field : CacheField σ κ α} {key : κ}
    {make : EStateM ε σ (Option α)} {s t : σ} {value : Option α} (missing : (field.read s).find? key = none)
    (run : make (field.write ((field.read s).reserve key) s) = .ok value t) :
    field.recall key make s = .ok value (field.write ((field.read t).put key value) t) := by
  simp only [CacheField.recall, missing, run]

/-- What a lookup yields is kept for the key. -/
theorem CacheField.find?_of_recall {σ κ α ε : Type} [BEq κ] {field : CacheField σ κ α} {key : κ}
    {make : EStateM ε σ (Option α)} {s t : σ} {found : Option α}
    (reads : ∀ cache s, field.read (field.write cache s) = cache) (self : (key == key) = true)
    (ends : field.recall key make s = .ok found t) : (field.read t).find? key = some found := by
  cases kept : (field.read s).find? key with
  | some before =>
    rw [recall_of_find? kept] at ends
    cases ends
    exact kept
  | none =>
    simp only [CacheField.recall, kept] at ends
    split at ends
    · cases ends
      rw [reads]
      exact Cache.find?_put_self self _ _
    · cases ends

end Typeflow
