import Typeflow.Cache

/-! What memo tables hold after a place is taken, a value is kept or an entry is erased. -/
namespace Typeflow.Cache

variable {κ α : Type} [BEq κ] {c : Cache κ α} {key asked : κ}

private theorem lookup_putEntry {value found : Option α} {entries : List (κ × Option α)}
    (h : (putEntry key value entries).lookup asked = some found) :
    entries.lookup asked = some found ∨ found = value := by
  induction entries with
  | nil => cases ha : asked == key <;> simp_all [putEntry, List.lookup_cons]
  | cons entry rest ih =>
    obtain ⟨other, old⟩ := entry
    cases hk : key == other <;> cases ha : asked == other <;>
      simp_all [putEntry, List.lookup_cons]

/-- What is found after a key was set is what was found before, or what was set. -/
theorem find?_put {value found : Option α} (h : (c.put key value).find? asked = some found) :
    c.find? asked = some found ∨ found = value :=
  lookup_putEntry h

private theorem lookup_putEntry_of_free {value : Option α} {kept : α} {entries : List (κ × Option α)}
    (free : ∀ other, entries.lookup key ≠ some (some other))
    (h : entries.lookup asked = some (some kept)) :
    (putEntry key value entries).lookup asked = some (some kept) := by
  induction entries with
  | nil => cases h
  | cons entry rest ih =>
    obtain ⟨other, old⟩ := entry
    cases hk : key == other <;> cases ha : asked == other <;>
      simp_all [putEntry, List.lookup_cons]

/-- Setting a key that has no value yet leaves the values of all keys. -/
theorem find?_put_of_free {value : Option α} {kept : α}
    (free : ∀ other, c.find? key ≠ some (some other)) (h : c.find? asked = some (some kept)) :
    (c.put key value).find? asked = some (some kept) :=
  lookup_putEntry_of_free free h

/-- A place is taken for a key and those equal to it, unless there is one. -/
theorem find?_reserve_eq (c : Cache κ α) (key asked : κ) :
    (c.reserve key).find? asked =
      (c.find? asked).or (if asked == key then some none else none) := by
  simp only [find?, reserve, List.lookup_append, List.lookup_cons, List.lookup_nil]
  cases asked == key <;> rfl

/-- A place without a value is no value. -/
theorem find?_reserve {kept : α} :
    (c.reserve key).find? asked = some (some kept) ↔ c.find? asked = some (some kept) := by
  rw [find?_reserve_eq]
  cases c.find? asked with
  | none => cases asked == key <;> simp
  | some found => simp

/-- The place taken for a key that was not there has no value. -/
theorem find?_reserve_ne (fresh : c.find? key = none) (kept : α) :
    (c.reserve key).find? key ≠ some (some kept) := by
  rw [Ne, find?_reserve, fresh]
  nofun

/-- A place is taken where there is none, and what is kept stays. -/
theorem find?_reserve_of_some {found : Option α} (h : c.find? asked = some found) :
    (c.reserve key).find? asked = some found := by
  rw [find?_reserve_eq, h, Option.some_or]

theorem find?_reserve_self (h : (key == key) = true) (fresh : c.find? key = none) :
    (c.reserve key).find? key = some none := by
  rw [find?_reserve_eq, fresh, h]
  rfl

private theorem keys_putEntry {entries : List (κ × Option α)} (present : entries.lookup key ≠ none)
    (value : Option α) : (putEntry key value entries).map (·.1) = entries.map (·.1) := by
  induction entries with
  | nil => exact absurd rfl present
  | cons entry rest ih =>
    obtain ⟨other, old⟩ := entry
    cases hk : key == other with
    | true => simp [putEntry, hk]
    | false =>
      rw [List.lookup_cons, hk] at present
      simp [putEntry, hk, ih present]

theorem size_put (present : c.find? key ≠ none) (value : Option α) :
    (c.put key value).size = c.size := by
  have keys := congrArg List.length (keys_putEntry present value)
  simpa [Cache.put, size] using keys

def Distinct (c : Cache κ α) : Prop := (c.entries.map (·.1)).Pairwise fun a b => (a == b) = false

theorem Distinct.put (h : c.Distinct) (present : c.find? key ≠ none) (value : Option α) :
    (c.put key value).Distinct := by
  rw [Distinct, Cache.put, keys_putEntry present]
  exact h

theorem Distinct.erase (h : c.Distinct) (key : κ) : (c.erase key).Distinct :=
  h.sublist (List.filter_sublist.map _)

section Equal

variable [PartialEquivBEq κ]

theorem lookup_congr {other : κ} (same : (key == other) = true) (entries : List (κ × Option α)) :
    entries.lookup key = entries.lookup other := by
  induction entries with
  | nil => rfl
  | cons entry rest ih => rw [List.lookup_cons, List.lookup_cons, BEq.congr_left same, ih]

private theorem lookup_putEntry_eq (value : Option α) (entries : List (κ × Option α)) :
    (putEntry key value entries).lookup asked =
      if asked == key then some value else entries.lookup asked := by
  induction entries with
  | nil => cases ha : asked == key <;> simp [putEntry, List.lookup_cons, ha]
  | cons entry rest ih =>
    obtain ⟨other, old⟩ := entry
    cases hk : key == other with
    | true =>
      have same : (asked == key) = (asked == other) := BEq.congr_right hk
      cases ha : asked == other <;> simp [putEntry, List.lookup_cons, hk, same, ha]
    | false =>
      cases ha : asked == other with
      | false => simpa [putEntry, List.lookup_cons, hk, ha] using ih
      | true =>
        have differs : (asked == key) = false := by
          rw [BEq.congr_left ha, BEq.comm, hk]
        simp [putEntry, List.lookup_cons, hk, ha, differs]

/-- Setting a key sets those equal to it and no others. -/
theorem find?_put_eq (c : Cache κ α) (key asked : κ) (value : Option α) :
    (c.put key value).find? asked = if asked == key then some value else c.find? asked :=
  lookup_putEntry_eq value c.entries

/-- Erasing a key erases those equal to it and no others. -/
theorem find?_erase_eq (c : Cache κ α) (key asked : κ) :
    (c.erase key).find? asked = if asked == key then none else c.find? asked := by
  obtain ⟨entries, misses⟩ := c
  simp only [find?, erase]
  induction entries with
  | nil => simp
  | cons entry rest ih =>
    obtain ⟨other, old⟩ := entry
    cases hk : key == other with
    | true =>
      have same : (asked == key) = (asked == other) := BEq.congr_right hk
      cases ha : asked == other <;> simp [List.lookup_cons, hk, ih, same, ha]
    | false =>
      cases ha : asked == other with
      | false => simp [List.lookup_cons, hk, ih, ha]
      | true =>
        have differs : (asked == key) = false := by
          rw [BEq.congr_left ha, BEq.comm, hk]
        simp [List.lookup_cons, hk, ha, differs]

theorem Distinct.reserve (h : c.Distinct) (free : c.find? key = none) : (c.reserve key).Distinct := by
  rw [Distinct, Cache.reserve, List.map_append]
  refine List.pairwise_append.2 ⟨h, List.pairwise_singleton _ _, fun a ha b hb => ?_⟩
  obtain ⟨entry, mem, rfl⟩ := List.mem_map.1 ha
  rw [List.map_singleton, List.mem_singleton] at hb
  have differs := List.lookup_eq_none_iff.1 free entry mem
  rw [hb, BEq.comm]
  exact Bool.not_eq_true' _ ▸ differs

/-- One entry goes when a key that is present is erased. -/
theorem size_erase (h : c.Distinct) (present : c.find? key ≠ none) :
    (c.erase key).size + 1 = c.size := by
  obtain ⟨entries, misses⟩ := c
  simp only [find?, Distinct, erase, size] at h present ⊢
  induction entries with
  | nil => exact absurd rfl present
  | cons entry rest ih =>
    obtain ⟨other, old⟩ := entry
    rw [List.map_cons, List.pairwise_cons] at h
    cases hk : key == other with
    | false =>
      rw [List.lookup_cons, hk] at present
      simpa [hk] using ih h.2 present
    | true =>
      have stay : rest.filter (fun entry => !(key == entry.1)) = rest := by
        refine List.filter_eq_self.2 fun entry mem => ?_
        have differs := h.1 entry.1 (List.mem_map_of_mem mem)
        rw [BEq.congr_left hk, differs]
        rfl
      simp [hk, stay]

end Equal

theorem find?_put_ne [LawfulBEq κ] (h : asked ≠ key) (c : Cache κ α) (value : Option α) :
    (c.put key value).find? asked = c.find? asked := by
  rw [find?_put_eq, beq_false_of_ne h]
  rfl

end Typeflow.Cache
