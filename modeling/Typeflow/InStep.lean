/-! Items in order beside the set of their keys. -/
namespace Typeflow

/-- The keys are a set, and it is that of the keys of the items, none of which two items share. -/
structure InStep {α κ : Type} (key : α → κ) (items : List α) (keys : List κ) : Prop where
  nodup : keys.Nodup
  perm : keys.Perm (items.map key)

namespace InStep

variable {α κ : Type} {key : α → κ} {items more : List α} {keys : List κ} {item : α}

theorem nil : InStep key [] [] := ⟨List.nodup_nil, .refl _⟩

theorem distinct (h : InStep key items keys) : (items.map key).Nodup := h.perm.nodup_iff.1 h.nodup

theorem mem_keys (h : InStep key items keys) {k : κ} : k ∈ keys ↔ ∃ item ∈ items, key item = k := by
  rw [h.perm.mem_iff, List.mem_map]

/-- An item is put in along with its key, wherever it is to stand. -/
theorem add (h : InStep key items keys) (free : key item ∉ keys) (put : more.Perm (item :: items)) :
    InStep key more (key item :: keys) where
  nodup := List.nodup_cons.2 ⟨free, h.nodup⟩
  perm := (h.perm.cons _).trans (put.symm.map key)

/-- An item is taken out along with its key, wherever it stands. -/
theorem remove [BEq κ] [LawfulBEq κ] (before : List α) (h : InStep key (before ++ item :: items) keys) :
    InStep key (before ++ items) (keys.erase (key item)) := by
  have first : keys.Perm (key item :: (before ++ items).map key) :=
    h.perm.trans (List.perm_middle.map key)
  refine ⟨h.nodup.erase _, (first.erase (key item)).trans ?_⟩
  rw [List.erase_cons_head]

/-- Items are taken out one after the other; those before have been looked at. -/
theorem filter [BEq κ] [LawfulBEq κ] (stays : α → Bool) (before : List α)
    (h : InStep key (before ++ items) keys) :
    InStep key (before ++ items.filter stays)
      ((items.filter (!stays ·)).foldl (fun keys item => keys.erase (key item)) keys) := by
  induction items generalizing before keys with
  | nil => exact h
  | cons item rest ih =>
    cases hi : stays item with
    | true =>
      rw [List.append_cons] at h
      simpa [List.filter, hi] using ih (before ++ [item]) h
    | false => simpa [List.filter, hi] using ih before (h.remove before)

end InStep

end Typeflow
