import Mathlib.Data.List.Basic
import Typeflow.Session.Universe

/-! The texts under which sets of alternatives are kept. No two sets have the same text. -/
namespace Typeflow.Session

private theorem comma_notMem_digits (n : Nat) : ',' ∉ Nat.toDigits 10 n := by
  intro mem
  have digit : ','.isDigit = true := Nat.isDigit_of_mem_toDigits (by omega) (by omega) mem
  exact absurd digit (by decide)

private theorem toList_alternativesKey (members : List ValueId) :
    (alternativesKey members).toList = members.flatMap fun v => Nat.toDigits 10 v.index ++ [','] := by
  -- The loop may go on from any text.
  have loop : ∀ key : String,
      (members.foldl (fun key v => key ++ (toString v.index ++ ",")) key).toList =
        key.toList ++ members.flatMap fun v => Nat.toDigits 10 v.index ++ [','] := by
    induction members with
    | nil => simp
    | cons v rest ih =>
      intro key
      rw [List.foldl_cons, ih, List.flatMap_cons]
      simp
  unfold alternativesKey
  rw [loop]
  simp

/-- The numbers are read off the text between its commas. Nothing follows the last one. -/
theorem splitOn_alternativesKey (members : List ValueId) :
    (alternativesKey members).toList.splitOn ',' =
      members.map (fun v => Nat.toDigits 10 v.index) ++ [[]] := by
  have joined : (alternativesKey members).toList =
      [','].intercalate (members.map (fun v => Nat.toDigits 10 v.index) ++ [[]]) := by
    rw [toList_alternativesKey]
    induction members with
    | nil => rfl
    | cons v rest ih =>
      have more : rest.map (fun v => Nat.toDigits 10 v.index) ++ [[]] ≠ [] := by simp
      rw [List.flatMap_cons, ih, List.map_cons, List.cons_append, List.intercalate_cons_of_ne_nil more]
  have plain : ∀ digits ∈ members.map (fun v => Nat.toDigits 10 v.index) ++ [[]], ',' ∉ digits := by
    intro digits mem
    rw [List.mem_append, List.mem_map, List.mem_singleton] at mem
    rcases mem with ⟨v, -, rfl⟩ | rfl
    · exact comma_notMem_digits v.index
    · exact List.not_mem_nil
  rw [joined]
  exact List.splitOn_intercalate ',' plain (by simp)

theorem alternativesKey_injective {members others : List ValueId}
    (same : alternativesKey members = alternativesKey others) : members = others := by
  have digits : members.map (fun v => Nat.toDigits 10 v.index) = others.map fun v => Nat.toDigits 10 v.index := by
    apply List.append_cancel_right
    rw [← splitOn_alternativesKey, ← splitOn_alternativesKey, same]
  apply List.map_injective_iff.2 ?_ digits
  intro v w alike
  have number : v.index = w.index := by
    have read := congrArg (fun digits => Nat.ofDigitChars 10 digits 0) alike
    simpa using read
  cases v
  cases w
  simpa using number

end Typeflow.Session
