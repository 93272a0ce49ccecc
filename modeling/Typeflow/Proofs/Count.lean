import Mathlib.Data.List.TakeWhile
import Mathlib.Data.Nat.Digits.Defs
import Typeflow.Text.Count

/-! Which texts are counts, what the others lack, and that nothing wraps while a count is read in 64-bit words. -/
namespace Typeflow.Text

variable {bytes text done : List UInt8} {total : UInt64} {byte : UInt8}

/-- Tab, line feed, vertical tab, form feed, carriage return and space. -/
def blanks : List UInt8 := [9, 10, 11, 12, 13, 32]

private theorem isBlankByte_iff : isBlankByte byte = true ↔ byte ∈ blanks := by
  simp [isBlankByte, blanks, UInt8.le_iff_toNat_le, ← UInt8.toNat_inj]
  omega

/-- What is left of a text without the blanks before and behind it. -/
structure Trims (bytes text : List UInt8) : Prop where
  around : ∃ before behind, bytes = before ++ text ++ behind ∧ (∀ b ∈ before, b ∈ blanks) ∧ ∀ b ∈ behind, b ∈ blanks
  first : ∀ b ∈ text.head?, b ∉ blanks
  last : ∀ b ∈ text.getLast?, b ∉ blanks

private theorem head?_dropWhile_isBlankByte (bytes : List UInt8) :
    ∀ b ∈ (bytes.dropWhile isBlankByte).head?, b ∉ blanks := by
  intro b first blank
  have stops := List.head?_dropWhile_not isBlankByte bytes
  rw [Option.mem_def.1 first] at stops
  rw [← isBlankByte_iff, stops] at blank
  cases blank

private theorem mem_takeWhile_isBlankByte (bytes : List UInt8) : ∀ b ∈ bytes.takeWhile isBlankByte, b ∈ blanks := by
  intro b mem
  exact isBlankByte_iff.1 (List.mem_takeWhile_imp mem)

private theorem trims_trimmed (bytes : List UInt8) : Trims bytes (trimmed bytes) := by
  let inner := bytes.dropWhile isBlankByte
  have left : bytes.takeWhile isBlankByte ++ inner = bytes := List.takeWhile_append_dropWhile
  have right : trimmed bytes ++ (inner.reverse.takeWhile isBlankByte).reverse = inner := by
    unfold trimmed
    rw [← List.reverse_append, List.takeWhile_append_dropWhile, List.reverse_reverse]
  constructor
  case around =>
    refine ⟨bytes.takeWhile isBlankByte, (inner.reverse.takeWhile isBlankByte).reverse, ?_, ?_, ?_⟩
    · rw [List.append_assoc, right, left]
    · exact mem_takeWhile_isBlankByte bytes
    · intro b mem
      exact mem_takeWhile_isBlankByte inner.reverse b (List.mem_reverse.1 mem)
  case first =>
    intro b first
    apply head?_dropWhile_isBlankByte bytes b
    change b ∈ inner.head?
    rw [← right, List.head?_append, Option.mem_def.1 first]
    rfl
  case last =>
    intro b last
    apply head?_dropWhile_isBlankByte inner.reverse b
    rwa [← List.getLast?_reverse]

/-- No other text is left. -/
theorem Trims.unique (h : Trims bytes text) : text = trimmed bytes := by
  obtain ⟨before, behind, rfl, blankBefore, blankBehind⟩ := h.around
  have blankBehind' : ∀ b ∈ behind.reverse, isBlankByte b = true := by
    intro b mem
    exact isBlankByte_iff.2 (blankBehind b (List.mem_reverse.1 mem))
  unfold trimmed
  rw [List.append_assoc, List.dropWhile_append_of_pos fun b mem => isBlankByte_iff.2 (blankBefore b mem)]
  cases text with
  | nil =>
    have none : behind.dropWhile isBlankByte = [] := by
      apply List.dropWhile_eq_nil_iff.2
      intro b mem
      exact isBlankByte_iff.2 (blankBehind b mem)
    simp [none]
  | cons b rest =>
    have begins : ¬isBlankByte b = true := by
      rw [isBlankByte_iff]
      exact h.first b rfl
    rw [List.cons_append, List.dropWhile_cons_of_neg begins, ← List.cons_append, List.reverse_append,
      List.dropWhile_append_of_pos blankBehind']
    have ends : (b :: rest).reverse.dropWhile isBlankByte = (b :: rest).reverse := by
      cases turned : (b :: rest).reverse with
      | nil => rfl
      | cons c more =>
        apply List.dropWhile_cons_of_neg
        rw [isBlankByte_iff]
        apply h.last c
        rw [List.getLast?_eq_head?_reverse, turned]
        rfl
    rw [ends, List.reverse_reverse]

private theorem trims_iff : Trims bytes text ↔ text = trimmed bytes := by
  constructor
  · exact Trims.unique
  · rintro rfl
    exact trims_trimmed bytes

/-- A text of ASCII digits. -/
def Digits (text : List UInt8) : Prop := ∀ b ∈ text, 48 ≤ b.toNat ∧ b.toNat ≤ 57

/-- The number that a text of digits writes. -/
def decimal (text : List UInt8) : Nat := Nat.ofDigits 10 (text.reverse.map fun b => b.toNat - 48)

private theorem isDigit_iff : isDigit byte = true ↔ 48 ≤ byte.toNat ∧ byte.toNat ≤ 57 := by
  simp [isDigit, UInt8.le_iff_toNat_le]

@[simp] theorem decimal_nil : decimal [] = 0 := rfl

private theorem decimal_concat (text : List UInt8) (byte : UInt8) :
    decimal (text ++ [byte]) = decimal text * 10 + (byte.toNat - 48) := by
  unfold decimal
  rw [List.reverse_concat, List.map_cons, Nat.ofDigits_cons]
  omega

/-- More digits write no smaller number. -/
theorem decimal_le_append (text more : List UInt8) : decimal text ≤ decimal (text ++ more) := by
  induction more generalizing text with
  | nil => simp
  | cons byte more ih =>
    have longer := ih (text ++ [byte])
    rw [decimal_concat, List.append_assoc, List.singleton_append] at longer
    omega

/-- A step of the reading at a digit computes in words what it would compute in numbers, and it goes on exactly
when the next value is one of a word. -/
structure Exact (total : UInt64) (byte : UInt8) : Prop where
  digit : (digitOf byte).toNat = byte.toNat - 48
  room : (maxCount - digitOf byte).toNat = 2 ^ 64 - 1 - (byte.toNat - 48)
  stops : total > (maxCount - digitOf byte) / 10 ↔ 2 ^ 64 ≤ total.toNat * 10 + (byte.toNat - 48)
  tenfold : ¬total > (maxCount - digitOf byte) / 10 → (total * 10).toNat = total.toNat * 10
  next : ¬total > (maxCount - digitOf byte) / 10 →
    (total * 10 + digitOf byte).toNat = total.toNat * 10 + (byte.toNat - 48)

private theorem exact_of_isDigit (digit : isDigit byte = true) (total : UInt64) : Exact total byte := by
  obtain ⟨low, high⟩ := isDigit_iff.1 digit
  have value : (digitOf byte).toNat = byte.toNat - 48 := by
    have from48 : (48 : UInt8) ≤ byte := UInt8.le_iff_toNat_le.2 low
    unfold digitOf
    rw [UInt8.toNat_toUInt64, UInt8.toNat_sub_of_le _ _ from48]
    rfl
  have largest : maxCount.toNat = 2 ^ 64 - 1 := rfl
  have room : (maxCount - digitOf byte).toNat = 2 ^ 64 - 1 - (byte.toNat - 48) := by
    have fits : digitOf byte ≤ maxCount := by
      rw [UInt64.le_iff_toNat_le, value, largest]
      omega
    rw [UInt64.toNat_sub_of_le _ _ fits, value, largest]
  have ten : (10 : UInt64).toNat = 10 := rfl
  have stops : total > (maxCount - digitOf byte) / 10 ↔ 2 ^ 64 ≤ total.toNat * 10 + (byte.toNat - 48) := by
    rw [gt_iff_lt, UInt64.lt_iff_toNat_lt, UInt64.toNat_div, room, ten]
    omega
  have tenfold : ¬total > (maxCount - digitOf byte) / 10 → (total * 10).toNat = total.toNat * 10 := by
    intro goes
    rw [stops] at goes
    rw [UInt64.toNat_mul, ten]
    exact Nat.mod_eq_of_lt (by omega)
  refine ⟨value, room, stops, tenfold, ?_⟩
  intro goes
  rw [UInt64.toNat_add, tenfold goes, value]
  rw [stops] at goes
  exact Nat.mod_eq_of_lt (by omega)

/-- What the reading of a text comes to, when digits have been read before it. -/
def Verdict (done text : List UInt8) : Except CountError UInt64 → Prop
  | .ok count => Digits text ∧ count.toNat = decimal (done ++ text)
  | .error .overflow => ∃ front, front <+: text ∧ Digits front ∧ 2 ^ 64 ≤ decimal (done ++ front)
  | .error .badCharacter => ¬Digits text ∧ ∀ front, front <+: text → Digits front → decimal (done ++ front) < 2 ^ 64
  | .error .empty => False

private theorem verdict_countFrom (value : total.toNat = decimal done) : Verdict done text (countFrom total text) := by
  induction text generalizing done total with
  | nil =>
    unfold countFrom
    refine ⟨by simp [Digits], ?_⟩
    rw [List.append_nil, value]
  | cons byte rest ih =>
    unfold countFrom
    by_cases digit : isDigit byte = true
    · have exactly := exact_of_isDigit digit total
      have spelt := isDigit_iff.1 digit
      have read : decimal (done ++ [byte]) = total.toNat * 10 + (byte.toNat - 48) := by
        rw [decimal_concat, value]
      rw [if_pos digit]
      by_cases stops : total > (maxCount - digitOf byte) / 10
      · rw [if_pos stops]
        refine ⟨[byte], by simp, by simpa [Digits] using spelt, ?_⟩
        rw [read]
        exact exactly.stops.1 stops
      · rw [if_neg stops]
        have fits : decimal (done ++ [byte]) < 2 ^ 64 := by
          have small := mt exactly.stops.2 stops
          omega
        have inner : Verdict (done ++ [byte]) rest (countFrom (total * 10 + digitOf byte) rest) :=
          ih ((exactly.next stops).trans read.symm)
        have onward (more : List UInt8) : done ++ [byte] ++ more = done ++ byte :: more := by simp
        cases ends : countFrom (total * 10 + digitOf byte) rest with
        | ok count =>
          rw [ends] at inner
          obtain ⟨digits, same⟩ := inner
          rw [onward] at same
          exact ⟨List.forall_mem_cons.2 ⟨spelt, digits⟩, same⟩
        | error why =>
          rw [ends] at inner
          cases why with
          | empty => exact inner
          | overflow =>
            obtain ⟨front, here, digits, large⟩ := inner
            rw [onward] at large
            exact ⟨byte :: front, (List.prefix_cons_inj byte).2 here, List.forall_mem_cons.2 ⟨spelt, digits⟩, large⟩
          | badCharacter =>
            obtain ⟨junk, small⟩ := inner
            refine ⟨fun digits => junk (List.forall_mem_cons.1 digits).2, ?_⟩
            intro front here digits
            rcases List.prefix_cons_iff.1 here with rfl | ⟨more, rfl, inRest⟩
            · rw [List.append_nil]
              have less := decimal_le_append done [byte]
              omega
            · rw [← onward]
              exact small more inRest (List.forall_mem_cons.1 digits).2
    · rw [if_neg digit]
      have other : ¬(48 ≤ byte.toNat ∧ byte.toNat ≤ 57) := mt isDigit_iff.2 digit
      refine ⟨fun digits => other (List.forall_mem_cons.1 digits).1, ?_⟩
      intro front here digits
      rcases List.prefix_cons_iff.1 here with rfl | ⟨more, rfl, -⟩
      · rw [List.append_nil, ← value]
        exact total.toNat_lt
      · exact absurd (List.forall_mem_cons.1 digits).1 other

/-- Some of the digits that the text begins with write a number of more than 64 bits. -/
def Overflows (text : List UInt8) : Prop := ∃ front, front <+: text ∧ Digits front ∧ 2 ^ 64 ≤ decimal front

private theorem Overflows.large (h : Overflows text) : 2 ^ 64 ≤ decimal text := by
  obtain ⟨front, ⟨more, rfl⟩, -, large⟩ := h
  have less := decimal_le_append front more
  omega

private theorem not_overflows_nil : ¬Overflows [] := by
  intro h
  have large := h.large
  rw [decimal_nil] at large
  omega

/-- A text is a count exactly when all that is left of it without the blanks at its ends is one or more digits
that write a number of 64 bits, which is the count then. Of any other text the error tells that nothing is left,
or that digits at its beginning write too large a number, or else that some other character is in it. No word
wraps on the way. -/
theorem counts_are_exact (bytes : List UInt8) (place : CountPlace) :
    let stored := storeCount bytes place
    (∀ total byte, isDigit byte = true → Exact total byte) ∧
    ∃ text, (∀ other, Trims bytes other ↔ other = text) ∧
      (stored.1 = true ↔ text ≠ [] ∧ Digits text ∧ decimal text < 2 ^ 64) ∧
      (stored.1 = true → stored.2.value.toNat = decimal text ∧ stored.2.error = place.error) ∧
      (stored.1 = false → stored.2.value = place.value ∧
        ∃ message, stored.2.error = place.error.map (fun _ => message) ∧
          (message = "empty count" ↔ text = []) ∧
          (message = "count overflow" ↔ Overflows text) ∧
          (message = "invalid character in count" ↔ text ≠ [] ∧ ¬Overflows text)) := by
  intro stored
  refine ⟨fun total byte digit => exact_of_isDigit digit total, trimmed bytes, fun other => trims_iff, ?_⟩
  have reads : stored = storeCount bytes place := rfl
  unfold storeCount countOf at reads
  cases left : trimmed bytes with
  | nil =>
    have none := not_overflows_nil
    rw [left] at reads
    simp [reads, CountError.message, none]
  | cons first rest =>
    have verdict : Verdict [] (first :: rest) (countFrom 0 (first :: rest)) := verdict_countFrom rfl
    rw [left] at reads
    cases ends : countFrom 0 (first :: rest) with
    | ok count =>
      rw [ends] at verdict
      obtain ⟨digits, same⟩ := verdict
      rw [List.nil_append] at same
      have fits : decimal (first :: rest) < 2 ^ 64 := same ▸ count.toNat_lt
      simp [reads, ends, digits, fits, same, -Nat.reducePow]
    | error why =>
      rw [ends] at verdict
      cases why with
      | empty => exact verdict.elim
      | overflow =>
        have overflows : Overflows (first :: rest) := verdict
        have large : ¬decimal (first :: rest) < 2 ^ 64 := by
          have atLeast := overflows.large
          omega
        simp [reads, ends, CountError.message, overflows, large, -Nat.reducePow]
      | badCharacter =>
        obtain ⟨junk, small⟩ := verdict
        have fits : ¬Overflows (first :: rest) := by
          rintro ⟨front, here, digits, large⟩
          have less := small front here digits
          rw [List.nil_append] at less
          omega
        simp [reads, ends, CountError.message, junk, fits]

/-- A blank, `0`, `7` and a line feed. -/
example : storeCount [32, 48, 55, 10] ⟨12, none⟩ = (true, ⟨7, none⟩) := by decide

end Typeflow.Text
