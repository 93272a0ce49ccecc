/-! The characters of a text. Most names are ASCII only and are read byte by byte, without decoding. -/
namespace Typeflow.Text

def isAscii (byte : UInt8) : Bool := byte.toNat < 128

/-- The characters of a text, in order. -/
def chars (text : String) : List Char :=
  let bytes := text.toByteArray.data.toList
  if bytes.all isAscii then bytes.map fun byte => Char.ofNat byte.toNat else text.toList

/-- Space, tab, line feed, vertical tab, form feed and carriage return. -/
def isBlank (c : Char) : Bool := c.toNat = 32 || (9 ≤ c.toNat && c.toNat ≤ 13)

/-- The value of an ASCII digit. -/
def digit? (c : Char) : Option Nat :=
  if 48 ≤ c.toNat ∧ c.toNat ≤ 57 then some (c.toNat - 48) else none

/-- A character that is encoded in ASCII is its own code. -/
theorem encode_of_ascii {c : Char} (ascii : (String.utf8EncodeChar c).all isAscii = true) :
    (String.utf8EncodeChar c).map (fun byte => Char.ofNat byte.toNat) = [c] := by
  by_cases small : c.val.toNat ≤ 127
  · have code : (UInt8.ofNat c.val.toNat).toNat = c.toNat := by
      rw [UInt8.toNat_ofNat']
      exact Nat.mod_eq_of_lt (by omega)
    rw [String.utf8EncodeChar]
    rw [if_pos small, List.map_cons, List.map_nil, code, Char.ofNat_toNat]
  · -- The first byte of a longer encoding has its highest bit set.
    exfalso
    revert ascii
    rw [String.utf8EncodeChar]
    rw [if_neg small]
    split
    · simp [isAscii]
      omega
    · split
      · simp [isAscii]
        omega
      · simp [isAscii]
        omega

private theorem chars_of_ascii {cs : List Char} (ascii : (cs.flatMap String.utf8EncodeChar).all isAscii = true) :
    (cs.flatMap String.utf8EncodeChar).map (fun byte => Char.ofNat byte.toNat) = cs := by
  induction cs with
  | nil => rfl
  | cons c rest ih =>
    rw [List.flatMap_cons, List.all_append, Bool.and_eq_true] at ascii
    rw [List.flatMap_cons, List.map_append, encode_of_ascii ascii.1, ih ascii.2]
    rfl

theorem chars_eq (text : String) : chars text = text.toList := by
  have bytes : text.toByteArray.data.toList = text.toList.flatMap String.utf8EncodeChar := by
    conv => lhs; rw [← String.ofList_toList (s := text), String.toByteArray_ofList]
    simp [List.utf8Encode]
  rw [chars]
  split
  · next ascii =>
    rw [bytes] at ascii ⊢
    exact chars_of_ascii ascii
  · rfl

end Typeflow.Text
