/-! Decimal counts that fit 64 bits, with blanks allowed around them. A text is read byte by byte. -/
namespace Typeflow.Text

inductive CountError where
  | empty
  | badCharacter
  | overflow
  deriving DecidableEq, Repr

def CountError.message : CountError → String
  | .empty => "empty count"
  | .badCharacter => "invalid character in count"
  | .overflow => "count overflow"

/-- Space, tab, line feed, vertical tab, form feed and carriage return. -/
def isBlankByte (byte : UInt8) : Bool := byte == 32 || (9 ≤ byte && byte ≤ 13)

/-- A text without the blanks at its two ends. -/
def trimmed (bytes : List UInt8) : List UInt8 :=
  ((bytes.dropWhile isBlankByte).reverse.dropWhile isBlankByte).reverse

def isDigit (byte : UInt8) : Bool := 48 ≤ byte && byte ≤ 57

/-- The value of a digit. -/
def digitOf (byte : UInt8) : UInt64 := (byte - 48).toUInt64

/-- The largest count, 2 ^ 64 - 1. -/
def maxCount : UInt64 := 18446744073709551615

/-- Reads digits from the left and stops at the first fault; `total` is the value so far. -/
def countFrom (total : UInt64) : List UInt8 → Except CountError UInt64
  | [] => .ok total
  | byte :: rest =>
    if isDigit byte then
      if total > (maxCount - digitOf byte) / 10 then .error .overflow
      else countFrom (total * 10 + digitOf byte) rest
    else .error .badCharacter

/-- Reads a count from a whole text. -/
def countOf (bytes : List UInt8) : Except CountError UInt64 :=
  match trimmed bytes with
  | [] => .error .empty
  | byte :: rest => countFrom 0 (byte :: rest)

/-- Where a count goes, and the text of what is wrong with it if anyone asks for that. -/
structure CountPlace where
  value : UInt64
  error : Option String
  deriving DecidableEq, Repr

/-- Puts the count of a text into its place and tells whether there is one. -/
def storeCount (bytes : List UInt8) (place : CountPlace) : Bool × CountPlace :=
  match countOf bytes with
  | .ok count => (true, { place with value := count })
  | .error why => (false, { place with error := place.error.map fun _ => why.message })

def readCount (text : String) : Except CountError Nat :=
  (countOf text.toByteArray.data.toList).map UInt64.toNat

end Typeflow.Text
